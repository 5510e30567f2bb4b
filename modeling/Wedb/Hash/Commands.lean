import Wedb.Hash.Queue

/-!
# Setting and deleting keep the counters

Each loop over fields visits a field once, so what it loads for a field is what
the queue has for it. Insertions only add fields, and the committed store bounds
their number at every step of the loop.
-/

namespace Wedb

variable {s : Store} {kc : KeyComposer} {key : Key} {hm : HashMeta} {ops : Batch}
  {now version : UInt64} {f v : Bytes} {o : WriteOp}

def queuedFields (s : Store) (kc : KeyComposer) (key : Key) (ops : Batch) :
    SortedMap Bytes Bytes :=
  (s.apply ops).family kc key .hashData

theorem queuedFields_nil (s : Store) (kc : KeyComposer) (key : Key) :
    queuedFields s kc key [] = s.family kc key .hashData := rfl

theorem queuedFields_push (h : o.OnField kc key f) (s : Store) (ops : Batch) :
    queuedFields s kc key (ops ++ [o]) = (queuedFields s kc key ops).put f o.value :=
  family_apply_onField h s ops

theorem insertData_onField (kc : KeyComposer) (key : Key) (f v : Bytes) :
    (WriteOp.insertData (keyForField kc key f) v).OnField kc key f := ⟨rfl, rfl⟩

theorem queuedFields_insert (s : Store) (kc : KeyComposer) (key : Key) (ops : Batch)
    (f v : Bytes) : queuedFields s kc key (ops ++ [.insertData (keyForField kc key f) v]) =
      (queuedFields s kc key ops).insert f v :=
  queuedFields_push (insertData_onField kc key f v) s ops

theorem queuedFields_metadata (ho : o.partition = .metadata) :
    queuedFields s kc key (ops ++ [o]) = queuedFields s kc key ops := by
  rw [queuedFields, Store.apply_append, Store.apply_cons, Store.apply_nil]
  exact Store.family_applyOp_of_metadata ho

theorem queuedFields_commit (K : Bytes) (hm : HashMeta) :
    queuedFields s kc key (ops ++ commitHashMetaOrRm K hm) = queuedFields s kc key ops := by
  unfold commitHashMetaOrRm
  split_ifs
  · exact queuedFields_metadata rfl
  · exact queuedFields_metadata rfl

theorem HashQueue.pushInsert (h : HashQueue s kc key hm ops) {hm' : HashMeta} {e : UInt64}
    (hc : HashCounts hm' ((queuedFields s kc key ops).insert f (encodeHashValue v e))) :
    HashQueue s kc key hm'
      (ops ++ [.insertData (keyForField kc key f) (hm'.encodeSubkeyValue v e)]) := by
  rw [hc.encodeSubkeyValue]
  exact h.push (insertData_onField kc key f _) hc

theorem HashQueue.insertWithMeta (h : HashQueue s kc key hm ops) {hm' : HashMeta} {e : UInt64}
    (hc : HashCounts hm' ((queuedFields s kc key ops).insert f (encodeHashValue v e))) :
    HashKept s kc key (ops ++ [.insertData (keyForField kc key f) (hm'.encodeSubkeyValue v e),
      .insertMeta (composeHashMetaKey kc key) hm'.encode]) := by
  have hq := (h.pushInsert hc).insertMeta (hc.size_ne_zero (SortedMap.get_insert_self f _ _))
  rwa [List.append_assoc] at hq

theorem length_lt_of_insertWithMeta {x : Bytes} {K y : Bytes}
    (hfits : (s.apply (ops ++ [.insertData (keyForField kc key f) x, .insertMeta K y])).Fits)
    (z : Bytes) : ((queuedFields s kc key ops).insert f z).length < 2 ^ 64 := by
  have hlen := hfits.length_family_lt kc key .hashData
  have hmeta : ops ++ [WriteOp.insertData (keyForField kc key f) x, .insertMeta K y] =
      (ops ++ [.insertData (keyForField kc key f) x]) ++ [.insertMeta K y] := by simp
  rw [hmeta, ← queuedFields, queuedFields_metadata rfl, queuedFields_insert,
    SortedMap.length_insert_congr f x z] at hlen
  exact hlen

/-! ## Loops over distinct fields -/

section
variable {σ τ : Type} (hmOf : σ → HashMeta) (opsOf : σ → Batch) (name : τ → Bytes)
  (step : σ → τ → σ) (P : σ → Prop) (V : SortedMap Bytes Bytes)

theorem foldl_back {step : σ → τ → σ} {P : σ → Prop} (hback : ∀ w x, P (step w x) → P w) {xs : List τ} {w : σ}
    (h : P (xs.foldl step w)) : P w := by
  induction xs generalizing w with
  | nil => exact h
  | cons x xs ih => exact hback w x (ih h)

/-- The step lemma of a loop gives the loop, when each step writes its own field. -/
theorem HashQueue.foldl {xs : List τ} (hback : ∀ w x, P (step w x) → P w)
    (hstep : ∀ w, ∀ x ∈ xs, HashQueue s kc key (hmOf w) (opsOf w) →
      (queuedFields s kc key (opsOf w)).get (name x) = V.get (name x) → P (step w x) →
      HashQueue s kc key (hmOf (step w x)) (opsOf (step w x)))
    (hframe : ∀ w x g, g ≠ name x → (queuedFields s kc key (opsOf (step w x))).get g =
      (queuedFields s kc key (opsOf w)).get g)
    (hnd : (xs.map name).Nodup) {w : σ} (hq : HashQueue s kc key (hmOf w) (opsOf w))
    (hV : ∀ x ∈ xs, (queuedFields s kc key (opsOf w)).get (name x) = V.get (name x))
    (hP : P (xs.foldl step w)) :
    HashQueue s kc key (hmOf (xs.foldl step w)) (opsOf (xs.foldl step w)) := by
  induction xs generalizing w with
  | nil => exact hq
  | cons x xs ih =>
    rw [List.map_cons, List.nodup_cons] at hnd
    refine ih (fun w y hy => hstep w y (List.mem_cons_of_mem _ hy)) hnd.2
      (hstep w x (by simp) hq (hV x (by simp)) (foldl_back hback hP)) (fun y hy => ?_) hP
    have hne : name y ≠ name x := fun hxy => hnd.1 (List.mem_map.mpr ⟨y, hy, hxy⟩)
    rw [hframe w x _ hne]
    exact hV y (List.mem_cons_of_mem _ hy)

end

/-- The queued fields stay countable. -/
def Countable (s : Store) (kc : KeyComposer) (key : Key) (ops : Batch) : Prop :=
  (queuedFields s kc key ops).length < 2 ^ 64

theorem Countable.insert {x : Bytes}
    (h : Countable s kc key (ops ++ [.insertData (keyForField kc key f) x])) (z : Bytes) :
    ((queuedFields s kc key ops).insert f z).length < 2 ^ 64 := by
  rw [SortedMap.length_insert_congr f z x, ← queuedFields_insert]
  exact h

theorem Countable.of_insert {x : Bytes}
    (h : Countable s kc key (ops ++ [.insertData (keyForField kc key f) x])) :
    Countable s kc key ops :=
  (SortedMap.length_le_length_insert f x _).trans_lt (h.insert x)

theorem countable_of_fits {o : WriteOp} (ho : o.partition = .metadata)
    (h : (s.apply (ops ++ [o])).Fits) : Countable s kc key ops := by
  have hlen := h.length_family_lt kc key .hashData
  rwa [← queuedFields, queuedFields_metadata ho] at hlen

theorem countable_of_fits_commit {K : Bytes}
    (h : (s.apply (ops ++ commitHashMetaOrRm K hm)).Fits) : Countable s kc key ops := by
  have hlen := h.length_family_lt kc key .hashData
  rwa [← queuedFields, queuedFields_commit] at hlen

/-! ## HSET -/

theorem hsetOneInternal_kept {a : ℕ} (hinv : HashInv s kc key)
    (h : hsetOneInternal s kc key now version f v = .ok (a, ops)) (hfits : (s.apply ops).Fits) :
    HashKept s kc key ops := by
  unfold hsetOneInternal at h
  obtain ⟨⟨hm, existed, ops0⟩, hprep, h⟩ := bind_eq_ok h
  have hstart := prepareHashMetaForWrite_start hinv hprep
  have hq := hstart.queue
  cases hstart with
  | live hc =>
    cases h
    have hentry := loadFieldState_matches hc.mode hc.stored f now
    exact hq.insertWithMeta (hc.applyFieldState hentry (length_lt_of_insertWithMeta hfits _))
  | fresh _ hempty =>
    cases h
    refine hq.insertWithMeta (hq.counts.missingToPersistent ?_
      (length_lt_of_insertWithMeta hfits _))
    rw [hempty]
    rfl

section
variable {w : HashWork} {fv : Bytes × Bytes}

theorem hsetField_queue (hst : Prefixed (s.family kc key .hashData))
    (hq : HashQueue s kc key w.hm w.ops)
    (hsame : (queuedFields s kc key w.ops).get fv.1 = (s.family kc key .hashData).get fv.1)
    (hlt : Countable s kc key (hsetField s kc key now w fv).ops) :
    HashQueue s kc key (hsetField s kc key now w fv).hm (hsetField s kc key now w fv).ops := by
  have hentry := (loadFieldState_matches hq.counts.mode hst fv.1 now).congr hsame
  exact hq.pushInsert (hq.counts.applyFieldState hentry (hlt.insert _))

theorem hsetFreshField_queue (hq : HashQueue s kc key w.hm w.ops)
    (hnone : (queuedFields s kc key w.ops).get fv.1 = none)
    (hlt : Countable s kc key (hsetFreshField kc key w fv).ops) :
    HashQueue s kc key (hsetFreshField kc key w fv).hm (hsetFreshField kc key w fv).ops := by
  have hnext := hq.pushInsert (v := fv.2) (hq.counts.missingToPersistent hnone (hlt.insert _))
  rwa [HashMeta.encodeSubkeyValue_eq hnext.counts.mode,
    ← HashMeta.encodeSubkeyValue_eq hq.counts.mode] at hnext

theorem get_queuedFields_insert_of_ne {g x : Bytes} (h : g ≠ f) :
    (queuedFields s kc key (ops ++ [.insertData (keyForField kc key f) x])).get g =
      (queuedFields s kc key ops).get g := by
  rw [queuedFields_insert]
  exact SortedMap.get_insert_of_ne x _ h.symm

end

theorem hsetFreshField_foldl_nonempty (w : HashWork) {xs : List (Bytes × Bytes)} (hxs : xs ≠ []) :
    (queuedFields s kc key (xs.foldl (hsetFreshField kc key) w).ops).length ≠ 0 := by
  cases xs with
  | nil => exact absurd rfl hxs
  | cons x xs =>
    intro h0
    have hback : (queuedFields s kc key (hsetFreshField kc key w x).ops).length = 0 :=
      foldl_back (P := fun w : HashWork => (queuedFields s kc key w.ops).length = 0) (fun w y hy => ?_) h0
    · simp only [hsetFreshField] at hback
      rw [queuedFields_insert] at hback
      have hpos := SortedMap.length_pos (SortedMap.get_insert_self x.1
        (w.hm.encodeSubkeyValue x.2 0) (queuedFields s kc key w.ops))
      omega
    · simp only [hsetFreshField] at hy
      rw [queuedFields_insert] at hy
      have hle := SortedMap.length_le_length_insert y.1 (w.hm.encodeSubkeyValue y.2 0)
        (queuedFields s kc key w.ops)
      omega

theorem HashQueue.size_ne_zero (hq : HashQueue s kc key hm ops)
    (h : (queuedFields s kc key ops).length ≠ 0) : hm.base.size ≠ 0 := by
  intro h0
  refine h ?_
  rw [queuedFields, hq.counts.size, h0]
  rfl

theorem hset_kept {a : ℕ} {fields : List (Bytes × Bytes)} (hinv : HashInv s kc key)
    (h : hset s kc key now version fields = .ok (a, ops)) (hfits : (s.apply ops).Fits) :
    HashKept s kc key ops := by
  unfold hset at h
  split at h
  · cases h
    exact .nil hinv
  · exact hsetOneInternal_kept hinv h hfits
  · obtain ⟨⟨hm, existed, ops0⟩, hprep, h⟩ := bind_eq_ok h
    have hstart := prepareHashMetaForWrite_start hinv hprep
    have hq := hstart.queue
    cases hstart with
    | live hc =>
      cases h
      refine HashQueue.commit (HashQueue.foldl HashWork.hm HashWork.ops Prod.fst
        (hsetField s kc key now) (fun w => Countable s kc key w.ops) (s.family kc key .hashData)
        ?_ ?_ ?_ (keepLast_nodup _) hq ?_ (countable_of_fits_commit hfits))
      · exact fun w x hP => Countable.of_insert hP
      · exact fun w x _ hw hsame hP => hsetField_queue hc.stored hw hsame hP
      · exact fun w x g hne => get_queuedFields_insert_of_ne hne
      · exact fun x _ => rfl
    | fresh _ hempty =>
      cases h
      have hlt : Countable s kc key _ := countable_of_fits rfl hfits
      have hloop := HashQueue.foldl HashWork.hm HashWork.ops Prod.fst (hsetFreshField kc key)
        (fun w => Countable s kc key w.ops) ∅ ?_ ?_ ?_ (keepFirst_nodup fields []).1
        (w := ⟨hm, ops0, 0⟩) hq ?_ hlt
      · refine hloop.insertMeta (hloop.size_ne_zero ?_)
        exact hsetFreshField_foldl_nonempty _ (keepFirst_ne_nil ‹_›)
      · exact fun w x hP => Countable.of_insert hP
      · exact fun w x _ hw hnone hP => hsetFreshField_queue hw hnone hP
      · exact fun w x g hne => get_queuedFields_insert_of_ne hne
      · exact fun x _ => by rw [queuedFields, hempty]

theorem hsetnx_kept {a : Bool} (hinv : HashInv s kc key)
    (h : hsetnx s kc key now version f v = .ok (a, ops)) (hfits : (s.apply ops).Fits) :
    HashKept s kc key ops := by
  unfold hsetnx at h
  obtain ⟨⟨hm, existed, ops0⟩, hprep, h⟩ := bind_eq_ok h
  have hstart := prepareHashMetaForWrite_start hinv hprep
  have hq := hstart.queue
  cases hstart with
  | live hc =>
    have hentry := loadFieldState_matches hc.mode hc.stored f now
    simp only [bind, Except.bind, if_true] at h
    cases hload : loadFieldState s kc key now hm f with
    | mk kind expire raw =>
      rw [hload] at h hentry
      cases kind with
      | missing =>
        cases h
        exact hq.insertWithMeta (hc.applyFieldState hentry (length_lt_of_insertWithMeta hfits _))
      | expiredTTLPhysical =>
        cases h
        exact hq.insertWithMeta (hc.applyFieldState hentry (length_lt_of_insertWithMeta hfits _))
      | persistent =>
        cases h
        exact .nil hinv
      | liveTTL =>
        cases h
        exact .nil hinv
  | fresh _ hempty =>
    cases h
    refine hq.insertWithMeta (hq.counts.missingToPersistent ?_
      (length_lt_of_insertWithMeta hfits _))
    rw [hempty]
    rfl

/-! ## HINCRBY -/

theorem decodeStored (hc : HashCounts hm (s.family kc key .hashData)) (f : Bytes) :
    (s.data.get (keyForField kc key f)).bind hm.decodeSubkeyValue =
      ((s.family kc key .hashData).get f).map decodeHashValue := by
  rw [get_keyForField]
  cases hg : (s.family kc key .hashData).get f with
  | none => rfl
  | some raw => exact HashMeta.decodeSubkeyValue_eq hc.mode (hc.stored f raw hg)

theorem hincrby_kept {parseI64Fast : Bytes → Option Int64} {step a : Int64}
    (hinv : HashInv s kc key)
    (h : hincrby s kc key now parseI64Fast version f step = .ok (a, ops))
    (hfits : (s.apply ops).Fits) : HashKept s kc key ops := by
  unfold hincrby at h
  obtain ⟨⟨hm, existed, ops0⟩, hprep, h⟩ := bind_eq_ok h
  have hstart := prepareHashMetaForWrite_start hinv hprep
  have hq := hstart.queue
  obtain ⟨⟨curVal, isMissing, isExpiredTtl, target⟩, hcur, h⟩ := bind_eq_ok h
  simp only at h
  cases hadd : checkedAdd curVal step with
  | none => rw [hadd] at h; cases h
  | some newVal =>
    rw [hadd] at h
    cases h
    refine hq.insertWithMeta ?_
    have hlt := length_lt_of_insertWithMeta hfits
    unfold hincrbyCurrent at hcur
    cases hstart with
    | live hc =>
      rw [if_pos rfl, decodeStored hc] at hcur
      cases hg : (s.family kc key .hashData).get f with
      | none =>
        rw [hg] at hcur
        cases hcur
        exact hc.missingToPersistent hg (hlt _)
      | some raw =>
        rw [hg] at hcur
        simp only [Option.map_some] at hcur
        split_ifs at hcur with hexp
        · cases hcur
          refine hc.ttlToPersistent hg fun h0 => ?_
          rw [fieldExpire] at h0
          rw [h0] at hexp
          exact absurd hexp (by simp [isFieldExpired])
        · obtain ⟨n, -, hcur⟩ := bind_eq_ok hcur
          cases hcur
          exact hc.keepExpire hg rfl
    | fresh _ hempty =>
      cases hcur
      refine hq.counts.missingToPersistent ?_ (hlt _)
      rw [hempty]
      rfl

/-! ## HDEL -/

theorem hdelField_eq (hmode : hm.mode = .fieldExpiration)
    (hst : Prefixed (s.family kc key .hashData)) (f : Bytes) :
    hdelField s kc key now hm f = ((s.family kc key .hashData).get f).map fun raw =>
      (if fieldExpire raw = 0 then hm.applyPersistentToDeleted else hm.applyTtlToDeleted,
        !isFieldExpired (fieldExpire raw) now) := by
  rw [hdelField, get_keyForField]
  cases hg : (s.family kc key .hashData).get f with
  | none => rfl
  | some raw =>
    rw [Option.bind_some, HashMeta.decodeSubkeyValue_eq hmode (hst f raw hg)]
    rfl

theorem rmWeakData_onField (kc : KeyComposer) (key : Key) (f : Bytes) :
    (WriteOp.rmWeakData (keyForField kc key f)).OnField kc key f := ⟨rfl, rfl⟩

theorem hdelOneInternal_kept {a : ℕ} (hinv : HashInv s kc key)
    (h : hdelOneInternal s kc key now f = .ok (a, ops)) : HashKept s kc key ops := by
  unfold hdelOneInternal at h
  obtain ⟨r, hget, h⟩ := bind_eq_ok h
  cases r with
  | none =>
    cases h
    exact .nil hinv
  | some hm =>
    obtain ⟨-, hc⟩ := getHashMeta_eq_some hinv hget
    simp only [bind, Except.bind, hdelField_eq hc.mode hc.stored] at h
    split_ifs at h with hsize
    · cases hg : (s.family kc key .hashData).get f with
      | none =>
        rw [hg] at h
        cases h
        exact .nil hinv
      | some raw =>
        rw [hg] at h
        cases h
        have hq : HashQueue s kc key hm [] := ⟨hc, fun o ho => by cases ho⟩
        exact (hq.push (rmWeakData_onField kc key f) (hc.deleted hg)).commit
    · cases h
      exact .nil hinv

theorem hdelStep_queue {w : HashWork} (hst : Prefixed (s.family kc key .hashData))
    (hq : HashQueue s kc key w.hm w.ops)
    (hsame : (queuedFields s kc key w.ops).get f = (s.family kc key .hashData).get f) :
    HashQueue s kc key (hdelStep s kc key now w f).hm (hdelStep s kc key now w f).ops := by
  unfold hdelStep
  rw [hdelField_eq hq.counts.mode hst]
  cases hg : (s.family kc key .hashData).get f with
  | none => exact hq
  | some raw =>
    exact hq.push (rmWeakData_onField kc key f) (hq.counts.deleted (hsame.trans hg))

theorem hdelStep_frame (w : HashWork) {g : Bytes} (hne : g ≠ f) :
    (queuedFields s kc key (hdelStep s kc key now w f).ops).get g =
      (queuedFields s kc key w.ops).get g := by
  unfold hdelStep
  cases hdelField s kc key now w.hm f with
  | none => rfl
  | some r =>
    simp only [queuedFields_push (rmWeakData_onField kc key f), SortedMap.get_put,
      if_neg hne.symm]

theorem hdel_kept {a : ℕ} {fields : List Bytes} (hinv : HashInv s kc key)
    (h : hdel s kc key now fields = .ok (a, ops)) : HashKept s kc key ops := by
  unfold hdel at h
  split at h
  · cases h
    exact .nil hinv
  · exact hdelOneInternal_kept hinv h
  · obtain ⟨r, hget, h⟩ := bind_eq_ok h
    cases r with
    | none =>
      cases h
      exact .nil hinv
    | some hm =>
      obtain ⟨-, hc⟩ := getHashMeta_eq_some hinv hget
      simp only [bind, Except.bind] at h
      split_ifs at h with hsize hempty
      · cases h
        exact .nil hinv
      · cases h
        have hq : HashQueue s kc key hm [] := ⟨hc, fun o ho => by cases ho⟩
        refine HashQueue.commit (HashQueue.foldl HashWork.hm HashWork.ops id
          (hdelStep s kc key now) (fun _ => True) (s.family kc key .hashData)
          ?_ ?_ ?_ ?_ (w := ⟨hm, [], 0⟩) hq ?_ trivial)
        · exact fun w x hP => trivial
        · exact fun w x _ hw hsame _ => hdelStep_queue hc.stored hw hsame
        · exact fun w x g hne => hdelStep_frame w hne
        · rw [List.map_id]
          exact (keepFirst_nodup _ []).1
        · exact fun x _ => rfl
      · cases h
        exact .nil hinv

end Wedb
