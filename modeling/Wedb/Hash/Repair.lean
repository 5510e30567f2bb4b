import Wedb.Hash.Commands

/-!
# Recounting a hash

A length that cannot be read off the counters is found by a scan of the fields,
which removes the expired ones and counts the others anew. The recount makes the
transitions of a hash built from the fields that stay.
-/

namespace Wedb

variable {s : Store} {kc : KeyComposer} {key : Key} {hm : HashMeta} {now : UInt64}
  {U V : SortedMap Bytes Bytes} {f raw : Bytes} {w : HashWork}

theorem encodeHashValue_decodeHashValue (h : fieldExpirePrefixLen ≤ raw.length) :
    encodeHashValue (decodeHashValue raw).2 (fieldExpire raw) = raw := by
  have hlen : (raw.take fieldExpirePrefixLen).length = 8 := by
    rw [List.length_take, min_eq_left h]
    rfl
  rw [fieldExpire, decodeHashValue, if_pos h, encodeHashValue, readU64, slice, List.drop_zero]
  change (UInt64.fromBeBytes (raw.take fieldExpirePrefixLen)).toBeBytes ++ _ = raw
  rw [UInt64.toBeBytes_fromBeBytes hlen, List.take_append_drop]

theorem decodeFieldState_eq (hmode : hm.mode = .fieldExpiration)
    (hlen : fieldExpirePrefixLen ≤ raw.length) (now : UInt64) :
    decodeFieldState hm raw now = some ⟨if fieldExpire raw = 0 then .persistent
      else if isFieldExpired (fieldExpire raw) now then .expiredTTLPhysical else .liveTTL,
      fieldExpire raw, (decodeHashValue raw).2⟩ := by
  rw [decodeFieldState, HashMeta.decodeSubkeyValue_eq hmode hlen]
  rfl

/-- The counters of a recount: they are exact, and without a pending expiry the bounds are clear. -/
structure Recount (hm : HashMeta) (V : SortedMap Bytes Bytes) : Prop where
  counts : HashCounts hm V
  bounds : hm.base.size = hm.persist → hm.lower = 0 ∧ hm.upper = 0

namespace Recount

theorem start (hmode : hm.mode = .fieldExpiration) :
    Recount { hm.setSize 0 with persist := 0, lower := 0, upper := 0 } ∅ where
  counts := {
    mode := hmode
    size := rfl
    persist := rfl
    stored := fun f raw hg => by cases hg
    bounded := fun f raw hg => by cases hg
    lowerPos := fun hne => absurd rfl hne }
  bounds := fun _ => ⟨rfl, rfl⟩

theorem size_add_one (h : Recount hm V) (hroom : V.length + 1 < 2 ^ 64) :
    hm.base.size + 1 = hm.base.size.satAdd 1 := by
  have hone : (1 : UInt64).toNat = 1 := rfl
  rw [UInt64.satAdd, if_pos]
  rw [hone, ← h.counts.size]
  exact hroom

theorem persist_add_one (h : Recount hm V) (hroom : V.length + 1 < 2 ^ 64) :
    hm.persist + 1 = hm.persist.satAdd 1 := by
  have hone : (1 : UInt64).toNat = 1 := rfl
  have hle := V.countP_le_length isPersistent
  rw [UInt64.satAdd, if_pos]
  rw [hone, ← h.counts.persist]
  omega

theorem clearBounds_eq (h : hm.base.size = hm.persist → hm.lower = 0 ∧ hm.upper = 0) :
    hm.clearBoundsIfNoTtlCandidates = hm := by
  unfold HashMeta.clearBoundsIfNoTtlCandidates
  split_ifs with hc
  · simp only [Bool.and_eq_true, beq_iff_eq] at hc
    obtain ⟨hl, hu⟩ := h hc.2
    rw [← hl]
    nth_rewrite 2 [hl]
    rw [← hu]
  · rfl

theorem persistent (h : Recount hm V) (hg : V.get f = none) (he : fieldExpire raw = 0)
    (hlen : fieldExpirePrefixLen ≤ raw.length) (hroom : V.length + 1 < 2 ^ 64) :
    Recount { hm.setSize (hm.base.size + 1) with persist := hm.persist + 1 } (V.insert f raw) := by
  have hraw := encodeHashValue_decodeHashValue hlen
  rw [he] at hraw
  have hins := SortedMap.length_insert_of_get_none raw hg
  have hb : hm.base.size + 1 = hm.persist + 1 → hm.lower = 0 ∧ hm.upper = 0 := by
    intro heq
    exact h.bounds (UInt64.add_left_inj 1 |>.mp heq)
  have hsame : hm.applyMissingToPersistent =
      { hm.setSize (hm.base.size + 1) with persist := hm.persist + 1 } := by
    rw [h.size_add_one hroom, h.persist_add_one hroom, HashMeta.applyMissingToPersistent]
    have hmode : (hm.setSize (hm.base.size.satAdd 1)).isFieldExpirationEncoding = true :=
      h.counts.fieldExpiration_true
    simp only [hmode, if_true]
    rw [h.size_add_one hroom, h.persist_add_one hroom] at hb
    exact clearBounds_eq hb
  refine ⟨?_, hb⟩
  rw [← hsame, ← hraw]
  exact h.counts.missingToPersistent hg (by rw [hraw]; omega)

theorem live (h : Recount hm V) (hg : V.get f = none) (he : fieldExpire raw ≠ 0)
    (hlen : fieldExpirePrefixLen ≤ raw.length) (hroom : V.length + 1 < 2 ^ 64) :
    Recount { hm.setSize (hm.base.size + 1) with
      lower := if hm.lower == 0 || fieldExpire raw < hm.lower then fieldExpire raw else hm.lower
      upper := max hm.upper (fieldExpire raw) } (V.insert f raw) := by
  have hraw := encodeHashValue_decodeHashValue hlen
  have hins := SortedMap.length_insert_of_get_none raw hg
  have hne : hm.base.size + 1 ≠ hm.persist := by
    intro heq
    have hle := V.countP_le_length isPersistent
    have hs := h.counts.size
    have hp := h.counts.persist
    have hone : (1 : UInt64).toNat = 1 := rfl
    have h1 := congrArg UInt64.toNat heq
    rw [UInt64.toNat_add, hone, ← hs, Nat.mod_eq_of_lt hroom, ← hp] at h1
    omega
  have hsame : hm.applyMissingToTtl (fieldExpire raw) = { hm.setSize (hm.base.size + 1) with
      lower := if hm.lower == 0 || fieldExpire raw < hm.lower then fieldExpire raw else hm.lower
      upper := max hm.upper (fieldExpire raw) } := by
    rw [h.size_add_one hroom, HashMeta.applyMissingToTtl, HashMeta.expandExpireBounds]
    have hguard : (!hm.isFieldExpirationEncoding || fieldExpire raw == 0) = false := by
      simp [h.counts.fieldExpiration_true, he]
    simp only [hguard, Bool.false_eq_true, if_false, beq_iff_eq]
    by_cases heq : hm.base.size = hm.persist
    · obtain ⟨hl, hu⟩ := h.bounds heq
      simp [heq, hl, hu, HashMeta.setSize]
    · simp only [if_neg heq, HashMeta.setSize]
  refine ⟨?_, fun heq => absurd heq hne⟩
  rw [← hsame, ← hraw]
  nth_rewrite 1 [hraw]
  exact h.counts.missingToTtl hg he (by rw [hraw]; omega)

end Recount

/-- The scan so far: `V` holds what was counted and `rest` is still to come. -/
structure RepairState (s : Store) (kc : KeyComposer) (key : Key) (w : HashWork)
    (V : SortedMap Bytes Bytes) (rest : List (Bytes × Bytes)) : Prop where
  recount : Recount w.hm V
  onKey : ∀ o ∈ w.ops, o.LocalTo kc key
  fields : ∀ g, (queuedFields s kc key w.ops).get g =
    if g ∈ rest.map Prod.fst then (s.family kc key .hashData).get g else V.get g
  fresh : ∀ g ∈ rest.map Prod.fst, V.get g = none
  room : V.length + rest.length < 2 ^ 64

def repairField (kc : KeyComposer) (key : Key) (now : UInt64) (hm : HashMeta) (w : HashWork)
    (x : Bytes × Bytes) : HashWork :=
  repairEntry now hm w (keyForField kc key x.1, x.2)

variable (now) in
theorem repairField_state {x : Bytes × Bytes} {rest : List (Bytes × Bytes)}
    (h : RepairState s kc key w V (x :: rest)) (hmode : hm.mode = .fieldExpiration)
    (hx : (s.family kc key .hashData).get x.1 = some x.2)
    (hlen : fieldExpirePrefixLen ≤ x.2.length) (hnd : x.1 ∉ rest.map Prod.fst) :
    ∃ V', RepairState s kc key (repairField kc key now hm w x) V' rest := by
  have hnone := h.fresh x.1 (by simp)
  have hroom := h.room
  rw [List.length_cons] at hroom
  have hsplit : ∀ g, g ∈ (x :: rest).map Prod.fst ↔ x.1 = g ∨ g ∈ rest.map Prod.fst := by
    intro g
    rw [List.map_cons, List.mem_cons, eq_comm]
  have hkeep : ∀ w' : HashWork, w'.ops = w.ops → Recount w'.hm (V.insert x.1 x.2) →
      RepairState s kc key w' (V.insert x.1 x.2) rest := by
    intro w' hops hrec
    refine ⟨hrec, hops ▸ h.onKey, fun g => ?_, fun g hg => ?_, ?_⟩
    · rw [hops, h.fields g, SortedMap.get_insert]
      by_cases hxg : x.1 = g
      · subst hxg
        rw [if_pos ((hsplit _).mpr (Or.inl rfl)), if_neg hnd, if_pos rfl, hx]
      · simp only [hsplit, hxg, false_or, if_false]
    · have hxg : x.1 ≠ g := by
        rintro rfl
        exact hnd hg
      rw [SortedMap.get_insert_of_ne _ _ hxg]
      exact h.fresh g ((hsplit g).mpr (Or.inr hg))
    · rw [SortedMap.length_insert_of_get_none x.2 hnone]
      omega
  unfold repairField repairEntry
  rw [decodeFieldState_eq hmode hlen]
  by_cases he : fieldExpire x.2 = 0
  · simp only [if_pos he]
    exact ⟨_, hkeep _ rfl (h.recount.persistent hnone he hlen (by omega))⟩
  · by_cases hexp : isFieldExpired (fieldExpire x.2) now = true
    · simp only [if_neg he, if_pos hexp]
      have hrm : (WriteOp.rmData (keyForField kc key x.1)).OnField kc key x.1 := ⟨rfl, rfl⟩
      refine ⟨V, h.recount, ?_, fun g => ?_, fun g hg => ?_, by omega⟩
      · simp only [List.mem_append, List.mem_singleton]
        rintro o (ho | rfl)
        · exact h.onKey o ho
        · exact hrm.localTo
      · rw [queuedFields_push hrm, SortedMap.get_put, h.fields g]
        by_cases hxg : x.1 = g
        · subst hxg
          rw [if_pos rfl, if_neg hnd, hnone]
          rfl
        · simp only [hsplit, hxg, false_or, if_false]
      · exact h.fresh g ((hsplit g).mpr (Or.inr hg))
    · simp only [if_neg he, if_neg hexp]
      exact ⟨_, hkeep _ rfl (h.recount.live hnone he hlen (by omega))⟩

variable (now) in
theorem repairField_foldl {rest : List (Bytes × Bytes)} (h : RepairState s kc key w V rest)
    (hmode : hm.mode = .fieldExpiration)
    (hx : ∀ x ∈ rest, (s.family kc key .hashData).get x.1 = some x.2)
    (hst : Prefixed (s.family kc key .hashData)) (hnd : (rest.map Prod.fst).Nodup) :
    ∃ V', RepairState s kc key (rest.foldl (repairField kc key now hm) w) V' [] := by
  induction rest generalizing w V with
  | nil => exact ⟨V, h⟩
  | cons x rest ih =>
    rw [List.map_cons, List.nodup_cons] at hnd
    have hget := hx x (by simp)
    obtain ⟨V', h'⟩ := repairField_state now h hmode hget (hst x.1 x.2 hget) hnd.1
    exact ih h' (fun y hy => hx y (List.mem_cons_of_mem _ hy)) hnd.2

theorem scanAndRepairHash_kept {a : ℕ} {ops : Batch} (hfits : s.Fits)
    (hc : HashCounts hm (s.family kc key .hashData))
    (h : scanAndRepairHash s kc key now hm = .ok (a, ops)) : HashKept s kc key ops := by
  unfold scanAndRepairHash at h
  simp only [SortedMap.prefixed_eq_map_under, List.foldl_map] at h
  cases h
  have hnodup : ((s.family kc key .hashData).entries.map Prod.fst).Nodup := by
    rw [List.Nodup, List.pairwise_map]
    exact (s.family kc key .hashData).sorted.imp fun hlt => hlt.ne
  have hstart : RepairState s kc key
      ⟨{ hm.setSize 0 with persist := 0, lower := 0, upper := 0 }, [], 0⟩ ∅
      (s.family kc key .hashData).entries := by
    refine ⟨.start hc.mode, List.forall_mem_nil _, fun g => ?_, fun g _ => rfl, ?_⟩
    · rw [queuedFields_nil]
      split_ifs with hg
      · rfl
      · rw [SortedMap.get_empty, ← Option.not_isSome_iff_eq_none, Option.isSome_iff_exists,
          ← SortedMap.mem_keys]
        exact hg
    · exact (Nat.zero_add _).trans_lt (hfits.length_family_lt kc key .hashData)
  obtain ⟨V, hend⟩ := repairField_foldl now hstart hc.mode
    (fun x hx => SortedMap.get_of_mem hx) hc.stored hnodup
  refine HashQueue.commit ⟨?_, hend.onKey⟩
  have hV : queuedFields s kc key _ = V := SortedMap.ext_get fun g => by simpa using hend.fields g
  have hcounts := hend.recount.counts
  rw [← hV] at hcounts
  exact hcounts

theorem hlenWithMode_kept {a : ℕ} {ops : Batch} {mode : HashLengthMode} (hfits : s.Fits)
    (hinv : HashInv s kc key) (h : hlenWithMode s kc key now mode = .ok (a, ops)) :
    HashKept s kc key ops := by
  unfold hlenWithMode at h
  obtain ⟨r, hget, h⟩ := bind_eq_ok h
  cases r with
  | none =>
    cases h
    exact .nil hinv
  | some hm =>
    obtain ⟨-, hc⟩ := getHashMeta_eq_some hinv hget
    simp only [bind, Except.bind] at h
    split_ifs at h
    · cases h
      exact .nil hinv
    · exact scanAndRepairHash_kept hfits hc h
    · cases h
      exact .nil hinv
    · cases h
      exact .nil hinv
    · cases h
      exact HashKept.rmMeta (List.forall_mem_nil _)
    · exact scanAndRepairHash_kept hfits hc h

end Wedb
