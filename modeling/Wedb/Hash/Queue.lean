import Wedb.Hash.Counts

/-!
# Queued field writes

A command that works on a hash keeps its counters in step with the stored fields
as its queue would leave them. A loaded state says what is stored for a field
until a write to the field is queued. The metadata written at the end then
counts the fields of the committed store.
-/

namespace Wedb

/-- What the state of a field says about the stored fields. -/
inductive EntryMatches (U : SortedMap Bytes Bytes) (f : Bytes) : CachedFieldState → Prop
  | missing : U.get f = none → EntryMatches U f .missing
  | persistent {raw r : Bytes} : U.get f = some raw → fieldExpire raw = 0 →
      fieldExpirePrefixLen ≤ r.length → EntryMatches U f ⟨.persistent, 0, some r⟩
  | ttl {kind : HashFieldStateKind} {raw r : Bytes} :
      kind = .liveTTL ∨ kind = .expiredTTLPhysical → U.get f = some raw → fieldExpire raw ≠ 0 →
      fieldExpirePrefixLen ≤ r.length → EntryMatches U f ⟨kind, fieldExpire raw, some r⟩

/-- Every stored field has an expiry in front of its value. -/
def Prefixed (U : SortedMap Bytes Bytes) : Prop :=
  ∀ f raw, U.get f = some raw → fieldExpirePrefixLen ≤ raw.length

section
variable {U V : SortedMap Bytes Bytes} {hm : HashMeta} {f raw val : Bytes}
  {entry : CachedFieldState} {now : UInt64}

theorem EntryMatches.congr (h : EntryMatches U f entry) (hUV : V.get f = U.get f) :
    EntryMatches V f entry := by
  cases h with
  | missing hg => exact .missing (hUV.trans hg)
  | persistent hg he hlen => exact .persistent (hUV.trans hg) he hlen
  | ttl hk hg he hlen => exact .ttl hk (hUV.trans hg) he hlen

theorem HashMeta.decodeSubkeyValue_eq (hmode : hm.mode = .fieldExpiration)
    (hlen : fieldExpirePrefixLen ≤ raw.length) :
    hm.decodeSubkeyValue raw = some (decodeHashValue raw) := by
  have hleg : hm.isLegacySubkeyEncoding = false := by
    rw [isLegacySubkeyEncoding, hmode]
    rfl
  rw [decodeSubkeyValue, hleg, if_neg Bool.false_ne_true, if_neg (not_lt.mpr hlen)]

theorem HashMeta.encodeSubkeyValue_eq (hmode : hm.mode = .fieldExpiration) (val : Bytes)
    (e : UInt64) : hm.encodeSubkeyValue val e = encodeHashValue val e := by
  have hleg : hm.isLegacySubkeyEncoding = false := by
    rw [isLegacySubkeyEncoding, hmode]
    rfl
  rw [encodeSubkeyValue, hleg, if_neg Bool.false_ne_true]

namespace HashCounts

theorem encodeSubkeyValue (h : HashCounts hm U) (val : Bytes) (e : UInt64) :
    hm.encodeSubkeyValue val e = encodeHashValue val e :=
  HashMeta.encodeSubkeyValue_eq h.mode val e

theorem size_ne_zero (h : HashCounts hm U) (hg : U.get f = some raw) : hm.base.size ≠ 0 := by
  intro h0
  have hpos := SortedMap.length_pos hg
  rw [h.size, h0] at hpos
  exact absurd hpos (by decide)

theorem applyFieldState (h : HashCounts hm U) (he : EntryMatches U f entry)
    (hlt : (U.insert f (encodeHashValue val 0)).length < 2 ^ 64) :
    HashCounts (applyFieldStateToMeta hm entry.kind).1 (U.insert f (encodeHashValue val 0)) := by
  cases he with
  | missing hg => exact h.missingToPersistent hg hlt
  | persistent hg he hlen => exact h.keepExpire hg he
  | ttl hk hg he hlen =>
    rcases hk with rfl | rfl
    · exact h.ttlToPersistent hg he
    · exact h.ttlToPersistent hg he

theorem removeField (h : HashCounts hm U) (he : EntryMatches U f entry)
    (hne : entry.kind ≠ .missing) : HashCounts (removeFieldMeta hm entry.kind) (U.erase f) := by
  cases he with
  | missing hg => exact absurd rfl hne
  | persistent hg he hlen => exact h.persistentToDeleted hg he
  | ttl hk hg he hlen =>
    rcases hk with rfl | rfl
    · exact h.ttlToDeleted hg he
    · exact h.ttlToDeleted hg he

theorem deleted (h : HashCounts hm U) (hg : U.get f = some raw) :
    HashCounts (if fieldExpire raw = 0 then hm.applyPersistentToDeleted else hm.applyTtlToDeleted)
      (U.erase f) := by
  split_ifs with h0
  · exact h.persistentToDeleted hg h0
  · exact h.ttlToDeleted hg h0

end HashCounts

end

section
variable {s : Store} {kc : KeyComposer} {key : Key} {hm : HashMeta} {ops : Batch} {now : UInt64}
  {f : Bytes} {o : WriteOp}

theorem keyForField_eq_phys (kc : KeyComposer) (key : Key) (f : Bytes) :
    keyForField kc key f = Addr.phys ⟨kc, key, .sub .hashData f⟩ :=
  (Addr.phys_sub kc key .hashData f).symm

theorem get_keyForField (s : Store) (kc : KeyComposer) (key : Key) (f : Bytes) :
    s.data.get (keyForField kc key f) = (s.family kc key .hashData).get f := by
  rw [Store.get_family, keyForField_eq_phys]
  rfl

theorem loadFieldState_matches (hmode : hm.mode = .fieldExpiration)
    (hst : Prefixed (s.family kc key .hashData)) (f : Bytes) (now : UInt64) :
    EntryMatches (s.family kc key .hashData) f (loadFieldState s kc key now hm f) := by
  rw [loadFieldState, get_keyForField]
  cases hg : (s.family kc key .hashData).get f with
  | none => exact .missing hg
  | some raw =>
    have hlen := hst f raw hg
    simp only [decodeFieldState, HashMeta.decodeSubkeyValue_eq hmode hlen, Option.map_some]
    by_cases he : (decodeHashValue raw).1 = 0
    · rw [if_pos he, he]
      exact .persistent hg he hlen
    · rw [if_neg he]
      split_ifs
      · exact .ttl (Or.inr rfl) hg he hlen
      · exact .ttl (Or.inl rfl) hg he hlen

/-- The operation writes the slot of one field. -/
def WriteOp.OnField (kc : KeyComposer) (key : Key) (f : Bytes) (o : WriteOp) : Prop :=
  o.partition = .data ∧ o.key = keyForField kc key f

theorem WriteOp.OnField.localTo (h : o.OnField kc key f) : o.LocalTo kc key :=
  ⟨.sub .hashData f, rfl, h.1.symm, (keyForField_eq_phys kc key f).symm.trans h.2.symm⟩

theorem family_apply_onField (h : o.OnField kc key f) (s : Store) (ops : Batch) :
    (s.apply (ops ++ [o])).family kc key .hashData =
      ((s.apply ops).family kc key .hashData).put f o.value := by
  rw [Store.apply_append, Store.apply_cons, Store.apply_nil]
  exact Store.family_applyOp h.1 (h.2.trans (keyForField_eq_phys kc key f))

/-- The counters follow the stored fields as the queue would leave them. -/
structure HashQueue (s : Store) (kc : KeyComposer) (key : Key) (hm : HashMeta) (ops : Batch) :
    Prop where
  counts : HashCounts hm ((s.apply ops).family kc key .hashData)
  onKey : ∀ o ∈ ops, o.LocalTo kc key

/-- Stored metadata counts the fields stored with it, and there are some. -/
def HashInv (s : Store) (kc : KeyComposer) (key : Key) : Prop :=
  ∀ v, s.metadata.get (composeHashMetaKey kc key) = some v →
    ∃ hm : HashMeta, v = hm.encode ∧ hm.base.size ≠ 0 ∧ HashCounts hm (s.family kc key .hashData)

/-- What a command on a hash may queue. -/
structure HashKept (s : Store) (kc : KeyComposer) (key : Key) (ops : Batch) : Prop where
  onKey : ∀ o ∈ ops, o.LocalTo kc key
  inv : HashInv (s.apply ops) kc key

theorem HashKept.nil (h : HashInv s kc key) : HashKept s kc key [] where
  onKey := fun o ho => by cases ho
  inv := h

theorem composeHashMetaKey_local {o : WriteOp} (hp : o.partition = .metadata)
    (hk : o.key = composeHashMetaKey kc key) : o.LocalTo kc key :=
  ⟨.metadata .hashMeta, rfl, hp.symm, hk.symm⟩

theorem HashKept.rmMeta (h : ∀ o ∈ ops, o.LocalTo kc key) :
    HashKept s kc key (ops ++ [.rmMeta (composeHashMetaKey kc key)]) where
  onKey := by
    simp only [List.mem_append, List.mem_singleton]
    rintro o (ho | rfl)
    · exact h o ho
    · exact composeHashMetaKey_local rfl rfl
  inv := fun v hv => by simp at hv

namespace HashQueue

theorem push (h : HashQueue s kc key hm ops) (ho : o.OnField kc key f) {hm' : HashMeta}
    (hc : HashCounts hm' (((s.apply ops).family kc key .hashData).put f o.value)) :
    HashQueue s kc key hm' (ops ++ [o]) where
  counts := by rwa [family_apply_onField ho]
  onKey := by
    simp only [List.mem_append, List.mem_singleton]
    rintro x (hx | rfl)
    · exact h.onKey x hx
    · exact ho.localTo

theorem insertMeta (h : HashQueue s kc key hm ops) (h0 : hm.base.size ≠ 0) :
    HashKept s kc key (ops ++ [.insertMeta (composeHashMetaKey kc key) hm.encode]) where
  onKey := by
    simp only [List.mem_append, List.mem_singleton]
    rintro o (ho | rfl)
    · exact h.onKey o ho
    · exact composeHashMetaKey_local rfl rfl
  inv := by
    intro v hv
    rw [Store.apply_append, Store.apply_cons, Store.apply_nil, Store.applyOp_insertMeta,
      SortedMap.get_insert_self, Option.some.injEq] at hv
    refine ⟨hm, hv.symm, h0, ?_⟩
    rw [Store.apply_append, Store.apply_cons, Store.apply_nil, Store.family_applyOp_of_metadata rfl]
    exact h.counts

theorem clearBounds (h : HashQueue s kc key hm ops) :
    HashQueue s kc key hm.clearBoundsIfNoTtlCandidates ops :=
  ⟨h.counts.clearBounds, h.onKey⟩

theorem commit (h : HashQueue s kc key hm ops) :
    HashKept s kc key (ops ++ commitHashMetaOrRm (composeHashMetaKey kc key) hm) := by
  unfold commitHashMetaOrRm
  split_ifs with h0
  · exact .rmMeta h.onKey
  · refine h.clearBounds.insertMeta ?_
    unfold HashMeta.clearBoundsIfNoTtlCandidates
    split_ifs
    · exact h0
    · exact h0

end HashQueue

/-! ## The metadata a command starts from -/

theorem getHashMeta_eq_some {now : UInt64} (hinv : HashInv s kc key)
    (h : getHashMeta s kc key now = .ok (some hm)) :
    hm.base.size ≠ 0 ∧ HashCounts hm (s.family kc key .hashData) := by
  unfold getHashMeta getMetaChecked at h
  split_ifs at h with hstr
  cases hget : s.metadata.get (composeHashMetaKey kc key) with
  | none =>
    simp only [hget, Option.bind_none] at h
    cases hck : checkCompositeMetaNotOtherType s kc key now (MetaOps.tag HashMeta) with
    | error err => rw [hck] at h; cases h
    | ok u => rw [hck] at h; cases h
  | some v =>
    obtain ⟨m, rfl, h0, hc⟩ := hinv v hget
    have hdec : MetaOps.decode (M := HashMeta) m.encode = some m := HashMeta.decode_encode hc.mode
    simp only [hget, Option.bind_some, hdec] at h
    split_ifs at h with hexp
    · cases hck : checkCompositeMetaNotOtherType s kc key now (MetaOps.tag HashMeta) with
      | error err => rw [hck] at h; cases h
      | ok u => rw [hck] at h; cases h
    · cases h
      exact ⟨h0, hc⟩

/-- What a writing command starts from: live metadata, or a fresh hash without fields. -/
inductive WriteStart (s : Store) (kc : KeyComposer) (key : Key) (hm : HashMeta) :
    Bool → Batch → Prop
  | live : HashCounts hm (s.family kc key .hashData) → WriteStart s kc key hm true []
  | fresh {ops : Batch} : HashQueue s kc key hm ops → (s.apply ops).family kc key .hashData = ∅ →
      WriteStart s kc key hm false ops

theorem WriteStart.queue {existed : Bool} (h : WriteStart s kc key hm existed ops) :
    HashQueue s kc key hm ops := by
  cases h with
  | live hc => exact ⟨hc, fun o ho => by cases ho⟩
  | fresh hq he => exact hq

theorem prepareHashMetaForWrite_start {now version : UInt64} {existed : Bool}
    (hinv : HashInv s kc key)
    (h : prepareHashMetaForWrite s kc key now version = .ok (hm, existed, ops)) :
    WriteStart s kc key hm existed ops := by
  unfold prepareHashMetaForWrite at h
  obtain ⟨r, hget, h⟩ := bind_eq_ok h
  cases r with
  | some m =>
    cases h
    exact .live (getHashMeta_eq_some hinv hget).2
  | none =>
    cases h
    have hempty := @Store.family_apply_clear s s kc key .hashData rfl fun _ hnone => hnone
    refine .fresh ⟨?_, fun o ho => localTo_clearPrefix rfl ho⟩ hempty
    exact hempty ▸ HashCounts.fresh version

end

end Wedb
