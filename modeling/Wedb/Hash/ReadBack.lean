import Wedb.Hash.Hfe

/-!
# Reading fields back

HGET and the TTL queries read a field through the metadata of its hash, which turns a
query away when all expiries have passed and no field is persistent. Metadata written
by a batch is read back with the field written before it.
-/

namespace Wedb

section
variable (s : Store) (kc : KeyComposer) (key : Key) (nowMs : UInt64)

def hget (field : Bytes) : Except Error (Option Bytes) := do
  match ← getHashMeta s kc key nowMs with
  | some hm =>
    if hm.base.size > 0 then
      if hm.upper ≠ 0 ∧ nowMs > hm.upper ∧ hm.persist = 0 then return none
      else
        return ((s.data.get (keyForField kc key field)).bind fun raw =>
          hm.decodeLiveSubkeyValue raw nowMs).map Prod.snd
    else return none
  | none => return none

def evaluateFieldTtl (hm : HashMeta) (rawOpt : Option Bytes) (mapLiveTtl : UInt64 → UInt64 → ℤ) : ℤ :=
  match rawOpt with
  | none => hashFieldNotFound
  | some raw =>
    match decodeFieldState hm raw nowMs with
    | none => hashFieldNotFound
    | some state =>
      match state.kind with
      | .missing | .expiredTTLPhysical => hashFieldNotFound
      | .persistent => hashFieldPersistent
      | .liveTTL => mapLiveTtl state.expire nowMs

def queryFieldExpireInfoOne (field : Bytes) (mapLiveTtl : UInt64 → UInt64 → ℤ) : Except Error ℤ := do
  match ← getLiveHfeMeta s kc key nowMs with
  | some hm =>
    return evaluateFieldTtl nowMs hm (s.data.get (keyForField kc key field)) mapLiveTtl
  | none => return hashFieldNotFound

end

/-! ## Written metadata -/

section
variable {s : Store} {kc : KeyComposer} {key : Key} {now version exp : UInt64}
  {payload f : Bytes} {hm : HashMeta} {ops : Batch}

theorem HashMeta.decode_encode_any (m : HashMeta) :
    ∃ m', HashMeta.decode m.encode = some m' ∧ m'.base = m.base ∧ m'.mode = m.mode := by
  cases hmode : m.mode with
  | fieldExpiration => exact ⟨m, HashMeta.decode_encode hmode, rfl, hmode⟩
  | legacy =>
    have hencode : m.encode = m.base.encode := by
      rw [HashMeta.encode, isLegacySubkeyEncoding, hmode]
      exact List.append_nil _
    have hlen := m.base.encode_length
    have hlong : ¬m.base.encode.length < KeyMeta.kvrocksComplexEncodedSize := by
      rw [hlen]
      decide
    have hstd : m.base.encode.length ≥ KeyMeta.encodedSize ∧ m.base.encode.headD 0 ≤ 14 :=
      ⟨hlen.ge, m.base.rtype.asU8_le⟩
    have hrest : m.base.encode.drop KeyMeta.encodedSize = [] :=
      List.drop_of_length_le hlen.le
    refine ⟨⟨m.base, .legacy, m.base.size, 0, 0⟩, ?_, rfl, rfl⟩
    simp only [hencode, HashMeta.decode, if_neg hlong, KeyMeta.decode_encode, Option.bind_eq_bind,
      Option.bind_some, if_pos hstd, hrest]
    rfl

/-- The counters a write leaves: the header apart from the size, and the encoding. -/
structure HashMeta.Counted (hm hm' : HashMeta) : Prop where
  mode : hm'.mode = hm.mode
  size : hm'.base.size = hm.base.size ∨ hm'.base.size ≠ 0
  rest : { hm'.base with size := hm.base.size } = hm.base

theorem HashMeta.Counted.refl (hm : HashMeta) : HashMeta.Counted hm hm := ⟨rfl, Or.inl rfl, rfl⟩

theorem HashMeta.clearBounds_base (hm : HashMeta) :
    hm.clearBoundsIfNoTtlCandidates.base = hm.base ∧ hm.clearBoundsIfNoTtlCandidates.mode = hm.mode := by
  rw [clearBoundsIfNoTtlCandidates]
  split_ifs <;> exact ⟨rfl, rfl⟩

theorem HashMeta.counted_missing (hm : HashMeta) : HashMeta.Counted hm hm.applyMissingToPersistent := by
  rw [applyMissingToPersistent]
  split_ifs
  · have hclear := clearBounds_base { hm.setSize (hm.base.size.satAdd 1) with
      persist := (hm.setSize (hm.base.size.satAdd 1)).persist.satAdd 1 }
    refine ⟨hclear.2, Or.inr ?_, ?_⟩
    · rw [hclear.1]
      exact UInt64.satAdd_one_ne_zero hm.base.size
    · rw [hclear.1]
      rfl
  · exact ⟨rfl, Or.inr (UInt64.satAdd_one_ne_zero hm.base.size), rfl⟩

theorem HashMeta.counted_ttl (hm : HashMeta) : HashMeta.Counted hm hm.applyTtlToPersistent := by
  have hclear := clearBounds_base { hm with persist := min (hm.persist.satAdd 1) hm.base.size }
  rw [applyTtlToPersistent]
  refine ⟨hclear.2, Or.inl ?_, ?_⟩
  · rw [hclear.1]
  · rw [hclear.1]

theorem HashMeta.Counted.not_expired {hm hm' : HashMeta} (h : HashMeta.Counted hm hm')
    (hlive : hm.isExpired now = false) : hm'.isExpired now = false := by
  have hexp : hm'.base.expireAt = hm.base.expireAt := by
    rw [← h.rest]
  have htype : hm'.base.rtype = hm.base.rtype := by
    rw [← h.rest]
  rw [isExpired, KeyMeta.isExpired, KeyMeta.isEmptyableType] at hlive ⊢
  rw [htype, hexp]
  by_cases hdead : (!hm.base.rtype.isEmptyableType && hm.base.size == 0) = true
  · rw [if_pos hdead] at hlive
    cases hlive
  rw [if_neg hdead] at hlive
  rcases h.size with hsize | hsize
  · rw [hsize, if_neg hdead]
    exact hlive
  · rw [if_neg (by simp [hsize])]
    exact hlive

/-- A batch that ends with a field and its metadata stores both and leaves the string alone. -/
theorem get_of_field_batch {v w : Bytes} (hops : ∀ o ∈ ops, o.OwnedBy kc key .hashMeta) :
    (s.apply (ops ++ [.insertData (keyForField kc key f) v,
      .insertMeta (composeHashMetaKey kc key) w])).metadata.get (composeHashMetaKey kc key) = some w ∧
    (s.apply (ops ++ [.insertData (keyForField kc key f) v,
      .insertMeta (composeHashMetaKey kc key) w])).data.get (keyForField kc key f) = some v ∧
    liveString (s.apply (ops ++ [.insertData (keyForField kc key f) v,
      .insertMeta (composeHashMetaKey kc key) w])) kc key now = liveString s kc key now := by
  have hphys : keyForField kc key f = Addr.phys ⟨kc, key, .sub .hashData f⟩ :=
    (Addr.phys_sub kc key .hashData f).symm
  have hall : ∀ o ∈ ops ++ [WriteOp.insertData (keyForField kc key f) v,
      .insertMeta (composeHashMetaKey kc key) w], o.OwnedBy kc key .hashMeta := by
    intro o ho
    rcases List.mem_append.mp ho with ho | ho
    · exact hops o ho
    · rcases List.mem_cons.mp ho with rfl | ho
      · exact ownedBy_sub .hashData rfl rfl hphys
      · rw [List.mem_singleton.mp ho]
        exact ownedBy_metadata rfl rfl rfl
  refine ⟨?_, ?_, liveString_congr (str_at_apply_of_owned hall)⟩
  · rw [Store.apply_append, Store.apply_cons, Store.apply_cons, Store.apply_nil,
      Store.applyOp_insertMeta]
    exact SortedMap.get_insert_self _ _ _
  · rw [Store.apply_append, Store.apply_cons, Store.apply_cons, Store.apply_nil,
      Store.applyOp_insertMeta, Store.applyOp_insertData]
    exact SortedMap.get_insert_self _ _ _

theorem getHashMeta_of_get {v : Bytes} (hstr : (liveString s kc key now).isSome = false)
    (hget : s.metadata.get (composeHashMetaKey kc key) = some v) (hdec : HashMeta.decode v = some hm)
    (hlive : hm.isExpired now = false) : getHashMeta s kc key now = .ok (some hm) := by
  have hdec' : MetaOps.decode (M := HashMeta) v = some hm := hdec
  have hlive' : MetaOps.isExpired hm now = false := hlive
  rw [getHashMeta, getMetaChecked, hstr, hget]
  simp only [Bool.false_eq_true, if_false, Option.bind_some, hdec', hlive']

theorem field_written {hm' : HashMeta} (hops : ∀ o ∈ ops, o.OwnedBy kc key .hashMeta)
    (hstr : (liveString s kc key now).isSome = false) (hlive : hm'.isExpired now = false)
    (hexp : isFieldExpired exp now = false) (hmode : exp = 0 ∨ hm'.mode = .fieldExpiration) :
    ∃ m, getHashMeta (s.apply (ops ++ [.insertData (keyForField kc key f)
        (hm'.encodeSubkeyValue payload exp), .insertMeta (composeHashMetaKey kc key) hm'.encode]))
        kc key now = .ok (some m) ∧
      (((s.apply (ops ++ [.insertData (keyForField kc key f) (hm'.encodeSubkeyValue payload exp),
        .insertMeta (composeHashMetaKey kc key) hm'.encode])).data.get (keyForField kc key f)).bind
          fun raw => m.decodeLiveSubkeyValue raw now) = some (exp, payload) := by
  obtain ⟨m, hdec, hbase, hmmode⟩ := hm'.decode_encode_any
  obtain ⟨hmeta, hdata, hstr'⟩ := @get_of_field_batch s kc key now f ops
    (hm'.encodeSubkeyValue payload exp) hm'.encode hops
  have hmlive : m.isExpired now = false := by
    show m.base.isExpired now = false
    rw [hbase]
    exact hlive
  refine ⟨m, getHashMeta_of_get (hstr' ▸ hstr) hmeta hdec hmlive, ?_⟩
  rw [hdata, Option.bind_some, HashMeta.decodeLiveSubkeyValue, HashMeta.decodeSubkeyValue,
    HashMeta.isLegacySubkeyEncoding, hmmode, HashMeta.encodeSubkeyValue,
    HashMeta.isLegacySubkeyEncoding]
  cases hcase : hm'.mode with
  | legacy =>
    rcases hmode with rfl | hmode
    · rfl
    · rw [hcase] at hmode
      cases hmode
  | fieldExpiration =>
    have hlen : ¬(encodeHashValue payload exp).length < fieldExpirePrefixLen := by
      simp [encodeHashValue, fieldExpirePrefixLen]
    simp only [show ((HashSubkeyEncodingMode.fieldExpiration == .legacy) = false) from rfl,
      Bool.false_eq_true, if_false, if_neg hlen, decodeHashValue_encodeHashValue,
      Option.filter_some, hexp, Bool.not_false, if_true]

theorem getHashMeta_none_str (h : getHashMeta s kc key now = .ok none) :
    (liveString s kc key now).isSome = false := by
  by_contra hstr
  rw [Bool.not_eq_false] at hstr
  rw [getHashMeta, getMetaChecked, if_pos hstr] at h
  cases h

theorem HashMeta.newWithVersion_missing_live (version now : UInt64) :
    (HashMeta.newWithVersion 0 0 version).applyMissingToPersistent.isExpired now = false := by
  have hcount := HashMeta.counted_missing (newWithVersion 0 0 version)
  have hsize : (newWithVersion 0 0 version).applyMissingToPersistent.base.size = 1 := rfl
  have hexp : (newWithVersion 0 0 version).applyMissingToPersistent.base.expireAt = 0 :=
    congrArg KeyMeta.expireAt hcount.rest
  rw [isExpired, KeyMeta.isExpired, hsize, hexp]
  rw [if_neg (by simp)]
  rfl

end

end Wedb
