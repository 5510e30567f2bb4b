import Wedb.Hash.Hfe

/-!
# The counters and the stored fields

The counters of a hash describe a map of stored fields when its size is the
number of fields, its persist count the number without an expiry, and its bounds
enclose every other expiry. Every transition keeps this when it is the one for
the state the field was in.
-/

namespace Wedb

def fieldExpire (raw : Bytes) : UInt64 := (decodeHashValue raw).1

@[simp] theorem fieldExpire_encode (val : Bytes) (e : UInt64) :
    fieldExpire (encodeHashValue val e) = e := by
  rw [fieldExpire, decodeHashValue_encodeHashValue]

theorem encodeHashValue_length (val : Bytes) (e : UInt64) :
    fieldExpirePrefixLen ≤ (encodeHashValue val e).length := by
  simp [encodeHashValue, fieldExpirePrefixLen]

def isPersistent (_ raw : Bytes) : Bool := fieldExpire raw == 0

/-- The bounds enclose every expiry in the map. -/
def Bounded (hm : HashMeta) (U : SortedMap Bytes Bytes) : Prop :=
  ∀ f raw, U.get f = some raw → fieldExpire raw ≠ 0 →
    hm.lower ≤ fieldExpire raw ∧ fieldExpire raw ≤ hm.upper

structure HashCounts (hm : HashMeta) (U : SortedMap Bytes Bytes) : Prop where
  mode : hm.mode = .fieldExpiration
  size : U.length = hm.base.size.toNat
  persist : U.countP isPersistent = hm.persist.toNat
  stored : ∀ f raw, U.get f = some raw → fieldExpirePrefixLen ≤ raw.length
  bounded : Bounded hm U
  lowerPos : hm.base.size ≠ hm.persist → hm.lower ≠ 0

namespace HashCounts
variable {hm : HashMeta} {U : SortedMap Bytes Bytes} {f val raw : Bytes} {e : UInt64}

theorem legacy_false (h : HashCounts hm U) : hm.isLegacySubkeyEncoding = false := by
  simp [HashMeta.isLegacySubkeyEncoding, h.mode]

theorem fieldExpiration_true (h : HashCounts hm U) : hm.isFieldExpirationEncoding = true := by
  simp [HashMeta.isFieldExpirationEncoding, h.mode]

theorem all_persistent (h : HashCounts hm U) (heq : hm.base.size = hm.persist)
    (hg : U.get f = some raw) : fieldExpire raw = 0 := by
  have hcount : U.countP isPersistent = U.length := by rw [h.persist, h.size, heq]
  simpa [isPersistent] using SortedMap.of_countP_eq_length hcount hg

theorem clearBounds (h : HashCounts hm U) : HashCounts hm.clearBoundsIfNoTtlCandidates U := by
  unfold HashMeta.clearBoundsIfNoTtlCandidates
  split_ifs with hc
  · simp only [Bool.and_eq_true, beq_iff_eq] at hc
    exact {
      mode := h.mode
      size := h.size
      persist := h.persist
      stored := h.stored
      bounded := fun f raw hg hne => absurd (h.all_persistent hc.2 hg) hne
      lowerPos := fun hne => absurd hc.2 hne }
  · exact h

theorem stored_insert (h : HashCounts hm U) (f val : Bytes) (e : UInt64) (g raw : Bytes)
    (hg : (U.insert f (encodeHashValue val e)).get g = some raw) :
    fieldExpirePrefixLen ≤ raw.length := by
  rw [SortedMap.get_insert] at hg
  split_ifs at hg with hfg
  · cases hg
    exact encodeHashValue_length val e
  · exact h.stored g raw hg

theorem stored_erase (h : HashCounts hm U) (f g raw : Bytes) (hg : (U.erase f).get g = some raw) :
    fieldExpirePrefixLen ≤ raw.length := by
  rw [SortedMap.get_erase] at hg
  split_ifs at hg with hfg
  exact h.stored g raw hg

theorem bounded_erase (h : HashCounts hm U) (f : Bytes) : Bounded hm (U.erase f) := by
  intro g raw hg hne
  rw [SortedMap.get_erase] at hg
  split_ifs at hg with hfg
  exact h.bounded g raw hg hne

theorem bounded_insert {hm' : HashMeta} (hb : Bounded hm' U)
    (he : e ≠ 0 → hm'.lower ≤ e ∧ e ≤ hm'.upper) (f val : Bytes) :
    Bounded hm' (U.insert f (encodeHashValue val e)) := by
  intro g raw hg hne
  rw [SortedMap.get_insert] at hg
  split_ifs at hg with hfg
  · cases hg
    rw [fieldExpire_encode] at hne ⊢
    exact he hne
  · exact hb g raw hg hne

theorem bounded_insert_persistent (h : HashCounts hm U) (f val : Bytes) :
    Bounded hm (U.insert f (encodeHashValue val 0)) :=
  bounded_insert h.bounded (fun hne => absurd rfl hne) f val

theorem expandExpireBounds_eq (h : HashCounts hm U) (he : e ≠ 0) :
    hm.expandExpireBounds e =
      if hm.base.size = hm.persist then { hm with lower := e, upper := e }
      else { hm with lower := min hm.lower e, upper := max hm.upper e } := by
  have hguard : (!hm.isFieldExpirationEncoding || e == 0) = false := by
    simp [h.fieldExpiration_true, he]
  simp only [HashMeta.expandExpireBounds, hguard, Bool.false_eq_true, if_false, beq_iff_eq]
  by_cases heq : hm.base.size = hm.persist
  · simp only [if_pos heq]
  · have hpos := h.lowerPos heq
    have hif : (if (hm.lower == 0 || decide (e < hm.lower)) = true then e else hm.lower) =
        min hm.lower e := by
      rw [UInt64.min_def]
      by_cases hlt : e < hm.lower
      · simp [hlt, not_le.mpr hlt]
      · simp [hlt, hpos, not_lt.mp hlt]
    simp only [if_neg heq, hif]

theorem expand (h : HashCounts hm U) (he : e ≠ 0) :
    (hm.expandExpireBounds e).base = hm.base ∧ (hm.expandExpireBounds e).persist = hm.persist ∧
      (hm.expandExpireBounds e).mode = hm.mode ∧ (hm.expandExpireBounds e).lower ≠ 0 ∧
      ∀ f val, Bounded (hm.expandExpireBounds e) (U.insert f (encodeHashValue val e)) := by
  rw [h.expandExpireBounds_eq he]
  by_cases heq : hm.base.size = hm.persist
  · simp only [if_pos heq, true_and]
    refine ⟨he, bounded_insert ?_ fun _ => ⟨le_rfl, le_rfl⟩⟩
    exact fun g raw hg hne => absurd (h.all_persistent heq hg) hne
  · have hpos := h.lowerPos heq
    have hmin : min hm.lower e ≤ hm.lower ∧ min hm.lower e ≤ e ∧ min hm.lower e ≠ 0 := by
      rw [UInt64.min_def]
      split_ifs with hle
      · exact ⟨le_rfl, hle, hpos⟩
      · exact ⟨(not_le.mp hle).le, le_rfl, he⟩
    have hmax : hm.upper ≤ max hm.upper e ∧ e ≤ max hm.upper e := by
      rw [UInt64.max_def]
      split_ifs with hle
      · exact ⟨hle, le_rfl⟩
      · exact ⟨le_rfl, (not_le.mp hle).le⟩
    simp only [if_neg heq, true_and]
    refine ⟨hmin.2.2, bounded_insert ?_ fun _ => ⟨hmin.2.1, hmax.2⟩⟩
    intro g raw hg hne
    obtain ⟨hl, hu⟩ := h.bounded g raw hg hne
    exact ⟨hmin.1.trans hl, hu.trans hmax.1⟩

theorem fresh (version : UInt64) : HashCounts (.newWithVersion 0 0 version) ∅ where
  mode := rfl
  size := rfl
  persist := rfl
  stored := fun f raw hg => by cases hg
  bounded := fun f raw hg => by cases hg
  lowerPos := fun hne => absurd rfl hne

theorem missingToPersistent (h : HashCounts hm U) (hg : U.get f = none)
    (hlt : (U.insert f (encodeHashValue val 0)).length < 2 ^ 64) :
    HashCounts hm.applyMissingToPersistent (U.insert f (encodeHashValue val 0)) := by
  have hlen := SortedMap.length_insert_of_get_none (encodeHashValue val 0) hg
  have hcount := SortedMap.countP_insert_of_get_none isPersistent (encodeHashValue val 0) hg
  have hle := U.countP_le_length isPersistent
  have hsize := h.size
  have hpersist := h.persist
  have hone : (1 : UInt64).toNat = 1 := rfl
  have hs1 : (hm.base.size.satAdd 1).toNat = hm.base.size.toNat + 1 :=
    UInt64.toNat_satAdd (by omega)
  have hp1 : (hm.persist.satAdd 1).toNat = hm.persist.toNat + 1 :=
    UInt64.toNat_satAdd (by omega)
  have hmode : (hm.setSize (hm.base.size.satAdd 1)).isFieldExpirationEncoding = true :=
    h.fieldExpiration_true
  rw [HashMeta.applyMissingToPersistent]
  simp only [hmode, if_true]
  refine HashCounts.clearBounds ?_
  exact {
    mode := h.mode
    size := by rw [hlen, hsize]; exact hs1.symm
    persist := by
      rw [hcount, hpersist]
      simpa [isPersistent, HashMeta.setSize] using hp1.symm
    stored := h.stored_insert f val 0
    bounded := h.bounded_insert_persistent f val
    lowerPos := fun hne => h.lowerPos fun heq => hne (by simp [HashMeta.setSize, heq]) }

theorem missingToTtl (h : HashCounts hm U) (hg : U.get f = none) (he : e ≠ 0)
    (hlt : (U.insert f (encodeHashValue val e)).length < 2 ^ 64) :
    HashCounts (hm.applyMissingToTtl e) (U.insert f (encodeHashValue val e)) := by
  have hlen := SortedMap.length_insert_of_get_none (encodeHashValue val e) hg
  have hcount := SortedMap.countP_insert_of_get_none isPersistent (encodeHashValue val e) hg
  have hsize := h.size
  have hone : (1 : UInt64).toNat = 1 := rfl
  obtain ⟨hbase, hpersist, hmode, hlower, hbound⟩ := h.expand he
  have hs1 : (hm.base.size.satAdd 1).toNat = hm.base.size.toNat + 1 :=
    UInt64.toNat_satAdd (by omega)
  exact {
    mode := hmode.trans h.mode
    size := by
      rw [hlen, hsize]
      simpa [HashMeta.applyMissingToTtl, HashMeta.setSize, hbase] using hs1.symm
    persist := by
      rw [hcount, h.persist]
      simp [HashMeta.applyMissingToTtl, HashMeta.setSize, hpersist, isPersistent, he]
    stored := h.stored_insert f val e
    bounded := hbound f val
    lowerPos := fun _ => hlower }

theorem persistentToTtl (h : HashCounts hm U) (hg : U.get f = some raw)
    (hraw : fieldExpire raw = 0) (he : e ≠ 0) :
    HashCounts (hm.applyPersistentToTtl e) (U.insert f (encodeHashValue val e)) := by
  have hlen := SortedMap.length_insert_of_get_some (b := encodeHashValue val e) hg
  have hcount := SortedMap.countP_insert_of_get_some isPersistent (b := encodeHashValue val e) hg
  have hone : (1 : UInt64).toNat = 1 := rfl
  obtain ⟨hbase, hpersist, hmode, hlower, hbound⟩ := h.expand he
  exact {
    mode := hmode.trans h.mode
    size := by rw [hlen, h.size, ← hbase]; rfl
    persist := by
      simp only [isPersistent, hraw, fieldExpire_encode, beq_self_eq_true, if_true, beq_iff_eq, he,
        if_false] at hcount
      have hp := h.persist
      simp only [HashMeta.applyPersistentToTtl, hpersist, UInt64.toNat_satSub, hone]
      omega
    stored := h.stored_insert f val e
    bounded := hbound f val
    lowerPos := fun _ => hlower }

theorem ttlToTtl (h : HashCounts hm U) (hg : U.get f = some raw) (hraw : fieldExpire raw ≠ 0)
    (he : e ≠ 0) : HashCounts (hm.applyTtlToTtl e) (U.insert f (encodeHashValue val e)) := by
  have hlen := SortedMap.length_insert_of_get_some (b := encodeHashValue val e) hg
  have hcount := SortedMap.countP_insert_of_get_some isPersistent (b := encodeHashValue val e) hg
  obtain ⟨hbase, hpersist, hmode, hlower, hbound⟩ := h.expand he
  exact {
    mode := hmode.trans h.mode
    size := by rw [hlen, h.size, ← hbase]; rfl
    persist := by
      simp only [isPersistent, hraw, fieldExpire_encode, beq_iff_eq, he, if_false,
        Nat.add_zero] at hcount
      have hp := h.persist
      rw [hcount, hp, ← hpersist]
      rfl
    stored := h.stored_insert f val e
    bounded := hbound f val
    lowerPos := fun _ => hlower }

theorem ttlToPersistent (h : HashCounts hm U) (hg : U.get f = some raw)
    (hraw : fieldExpire raw ≠ 0) :
    HashCounts hm.applyTtlToPersistent (U.insert f (encodeHashValue val 0)) := by
  have hlen := SortedMap.length_insert_of_get_some (b := encodeHashValue val 0) hg
  have hcount := SortedMap.countP_insert_of_get_some isPersistent (b := encodeHashValue val 0) hg
  have hle := (U.insert f (encodeHashValue val 0)).countP_le_length isPersistent
  have hone : (1 : UInt64).toNat = 1 := rfl
  have hlt := hm.base.size.toNat_lt
  have hp := h.persist
  have hs := h.size
  simp only [isPersistent, hraw, fieldExpire_encode, beq_self_eq_true, if_true, beq_iff_eq,
    if_false, Nat.add_zero] at hcount
  have hp1 : (hm.persist.satAdd 1).toNat = hm.persist.toNat + 1 :=
    UInt64.toNat_satAdd (by omega)
  have hmin : (min (hm.persist.satAdd 1) hm.base.size).toNat = hm.persist.toNat + 1 := by
    rw [UInt64.toNat_min, hp1]
    omega
  refine HashCounts.clearBounds ?_
  exact {
    mode := h.mode
    size := by rw [hlen, hs]
    persist := by
      simp only [hmin]
      omega
    stored := h.stored_insert f val 0
    bounded := h.bounded_insert_persistent f val
    lowerPos := fun _ => h.lowerPos fun heq => hraw (h.all_persistent heq hg) }

theorem keepExpire (h : HashCounts hm U) (hg : U.get f = some raw) (hraw : fieldExpire raw = e) :
    HashCounts hm (U.insert f (encodeHashValue val e)) := by
  have hlen := SortedMap.length_insert_of_get_some (b := encodeHashValue val e) hg
  have hcount := SortedMap.countP_insert_of_get_some isPersistent (b := encodeHashValue val e) hg
  have hsame : isPersistent f (encodeHashValue val e) = isPersistent f raw := by
    rw [isPersistent, isPersistent, fieldExpire_encode, hraw]
  rw [hsame] at hcount
  exact {
    mode := h.mode
    size := by rw [hlen, h.size]
    persist := by
      rw [← h.persist]
      omega
    stored := h.stored_insert f val e
    bounded := bounded_insert h.bounded (fun hne => hraw ▸ h.bounded f raw hg (hraw ▸ hne)) f val
    lowerPos := h.lowerPos }

theorem persistentToDeleted (h : HashCounts hm U) (hg : U.get f = some raw)
    (hraw : fieldExpire raw = 0) : HashCounts hm.applyPersistentToDeleted (U.erase f) := by
  have hlen := SortedMap.length_erase_of_get_some hg
  have hcount := SortedMap.countP_erase_of_get_some isPersistent hg
  have hone : (1 : UInt64).toNat = 1 := rfl
  have hp := h.persist
  have hs := h.size
  simp only [isPersistent, hraw, beq_self_eq_true, if_true] at hcount
  refine HashCounts.clearBounds ?_
  exact {
    mode := h.mode
    size := by
      simp only [HashMeta.setSize, UInt64.toNat_satSub, hone]
      omega
    persist := by
      simp only [HashMeta.setSize, UInt64.toNat_satSub, hone]
      omega
    stored := h.stored_erase f
    bounded := h.bounded_erase f
    lowerPos := fun hne => h.lowerPos fun heq => hne (by simp [HashMeta.setSize, heq]) }

theorem ttlToDeleted (h : HashCounts hm U) (hg : U.get f = some raw)
    (hraw : fieldExpire raw ≠ 0) : HashCounts hm.applyTtlToDeleted (U.erase f) := by
  have hlen := SortedMap.length_erase_of_get_some hg
  have hcount := SortedMap.countP_erase_of_get_some isPersistent hg
  have hle := (U.erase f).countP_le_length isPersistent
  have hone : (1 : UInt64).toNat = 1 := rfl
  have hp := h.persist
  have hs := h.size
  simp only [isPersistent, hraw, beq_iff_eq, if_false, Nat.add_zero] at hcount
  have hnot : ¬(hm.setSize (hm.base.size.satSub 1)).persist >
      (hm.setSize (hm.base.size.satSub 1)).base.size := by
    rw [gt_iff_lt, UInt64.lt_iff_toNat_lt]
    simp only [HashMeta.setSize, UInt64.toNat_satSub, hone]
    omega
  rw [HashMeta.applyTtlToDeleted]
  simp only [if_neg hnot]
  refine HashCounts.clearBounds ?_
  exact {
    mode := h.mode
    size := by
      simp only [HashMeta.setSize, UInt64.toNat_satSub, hone]
      omega
    persist := by
      simp only [HashMeta.setSize]
      omega
    stored := h.stored_erase f
    bounded := h.bounded_erase f
    lowerPos := fun _ => h.lowerPos fun heq => hraw (h.all_persistent heq hg) }

end HashCounts

end Wedb
