import Wedb.Key.Cleanup

/-!
# Subkey families

The subkeys of a key in one data family form a sorted map from suffixes to
values, and writes to the family's slots are writes to that map. The operations
of a command are local to its key and leave the slots of every other key alone.
A command reads the committed store and returns its reply with the writes it
queued; one that returns early queues none.
-/

namespace Wedb

namespace Store

def family (s : Store) (kc : KeyComposer) (key : Key) (tag : KeyTag) : SortedMap Bytes Bytes :=
  SortedMap.under (kc.composePrefixStack tag.asSlice key.bytes) s.data

section
variable {s t : Store} {kc : KeyComposer} {key : Key} {tag : KeyTag} {suffix v : Bytes}

theorem get_family (s : Store) (kc : KeyComposer) (key : Key) (tag : KeyTag) (suffix : Bytes) :
    (s.family kc key tag).get suffix = s.at ⟨kc, key, .sub tag suffix⟩ := by
  rw [family, SortedMap.get_under, Store.at, Addr.phys_sub]
  rfl

theorem family_congr (h : ∀ suffix, s.at ⟨kc, key, .sub tag suffix⟩ =
    t.at ⟨kc, key, .sub tag suffix⟩) : s.family kc key tag = t.family kc key tag :=
  SortedMap.ext_get fun c => by rw [get_family, get_family, h]

theorem family_insert (s : Store) (kc : KeyComposer) (key : Key) (tag : KeyTag)
    (suffix v : Bytes) :
    (s.applyOp (.insertData (Addr.phys ⟨kc, key, .sub tag suffix⟩) v)).family kc key tag =
      (s.family kc key tag).insert suffix v := by
  rw [family, applyOp_insertData, Addr.phys_sub, SortedMap.under_insert_append]
  rfl

theorem family_rm (s : Store) (kc : KeyComposer) (key : Key) (tag : KeyTag) (suffix : Bytes) :
    (s.applyOp (.rmData (Addr.phys ⟨kc, key, .sub tag suffix⟩))).family kc key tag =
      (s.family kc key tag).erase suffix := by
  rw [family, applyOp_rmData, Addr.phys_sub, SortedMap.under_erase_append]
  rfl

theorem family_rmWeak (s : Store) (kc : KeyComposer) (key : Key) (tag : KeyTag) (suffix : Bytes) :
    (s.applyOp (.rmWeakData (Addr.phys ⟨kc, key, .sub tag suffix⟩))).family kc key tag =
      (s.family kc key tag).erase suffix := by
  rw [family, applyOp_rmWeakData, Addr.phys_sub, SortedMap.under_erase_append]
  rfl

theorem family_applyOp {o : WriteOp} (hp : o.partition = .data)
    (hk : o.key = Addr.phys ⟨kc, key, .sub tag suffix⟩) :
    (s.applyOp o).family kc key tag = (s.family kc key tag).put suffix o.value := by
  cases o with
  | insert p k v =>
    cases hp
    cases hk
    exact family_insert s kc key tag suffix v
  | rm p k =>
    cases hp
    cases hk
    exact family_rm s kc key tag suffix
  | rmWeak p k =>
    cases hp
    cases hk
    exact family_rmWeak s kc key tag suffix

theorem family_applyOp_of_metadata {o : WriteOp} (ho : o.partition = .metadata) :
    (s.applyOp o).family kc key tag = s.family kc key tag := by
  refine family_congr fun suffix => ?_
  rw [at_applyOp, if_neg]
  rintro ⟨hp, -⟩
  rw [ho] at hp
  cases hp

theorem family_apply_clear (htag : tag.isFramed = true)
    (hst : ∀ suffix, s.at ⟨kc, key, .sub tag suffix⟩ = none →
      t.at ⟨kc, key, .sub tag suffix⟩ = none) :
    (t.apply (clearPrefixInBatch s .data (kc.composePrefixStack tag.asSlice key.bytes))).family
      kc key tag = ∅ := by
  refine SortedMap.ext_get fun suffix => ?_
  have hclear := at_apply_rmPrefixed .data kc key (b := ⟨kc, key, .sub tag suffix⟩) htag htag
    (hst suffix)
  rw [get_family, clearPrefixInBatch, hclear, if_pos ⟨rfl, rfl, rfl, by simp [Slot.inFamily]⟩]
  rfl

theorem length_family_le (s : Store) (kc : KeyComposer) (key : Key) (tag : KeyTag) :
    (s.family kc key tag).length ≤ s.data.length := List.length_filterMap_le _ _

variable (kc key tag) in
theorem Fits.length_family_lt_signed (h : s.Fits) : (s.family kc key tag).length < 2 ^ 63 :=
  (s.length_family_le kc key tag).trans_lt h.data.length_lt

variable (kc key tag) in
theorem Fits.length_family_lt (h : s.Fits) : (s.family kc key tag).length < 2 ^ 64 :=
  (h.length_family_lt_signed kc key tag).trans (by decide)

end

end Store

/-! ## Local writes -/

/-- The operation writes a slot of the key. -/
def WriteOp.LocalTo (kc : KeyComposer) (key : Key) (o : WriteOp) : Prop :=
  ∃ slot : Slot, slot.Valid ∧ slot.partition = o.partition ∧ Addr.phys ⟨kc, key, slot⟩ = o.key

section
variable {s : Store} {kc kc' : KeyComposer} {key key' : Key} {tag : KeyTag} {ops : Batch} {b : Addr}

theorem at_apply_of_local (h : ∀ o ∈ ops, o.LocalTo kc key) (hb : b.slot.Valid)
    (hne : ¬(b.kc = kc ∧ b.key = key)) : (s.apply ops).at b = s.at b := by
  refine Store.at_apply_of_forall_ne fun o ho hhit => hne ?_
  obtain ⟨slot, hslot, hp, hk⟩ := h o ho
  have ha := Addr.phys_inj (a := ⟨kc, key, slot⟩) (b := b) hslot hb (hp.trans hhit.1)
    (hk.trans hhit.2)
  rw [← ha]
  exact ⟨rfl, rfl⟩

theorem family_apply_of_local (h : ∀ o ∈ ops, o.LocalTo kc key) (htag : tag.isFramed = true)
    (hne : ¬(kc' = kc ∧ key' = key)) :
    (s.apply ops).family kc' key' tag = s.family kc' key' tag :=
  Store.family_congr fun _ => at_apply_of_local h htag hne

theorem localTo_clearPrefix (htag : tag.isFramed = true) {o : WriteOp}
    (ho : o ∈ clearPrefixInBatch s .data (kc.composePrefixStack tag.asSlice key.bytes)) :
    o.LocalTo kc key := by
  simp only [clearPrefixInBatch, Store.rmPrefixed, List.mem_map, SortedMap.mem_prefixed] at ho
  obtain ⟨k, ⟨x, ⟨⟨suffix, hx⟩, -⟩, rfl⟩, rfl⟩ := ho
  exact ⟨.sub tag suffix, htag, rfl, (Addr.phys_sub kc key tag suffix).trans hx⟩

end

/-- The operation writes a slot of the key's value of one type. -/
def WriteOp.OwnedBy (kc : KeyComposer) (key : Key) (tag : KeyTag) (o : WriteOp) : Prop :=
  ∃ slot : Slot, slot.Valid ∧ slot.partition = o.partition ∧ Addr.phys ⟨kc, key, slot⟩ = o.key ∧
    slot ≠ .str ∧ ∀ u, slot = .metadata u → u = tag

section
variable {s : Store} {kc : KeyComposer} {key : Key} {tag dtag : KeyTag} {o : WriteOp}

theorem WriteOp.OwnedBy.localTo (h : o.OwnedBy kc key tag) : o.LocalTo kc key := by
  obtain ⟨slot, hslot, hp, hk, -⟩ := h
  exact ⟨slot, hslot, hp, hk⟩

variable (dtag) in
theorem ownedBy_sub (hd : dtag.isFramed = true) {suffix : Bytes} (hp : o.partition = .data)
    (hk : o.key = Addr.phys ⟨kc, key, .sub dtag suffix⟩) : o.OwnedBy kc key tag :=
  ⟨.sub dtag suffix, hd, hp.symm, hk.symm, by simp, fun u hu => by cases hu⟩

theorem ownedBy_metadata (htag : tag.isMeta = true) (hp : o.partition = .metadata)
    (hk : o.key = Addr.phys ⟨kc, key, .metadata tag⟩) : o.OwnedBy kc key tag :=
  ⟨.metadata tag, htag, hp.symm, hk.symm, by simp, fun u hu => by cases hu; rfl⟩

theorem ownedBy_append {ops : Batch} (hops : ∀ o ∈ ops, o.OwnedBy kc key tag)
    (ho : o.OwnedBy kc key tag) : ∀ o' ∈ ops ++ [o], o'.OwnedBy kc key tag :=
  List.forall_mem_append.mpr ⟨hops, List.forall_mem_singleton.mpr ho⟩

variable (dtag) in
theorem ownedBy_clearPrefix (hd : dtag.isFramed = true)
    (ho : o ∈ clearPrefixInBatch s .data (kc.composePrefixStack dtag.asSlice key.bytes)) :
    o.OwnedBy kc key tag := by
  simp only [clearPrefixInBatch, Store.rmPrefixed, List.mem_map, SortedMap.mem_prefixed] at ho
  obtain ⟨k, ⟨x, ⟨⟨suffix, hx⟩, -⟩, rfl⟩, rfl⟩ := ho
  exact ownedBy_sub dtag hd rfl (hx.symm.trans (Addr.phys_sub kc key dtag suffix).symm)

/-- Writes to a key's value of one type leave its other values alone. -/
theorem at_apply_of_owned {ops : Batch} (slot : Slot) (h : ∀ o ∈ ops, o.OwnedBy kc key tag)
    (hslot : slot.Valid) (hother : slot = .str ∨ ∃ u, slot = .metadata u ∧ u ≠ tag) :
    (s.apply ops).at ⟨kc, key, slot⟩ = s.at ⟨kc, key, slot⟩ := by
  refine Store.at_apply_of_forall_ne fun o ho hhit => ?_
  obtain ⟨slot', hslot', hp, hk, hstr, hmeta⟩ := h o ho
  have ha := Addr.phys_inj (a := ⟨kc, key, slot'⟩) (b := ⟨kc, key, slot⟩) hslot' hslot
    (hp.trans hhit.1) (hk.trans hhit.2)
  cases ha
  rcases hother with rfl | ⟨u, rfl, hu⟩
  · exact hstr rfl
  · exact hu (hmeta u rfl)

theorem str_at_apply_of_owned {ops : Batch} (h : ∀ o ∈ ops, o.OwnedBy kc key tag) :
    (s.apply ops).at ⟨kc, key, .str⟩ = s.at ⟨kc, key, .str⟩ :=
  at_apply_of_owned .str h trivial (Or.inl rfl)

theorem metadata_at_apply_of_owned {ops : Batch} {u : KeyTag} (h : ∀ o ∈ ops, o.OwnedBy kc key tag)
    (hu : u.isMeta = true) (hne : u ≠ tag) :
    (s.apply ops).at ⟨kc, key, .metadata u⟩ = s.at ⟨kc, key, .metadata u⟩ :=
  at_apply_of_owned (.metadata u) h hu (Or.inr ⟨u, rfl, hne⟩)

theorem Store.family_applyOp_of_slot (slot : Slot) (hslot : slot.Valid) (hp : slot.partition = o.partition)
    (hk : Addr.phys ⟨kc, key, slot⟩ = o.key) (htag : tag.isFramed = true)
    (hne : ∀ suffix, slot ≠ .sub tag suffix) :
    (s.applyOp o).family kc key tag = s.family kc key tag := by
  refine family_congr fun suffix => ?_
  rw [at_applyOp, if_neg]
  rintro ⟨hp', hk'⟩
  have ha := Addr.phys_inj (a := ⟨kc, key, slot⟩) (b := ⟨kc, key, .sub tag suffix⟩) hslot htag
    (hp.trans hp') (hk.trans hk')
  exact hne suffix (congrArg Addr.slot ha)

theorem Store.family_apply_of_slots {ops : Batch} (htag : tag.isFramed = true)
    (h : ∀ o ∈ ops, ∃ slot : Slot, slot.Valid ∧ slot.partition = o.partition ∧
      Addr.phys ⟨kc, key, slot⟩ = o.key ∧ ∀ suffix, slot ≠ .sub tag suffix) :
    (s.apply ops).family kc key tag = s.family kc key tag := by
  induction ops generalizing s with
  | nil => rfl
  | cons o ops ih =>
    obtain ⟨slot, hslot, hp, hk, hne⟩ := h o (by simp)
    rw [apply_cons, ih fun x hx => h x (by simp [hx]), family_applyOp_of_slot slot hslot hp hk htag hne]

end

/-! ## Commands -/

def Engine.exec {α : Type} (e : Engine) (plan : Except Error (α × Batch)) :
    Except Error (α × Engine) := do
  let (a, ops) ← plan
  let e' ← e.commit ops
  return (a, e')

theorem Engine.exec_eq_ok {α : Type} {e e' : Engine} {plan : Except Error (α × Batch)} {a : α}
    (h : e.exec plan = .ok (a, e')) :
    ∃ ops, plan = .ok (a, ops) ∧ e'.store = e.store.apply ops := by
  unfold Engine.exec at h
  cases plan with
  | error err => cases h
  | ok x =>
    obtain ⟨b, ops⟩ := x
    cases hc : e.commit ops with
    | error err =>
      simp only [bind, Except.bind, hc] at h
      cases h
    | ok e1 =>
      simp only [bind, Except.bind, hc] at h
      cases h
      exact ⟨ops, rfl, Engine.commit_eq_ok hc⟩

/-! ## Keys of one type -/

/-- The key holds nothing but data of the tag's type. -/
structure HoldsOnly (s : Store) (kc : KeyComposer) (key : Key) (tag : KeyTag) : Prop where
  str : s.at ⟨kc, key, .str⟩ = none
  metadata : ∀ u ∈ allCompositeMetaTags, u ≠ tag → s.at ⟨kc, key, .metadata u⟩ = none

section
variable {s : Store} {kc : KeyComposer} {key : Key} {tag : KeyTag}

theorem checkCompositeMetaNotOtherType_eq (s : Store) (kc : KeyComposer) (key : Key) (now : UInt64)
    (tag : KeyTag) : checkCompositeMetaNotOtherType s kc key now tag =
      if (allCompositeMetaTags.filter (· ≠ tag)).any fun u => (liveMeta s kc key now u).isSome then
        .error Error.wrongTypeDefault
      else .ok () := by
  rw [checkCompositeMetaNotOtherType]
  by_cases hempty : s.metadata.isEmpty = true
  · rw [if_pos hempty, if_neg]
    simp [metadata_isEmpty_liveMeta hempty]
  · rw [if_neg hempty]

theorem checkCompositeMetaNotOtherType_congr {t : Store} (now : UInt64)
    (hmeta : ∀ u ∈ allCompositeMetaTags, u ≠ tag →
      t.at ⟨kc, key, .metadata u⟩ = s.at ⟨kc, key, .metadata u⟩) :
    checkCompositeMetaNotOtherType t kc key now tag = checkCompositeMetaNotOtherType s kc key now tag := by
  rw [checkCompositeMetaNotOtherType_eq, checkCompositeMetaNotOtherType_eq]
  refine if_congr ?_ rfl rfl
  simp only [List.any_eq_true]
  refine exists_congr fun u => and_congr_right fun hu => ?_
  rw [List.mem_filter, decide_eq_true_eq] at hu
  rw [liveMeta_congr (hmeta u hu.1 hu.2)]

theorem getMetaChecked_congr {M : Type} [MetaOps M] {t : Store} {metaK : Bytes} {now : UInt64}
    (hstr : t.at ⟨kc, key, .str⟩ = s.at ⟨kc, key, .str⟩)
    (hmeta : ∀ u ∈ allCompositeMetaTags, u ≠ MetaOps.tag M →
      t.at ⟨kc, key, .metadata u⟩ = s.at ⟨kc, key, .metadata u⟩)
    (hget : t.metadata.get metaK = s.metadata.get metaK) :
    getMetaChecked M t kc key metaK now = getMetaChecked M s kc key metaK now := by
  have hcheck := checkCompositeMetaNotOtherType_congr now hmeta
  rw [getMetaChecked, getMetaChecked, liveString_congr hstr, hget, hcheck]

theorem getMetaChecked_eq_some {M : Type} [MetaOps M] {metaK : Bytes} {now : UInt64} {m : M}
    (h : getMetaChecked M s kc key metaK now = .ok (some m)) :
    (liveString s kc key now).isSome = false ∧ MetaOps.isExpired m now = false ∧
      ∃ v, s.metadata.get metaK = some v ∧ MetaOps.decode (M := M) v = some m := by
  have hcheck : (checkCompositeMetaNotOtherType s kc key now (MetaOps.tag M)).map
      (fun _ => (none : Option M)) ≠ .ok (some m) := by
    cases checkCompositeMetaNotOtherType s kc key now (MetaOps.tag M) <;> simp [Except.map]
  rw [getMetaChecked] at h
  by_cases hs : (liveString s kc key now).isSome = true
  · rw [if_pos hs] at h
    cases h
  · rw [if_neg hs] at h
    refine ⟨by simpa using hs, ?_⟩
    cases hget : (s.metadata.get metaK).bind (MetaOps.decode (M := M)) with
    | none =>
      rw [hget] at h
      exact absurd h hcheck
    | some m' =>
      simp only [hget] at h
      by_cases hexp : MetaOps.isExpired m' now = true
      · rw [if_pos hexp] at h
        exact absurd h hcheck
      · rw [if_neg hexp] at h
        cases h
        rw [Option.bind_eq_some_iff] at hget
        exact ⟨by simpa using hexp, hget⟩

theorem HoldsOnly.check (h : HoldsOnly s kc key tag) (now : UInt64) :
    checkCompositeMetaNotOtherType s kc key now tag = .ok () := by
  unfold checkCompositeMetaNotOtherType
  split_ifs with hempty hany
  · rfl
  · rw [List.any_eq_true] at hany
    obtain ⟨u, hu, hlive⟩ := hany
    simp only [List.mem_filter, decide_eq_true_eq] at hu
    rw [liveMeta_of_at_none (h.metadata u hu.1 hu.2)] at hlive
    cases hlive
  · rfl

theorem HoldsOnly.findActive (h : HoldsOnly s kc key tag) (htag : tag ∈ allCompositeMetaTags)
    (now : UInt64) : findActiveCompositeMeta s kc key now =
      (liveMeta s kc key now tag).map fun m => (tag, m) := by
  have hother : ∀ u ∈ allCompositeMetaTags, u ≠ tag → liveMeta s kc key now u = none :=
    fun u hu hne => liveMeta_of_at_none (h.metadata u hu hne)
  cases hlive : liveMeta s kc key now tag with
  | none =>
    rw [findActiveCompositeMeta_eq_none.mpr fun u hu => ?_]
    · rfl
    · by_cases hut : u = tag
      · rw [hut, hlive]
      · exact hother u hu hut
  | some m =>
    cases hf : findActiveCompositeMeta s kc key now with
    | none =>
      rw [findActiveCompositeMeta_eq_none.mp hf tag htag] at hlive
      cases hlive
    | some x =>
      obtain ⟨u, m'⟩ := x
      obtain ⟨hu, hum⟩ := findActive_spec hf
      by_cases hut : u = tag
      · rw [hut, hlive, Option.some.injEq] at hum
        rw [hut, hum]
        rfl
      · rw [hother u hu hut] at hum
        cases hum

theorem HoldsOnly.getMetaChecked_absent {M : Type} [MetaOps M] {metaK : Bytes}
    (h : HoldsOnly s kc key (MetaOps.tag M)) (hget : s.metadata.get metaK = none) (now : UInt64) :
    getMetaChecked M s kc key metaK now = .ok none := by
  rw [getMetaChecked, liveString_of_at_none h.str, hget]
  simp only [Option.isSome_none, Bool.false_eq_true, if_false, Option.bind_none]
  rw [h.check now]
  rfl

theorem HoldsOnly.getMetaChecked_present {M : Type} [MetaOps M] {metaK v : Bytes} {m : M}
    (h : HoldsOnly s kc key (MetaOps.tag M)) (hget : s.metadata.get metaK = some v)
    (hdec : MetaOps.decode (M := M) v = some m) {now : UInt64}
    (hexp : MetaOps.isExpired m now = false) :
    getMetaChecked M s kc key metaK now = .ok (some m) := by
  rw [getMetaChecked, liveString_of_at_none h.str, hget]
  simp only [Option.isSome_none, Bool.false_eq_true, if_false, Option.bind_some, hdec, hexp]

theorem HoldsOnly.getMetaChecked_expired {M : Type} [MetaOps M] {metaK v : Bytes} {m : M}
    (h : HoldsOnly s kc key (MetaOps.tag M)) (hget : s.metadata.get metaK = some v)
    (hdec : MetaOps.decode (M := M) v = some m) {now : UInt64}
    (hexp : MetaOps.isExpired m now = true) : getMetaChecked M s kc key metaK now = .ok none := by
  rw [getMetaChecked, liveString_of_at_none h.str, hget]
  simp only [Option.isSome_none, Bool.false_eq_true, if_false, Option.bind_some, hdec, hexp, if_true]
  rw [h.check now]
  rfl

theorem checkKeyNotOtherType_apply_of_owned {ops : Batch} (h : ∀ o ∈ ops, o.OwnedBy kc key tag)
    (now : UInt64) : checkKeyNotOtherType (s.apply ops) kc key now tag =
      checkKeyNotOtherType s kc key now tag := by
  rw [checkKeyNotOtherType, checkKeyNotOtherType, liveString_congr (str_at_apply_of_owned h),
    checkCompositeMetaNotOtherType_congr now fun u hu hne =>
      metadata_at_apply_of_owned h (allCompositeMetaTags_isMeta hu) hne]

theorem getMetaChecked_of_check {M : Type} [MetaOps M] {metaK : Bytes} {now : UInt64}
    (h : checkKeyNotOtherType s kc key now (MetaOps.tag M) = .ok ()) :
    getMetaChecked M s kc key metaK now = .ok (((s.metadata.get metaK).bind
      (MetaOps.decode (M := M))).filter fun m => !MetaOps.isExpired m now) := by
  rw [checkKeyNotOtherType] at h
  by_cases hstr : (liveString s kc key now).isSome = true
  · rw [if_pos hstr] at h
    cases h
  rw [if_neg hstr] at h
  rw [getMetaChecked, if_neg hstr, h]
  cases (s.metadata.get metaK).bind (MetaOps.decode (M := M)) with
  | none => rfl
  | some m => by_cases hexp : MetaOps.isExpired m now = true <;> simp [hexp, Except.map, Option.filter]

theorem HoldsOnly.apply {ops : Batch} (h : HoldsOnly s kc key tag)
    (hops : ∀ o ∈ ops, ∃ slot : Slot, slot.Valid ∧ slot.partition = o.partition ∧
      Addr.phys ⟨kc, key, slot⟩ = o.key ∧ slot ≠ .str ∧ ∀ u, slot = .metadata u → u = tag) :
    HoldsOnly (s.apply ops) kc key tag := by
  refine ⟨(str_at_apply_of_owned hops).trans h.str, fun u hu hne => ?_⟩
  exact (metadata_at_apply_of_owned hops (allCompositeMetaTags_isMeta hu) hne).trans
    (h.metadata u hu hne)

theorem HoldsOnly.of_local {kc' : KeyComposer} {key' : Key} {ops : Batch}
    (h : HoldsOnly s kc' key' tag) (hops : ∀ o ∈ ops, o.LocalTo kc key)
    (hne : ¬(kc' = kc ∧ key' = key)) : HoldsOnly (s.apply ops) kc' key' tag :=
  ⟨(at_apply_of_local (b := ⟨kc', key', .str⟩) hops trivial hne).trans h.str, fun u hu hut =>
    (at_apply_of_local (b := ⟨kc', key', .metadata u⟩) hops (allCompositeMetaTags_isMeta hu)
      hne).trans (h.metadata u hu hut)⟩

end

end Wedb
