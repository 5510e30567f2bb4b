import Wedb.Hash.Impl

/-!
# Copying and renaming keys

`copyImpl` writes the live string of the source, or its first live composite:
the metadata with a fresh version and the entries of the type's data families.
The destination is cleared of its string and of every type whose metadata is
stored, except under `nx`. What the destination keeps after that is its residue,
and the copy is exact when the residue adds nothing to what a read would find.
-/

namespace Wedb

def copyDataTags : KeyTag → List KeyTag
  | .hashMeta => [.hashData]
  | .listMeta => [.listData]
  | .setMeta => [.setData]
  | .zSetMeta => [.zSetData, .zSetScore]
  | .bitmapMeta => [.bitmapData]
  | .bloomMeta => [.bloomData]
  | .cuckooMeta => [.cuckooData]
  | .sortedIntMeta => [.sortedIntData]
  | .timeSeriesMeta => [.timeSeriesData]
  | .streamMeta => [.streamData, .streamGroup, .streamConsumer, .streamPel]
  | .jsonMeta => [.jsonData]
  | .tDigestMeta => [.tDigestData]
  | .hllMeta => [.hllRaw]
  | _ => []

def patchVersion (metaVal : Bytes) (newVersion : UInt64) : Bytes :=
  let first := metaVal.headD 0
  let isKvrocks := first &&& KeyMeta.meta64bitEncodingMask ≠ 0 ∨
    metaVal.length ≥ KeyMeta.kvrocksComplexEncodedSize ∧ first > 14
  let verOffset := if isKvrocks then 9 else 10
  if metaVal.length ≥ verOffset + 8 then
    metaVal.take verOffset ++ newVersion.toBeBytes ++ metaVal.drop (verOffset + 8)
  else metaVal

section
variable (s : Store) (kc : KeyComposer) (src dst : Key) (deleteOld : Bool)

def copyFamilyOps (dtag : KeyTag) : Batch :=
  if dtag = .hllRaw then
    let srcK := kc.composeMetaKeyStack dtag.asSlice src.bytes
    match s.data.get srcK with
    | some val => .insertData (kc.composeMetaKeyStack dtag.asSlice dst.bytes) val ::
        if deleteOld then [.rmData srcK] else []
    | none => []
  else
    let srcPrefix := kc.composePrefixStack dtag.asSlice src.bytes
    let dstPrefix := kc.composePrefixStack dtag.asSlice dst.bytes
    (SortedMap.prefixed srcPrefix s.data).flatMap fun x =>
      .insertData (dstPrefix ++ x.1.drop srcPrefix.length) x.2 ::
        if deleteOld then [.rmData x.1] else []

def cleanDstOps (nx : Bool) : Batch :=
  if nx then []
  else .rmData (composeStringKey kc dst.bytes) :: cleanupAllCompositeDataWithBuf s kc dst

def copyStringOps (nx : Bool) (srcVal : Bytes) : Batch :=
  cleanDstOps s kc dst nx ++ [.insertData (composeStringKey kc dst.bytes) srcVal] ++
    if deleteOld then [.rmData (composeStringKey kc src.bytes)] else []

def copyCompositeOps (nx : Bool) (newVersion : UInt64) (tag : KeyTag) (rawMeta : Bytes) : Batch :=
  cleanDstOps s kc dst nx ++
    [.insertMeta (kc.composeMetaKeyStack tag.asSlice dst.bytes) (patchVersion rawMeta newVersion)] ++
    (copyDataTags tag).flatMap (copyFamilyOps s kc src dst deleteOld) ++
    if deleteOld then [.rmMeta (kc.composeMetaKeyStack tag.asSlice src.bytes)] else []

end

def copyImpl (e : Engine) (kc : KeyComposer) (nowMs newVersion : UInt64) (src dst : Key)
    (nx deleteOld : Bool) : Except Error (Bool × Engine) :=
  if src = dst then
    if existsImpl e.store kc nowMs [src] > 0 then .ok (!nx, e) else .ok (false, e)
  else if nx && existsImpl e.store kc nowMs [dst] > 0 then .ok (false, e)
  else
    match (e.store.data.get (composeStringKey kc src.bytes)).filter
      fun srcVal => !isStringExpired (decodeStringValue srcVal).1 nowMs with
    | some srcVal => do
      let e' ← e.commit (copyStringOps e.store kc src dst deleteOld nx srcVal)
      return (true, e')
    | none =>
      match findActiveCompositeMeta e.store kc src nowMs with
      | some (tag, _, rawMeta) => do
        let e' ← e.commit (copyCompositeOps e.store kc src dst deleteOld nx newVersion tag rawMeta)
        return (true, e')
      | none => .ok (false, e)

def rename (e : Engine) (kc : KeyComposer) (nowMs newVersion : UInt64) (src dst : Key) :
    Except Error Engine :=
  if existsOne e.store kc src nowMs then
    if src = dst then .ok e
    else (copyImpl e kc nowMs newVersion src dst false true).map Prod.snd
  else .error (.notFound errNoSuchKey)

def renamenx (e : Engine) (kc : KeyComposer) (nowMs newVersion : UInt64) (src dst : Key) :
    Except Error (Bool × Engine) :=
  if existsOne e.store kc src nowMs then
    if src = dst then .ok (false, e)
    else copyImpl e kc nowMs newVersion src dst true true
  else .error (.notFound errNoSuchKey)

/-! ## What is copied -/

def Copied (tag : KeyTag) (slot : Slot) : Prop :=
  slot.partition = .data ∧ slot.tag ∈ copyDataTags tag

instance (tag : KeyTag) (slot : Slot) : Decidable (Copied tag slot) :=
  inferInstanceAs (Decidable (_ ∧ _))

theorem copyDataTags_isData {tag dtag : KeyTag} (h : dtag ∈ copyDataTags tag) :
    dtag.isFramed = true ∨ dtag = .hllRaw := by
  have hall : ∀ t ∈ KeyTag.all, ∀ d ∈ copyDataTags t, d.isFramed = true ∨ d = .hllRaw := by decide
  exact hall tag (KeyTag.mem_all tag) dtag h

theorem patchVersion_encode (m : KeyMeta) (t : Bytes) (newVersion : UInt64) :
    patchVersion (m.encode ++ t) newVersion = { m with version := newVersion }.encode ++ t := by
  have hlen : (m.encode ++ t).length ≥ 10 + 8 := by
    simp [KeyMeta.encodedSize]
    omega
  set head := m.rtype.asU8 :: m.flags :: m.expireAt.toBeBytes with hhead
  have hsplit : ∀ v : UInt64, ({ m with version := v } : KeyMeta).encode ++ t =
      head ++ (v.toBeBytes ++ (m.size.toBeBytes ++ t)) := fun v => by
    simp [KeyMeta.encode, hhead]
  have hheadlen : head.length = 10 := by simp [hhead]
  have hm : m.encode ++ t = head ++ (m.version.toBeBytes ++ (m.size.toBeBytes ++ t)) :=
    hsplit m.version
  have htake : (m.encode ++ t).take 10 = head := by
    rw [hm, ← hheadlen, List.take_left]
  have hdrop : (m.encode ++ t).drop (10 + 8) = m.size.toBeBytes ++ t := by
    have h8 : m.version.toBeBytes.length = 8 := by simp
    rw [hm, ← hheadlen, ← h8, ← List.drop_drop, List.drop_left, List.drop_left]
  simp only [patchVersion, if_neg (m.encode_not_kvrocks t), if_pos hlen, htake, hdrop]
  rw [hsplit newVersion, List.append_assoc]

section
variable {s t : Store} {kc : KeyComposer} {src dst : Key} {deleteOld : Bool} {dtag : KeyTag}

theorem mem_copyFamilyOps (hd : dtag.isFramed = true ∨ dtag = .hllRaw) {o : WriteOp} :
    o ∈ copyFamilyOps s kc src dst deleteOld dtag ↔
      ∃ slot v, slot.Valid ∧ slot.partition = .data ∧ slot.tag = dtag ∧
        s.at ⟨kc, src, slot⟩ = some v ∧
        (o = .insertData (Addr.phys ⟨kc, dst, slot⟩) v ∨
          deleteOld = true ∧ o = .rmData (Addr.phys ⟨kc, src, slot⟩)) := by
  have hops : ∀ (k : Bytes) (v : Bytes) (r : Bytes), (o ∈ WriteOp.insertData k v ::
      (if deleteOld then [WriteOp.rmData r] else [])) ↔
      o = .insertData k v ∨ deleteOld = true ∧ o = .rmData r := by
    intro k v r
    cases deleteOld <;> simp
  by_cases hraw : dtag = .hllRaw
  · subst hraw
    have hat : s.data.get (kc.composeMetaKeyStack KeyTag.hllRaw.asSlice src.bytes) =
        s.at ⟨kc, src, .hllRaw⟩ := rfl
    rw [copyFamilyOps, if_pos rfl]
    simp only [hat]
    constructor
    · intro h
      cases hv : s.at ⟨kc, src, .hllRaw⟩ with
      | none =>
        rw [hv] at h
        cases h
      | some v =>
        rw [hv] at h
        exact ⟨.hllRaw, v, trivial, rfl, rfl, hv, (hops _ v _).mp h⟩
    · rintro ⟨slot, v, hvalid, hp, htag, hv, ho⟩
      cases slot with
      | str | metadata | rule => cases hp <;> cases htag
      | sub u =>
        subst htag
        exact absurd (show KeyTag.isFramed .hllRaw = true from hvalid) (by decide)
      | hllRaw =>
        rw [hv]
        exact (hops _ v _).mpr ho
  · have hframed := hd.resolve_right hraw
    rw [copyFamilyOps, if_neg hraw]
    simp only [List.mem_flatMap, SortedMap.mem_prefixed]
    constructor
    · rintro ⟨⟨k, v⟩, ⟨⟨suffix, rfl⟩, hget⟩, ho⟩
      refine ⟨.sub dtag suffix, v, hframed, rfl, rfl, ?_, ?_⟩
      · rw [Store.at, Addr.phys_sub]
        exact hget
      · rw [hops, List.drop_left] at ho
        rw [Addr.phys_sub, Addr.phys_sub]
        exact ho
    · rintro ⟨slot, v, hvalid, hp, htag, hv, ho⟩
      cases slot with
      | str | metadata | rule => cases hp <;> subst htag <;> cases hframed
      | hllRaw => exact absurd htag.symm hraw
      | sub u suffix =>
        obtain rfl : u = dtag := htag
        rw [Addr.phys_sub, Addr.phys_sub] at ho
        rw [Store.at, Addr.phys_sub] at hv
        refine ⟨(kc.composePrefixStack u.asSlice src.bytes ++ suffix, v),
          ⟨⟨suffix, rfl⟩, hv⟩, ?_⟩
        rw [hops, List.drop_left]
        exact ho

end

/-! ## The destination and the source after a copy -/

def residue (s : Store) (kc : KeyComposer) (dst : Key) (nx : Bool) (slot : Slot) : Option Bytes :=
  (s.apply (cleanDstOps s kc dst nx)).at ⟨kc, dst, slot⟩

section
variable {s t : Store} {kc : KeyComposer} {src dst : Key} {nx deleteOld : Bool} {tag : KeyTag}
  {slot : Slot} {b : Addr}

theorem Addr.mk_eq_iff {kc : KeyComposer} {key : Key} {slot : Slot} :
    (⟨kc, key, slot⟩ : Addr) = b ↔ b.kc = kc ∧ b.key = key ∧ b.slot = slot := by
  obtain ⟨kc', key', slot'⟩ := b
  rw [Addr.mk.injEq]
  exact ⟨fun h => ⟨h.1.symm, h.2.1.symm, h.2.2.symm⟩, fun h => ⟨h.1.symm, h.2.1.symm, h.2.2.symm⟩⟩

open Classical in
theorem at_apply_cleanDstOps (hb : b.slot.Valid) :
    (s.apply (cleanDstOps s kc dst nx)).at b =
      if nx = false ∧ b.kc = kc ∧ b.key = dst ∧ (b.slot = .str ∨ CleanedUp s kc dst b.slot) then none
      else s.at b := by
  cases nx with
  | true => simp [cleanDstOps]
  | false =>
    have hrm := Store.at_rm s (a := ⟨kc, dst, .str⟩) (b := b) trivial hb
    rw [cleanDstOps, if_neg Bool.false_ne_true, Store.apply_cons]
    refine (at_apply_cleanupAll hb fun h => hrm.trans (by rw [h, ite_self])).trans ?_
    refine (if_congr Iff.rfl rfl (hrm.trans (if_congr Addr.mk_eq_iff rfl rfl))).trans ?_
    by_cases h1 : b.kc = kc <;> by_cases h2 : b.key = dst <;> by_cases h3 : b.slot = .str <;>
      by_cases h4 : CleanedUp s kc dst b.slot <;> simp [h1, h2, h3, h4]

theorem at_apply_cleanDstOps_of_ne (hne : src ≠ dst) (hslot : slot.Valid) :
    (s.apply (cleanDstOps s kc dst nx)).at ⟨kc, src, slot⟩ = s.at ⟨kc, src, slot⟩ := by
  classical
  rw [at_apply_cleanDstOps hslot, if_neg fun h => hne h.2.2.1]

theorem at_dst_apply_families (hne : src ≠ dst) (hslot : slot.Valid) :
    (t.apply ((copyDataTags tag).flatMap (copyFamilyOps s kc src dst deleteOld))).at
        ⟨kc, dst, slot⟩ =
      if Copied tag slot ∧ (s.at ⟨kc, src, slot⟩).isSome then s.at ⟨kc, src, slot⟩
      else t.at ⟨kc, dst, slot⟩ := by
  have hcases : ∀ o ∈ (copyDataTags tag).flatMap (copyFamilyOps s kc src dst deleteOld),
      o.partition = slot.partition ∧ o.key = Addr.phys ⟨kc, dst, slot⟩ →
        Copied tag slot ∧ (s.at ⟨kc, src, slot⟩).isSome ∧ o.value = s.at ⟨kc, src, slot⟩ := by
    intro o ho hhit
    obtain ⟨dtag, hdtag, ho⟩ := List.mem_flatMap.mp ho
    obtain ⟨slot', v, hvalid, hp, rfl, hv, ho⟩ :=
      (mem_copyFamilyOps (copyDataTags_isData hdtag)).mp ho
    rcases ho with rfl | ⟨-, rfl⟩
    · have ha := Addr.phys_inj (a := ⟨kc, dst, slot'⟩) (b := ⟨kc, dst, slot⟩) hvalid hslot
        (hp.trans hhit.1) hhit.2
      cases ha
      exact ⟨⟨hp, hdtag⟩, by rw [hv]; rfl, hv.symm⟩
    · have ha := Addr.phys_inj (a := ⟨kc, src, slot'⟩) (b := ⟨kc, dst, slot⟩) hvalid hslot
        (hp.trans hhit.1) hhit.2
      cases ha
      exact absurd rfl hne
  rw [Store.at_apply_of_forall_value (w := s.at ⟨kc, src, slot⟩) fun o ho hhit =>
    (hcases o ho hhit).2.2]
  refine if_congr ⟨?_, ?_⟩ rfl rfl
  · rintro ⟨o, ho, hhit⟩
    exact ⟨(hcases o ho hhit).1, (hcases o ho hhit).2.1⟩
  · rintro ⟨⟨hp, htag⟩, hsome⟩
    obtain ⟨v, hv⟩ := Option.isSome_iff_exists.mp hsome
    refine ⟨.insertData (Addr.phys ⟨kc, dst, slot⟩) v, List.mem_flatMap.mpr ⟨slot.tag, htag, ?_⟩,
      hp.symm, rfl⟩
    rw [mem_copyFamilyOps (copyDataTags_isData htag)]
    exact ⟨slot, v, hslot, hp, rfl, hv, Or.inl rfl⟩

theorem at_src_apply_families (hne : src ≠ dst) (hslot : slot.Valid)
    (hst : t.at ⟨kc, src, slot⟩ = s.at ⟨kc, src, slot⟩) :
    (t.apply ((copyDataTags tag).flatMap (copyFamilyOps s kc src dst deleteOld))).at
        ⟨kc, src, slot⟩ =
      if deleteOld = true ∧ Copied tag slot then none else s.at ⟨kc, src, slot⟩ := by
  have hcases : ∀ o ∈ (copyDataTags tag).flatMap (copyFamilyOps s kc src dst deleteOld),
      o.partition = slot.partition ∧ o.key = Addr.phys ⟨kc, src, slot⟩ →
        deleteOld = true ∧ Copied tag slot ∧ o.value = none := by
    intro o ho hhit
    obtain ⟨dtag, hdtag, ho⟩ := List.mem_flatMap.mp ho
    obtain ⟨slot', v, hvalid, hp, rfl, hv, ho⟩ :=
      (mem_copyFamilyOps (copyDataTags_isData hdtag)).mp ho
    rcases ho with rfl | ⟨hdel, rfl⟩
    · have ha := Addr.phys_inj (a := ⟨kc, dst, slot'⟩) (b := ⟨kc, src, slot⟩) hvalid hslot
        (hp.trans hhit.1) hhit.2
      cases ha
      exact absurd rfl hne
    · have ha := Addr.phys_inj (a := ⟨kc, src, slot'⟩) (b := ⟨kc, src, slot⟩) hvalid hslot
        (hp.trans hhit.1) hhit.2
      cases ha
      exact ⟨hdel, ⟨hp, hdtag⟩, rfl⟩
  rw [Store.at_apply_of_forall_value (w := none) fun o ho hhit => (hcases o ho hhit).2.2, hst]
  by_cases h : deleteOld = true ∧ Copied tag slot
  · rw [if_pos h]
    cases hv : s.at ⟨kc, src, slot⟩ with
    | none => rw [ite_self]
    | some v =>
      refine if_pos ⟨.rmData (Addr.phys ⟨kc, src, slot⟩),
        List.mem_flatMap.mpr ⟨slot.tag, h.2.2, ?_⟩, h.2.1.symm, rfl⟩
      rw [mem_copyFamilyOps (copyDataTags_isData h.2.2)]
      exact ⟨slot, v, hslot, h.2.1, rfl, hv, Or.inr ⟨h.1, rfl⟩⟩
  · rw [if_neg h, if_neg]
    rintro ⟨o, ho, hhit⟩
    exact h ⟨(hcases o ho hhit).1, (hcases o ho hhit).2.1⟩

theorem not_copied_metadata (u : KeyTag) : ¬Copied tag (.metadata u) := fun h => by
  have := h.1
  cases this

theorem at_dst_copyComposite (hne : src ≠ dst) (htag : tag.isMeta = true) (hslot : slot.Valid)
    (newVersion : UInt64) (rawMeta : Bytes) :
    (s.apply (copyCompositeOps s kc src dst deleteOld nx newVersion tag rawMeta)).at
        ⟨kc, dst, slot⟩ =
      if slot = .metadata tag then some (patchVersion rawMeta newVersion)
      else if Copied tag slot ∧ (s.at ⟨kc, src, slot⟩).isSome then s.at ⟨kc, src, slot⟩
      else residue s kc dst nx slot := by
  have hdel : ∀ u : Store, (u.apply (if deleteOld then
      [WriteOp.rmMeta (kc.composeMetaKeyStack tag.asSlice src.bytes)] else [])).at ⟨kc, dst, slot⟩ =
      u.at ⟨kc, dst, slot⟩ := by
    intro u
    cases deleteOld with
    | false => rfl
    | true =>
      refine (Store.at_rm u (a := ⟨kc, src, .metadata tag⟩) (b := ⟨kc, dst, slot⟩) htag hslot).trans
        (if_neg fun h => hne ?_)
      cases h
      rfl
  have hins : ∀ u : Store, (u.apply [.insertMeta (kc.composeMetaKeyStack tag.asSlice dst.bytes)
      (patchVersion rawMeta newVersion)]).at ⟨kc, dst, slot⟩ =
      if slot = .metadata tag then some (patchVersion rawMeta newVersion)
      else u.at ⟨kc, dst, slot⟩ := by
    intro u
    refine (Store.at_insert u (a := ⟨kc, dst, .metadata tag⟩) (b := ⟨kc, dst, slot⟩) htag hslot
      (patchVersion rawMeta newVersion)).trans (if_congr ?_ rfl rfl)
    rw [Addr.mk_eq_iff]
    simp
  rw [copyCompositeOps, Store.apply_append, hdel, Store.apply_append,
    at_dst_apply_families hne hslot, Store.apply_append, hins]
  by_cases hm : slot = .metadata tag
  · subst hm
    simp [not_copied_metadata]
  · simp only [hm, if_false]
    rfl

theorem at_src_copyComposite (hne : src ≠ dst) (htag : tag.isMeta = true) (hslot : slot.Valid)
    (newVersion : UInt64) (rawMeta : Bytes) :
    (s.apply (copyCompositeOps s kc src dst deleteOld nx newVersion tag rawMeta)).at
        ⟨kc, src, slot⟩ =
      if deleteOld = true ∧ (slot = .metadata tag ∨ Copied tag slot) then none
      else s.at ⟨kc, src, slot⟩ := by
  have hdel : ∀ u : Store, (u.apply (if deleteOld then
      [WriteOp.rmMeta (kc.composeMetaKeyStack tag.asSlice src.bytes)] else [])).at ⟨kc, src, slot⟩ =
      if deleteOld = true ∧ slot = .metadata tag then none else u.at ⟨kc, src, slot⟩ := by
    intro u
    cases deleteOld with
    | false => simp
    | true =>
      refine (Store.at_rm u (a := ⟨kc, src, .metadata tag⟩) (b := ⟨kc, src, slot⟩) htag hslot).trans
        (if_congr ?_ rfl rfl)
      rw [Addr.mk_eq_iff]
      simp
  have hins : ∀ u : Store, (u.apply [.insertMeta (kc.composeMetaKeyStack tag.asSlice dst.bytes)
      (patchVersion rawMeta newVersion)]).at ⟨kc, src, slot⟩ = u.at ⟨kc, src, slot⟩ := by
    intro u
    refine (Store.at_insert u (a := ⟨kc, dst, .metadata tag⟩) (b := ⟨kc, src, slot⟩) htag hslot
      (patchVersion rawMeta newVersion)).trans (if_neg fun h => hne ?_)
    cases h
    rfl
  rw [copyCompositeOps, Store.apply_append, hdel, Store.apply_append,
    at_src_apply_families hne hslot (by
      rw [Store.apply_append, hins, at_apply_cleanDstOps_of_ne hne hslot])]
  by_cases h1 : deleteOld = true <;> by_cases h2 : slot = .metadata tag <;>
    by_cases h3 : Copied tag slot <;> simp [h1, h2, h3]

theorem at_dst_copyString (hne : src ≠ dst) (hslot : slot.Valid) (srcVal : Bytes) :
    (s.apply (copyStringOps s kc src dst deleteOld nx srcVal)).at ⟨kc, dst, slot⟩ =
      if slot = .str then some srcVal else residue s kc dst nx slot := by
  have hdel : ∀ u : Store, (u.apply (if deleteOld then
      [WriteOp.rmData (composeStringKey kc src.bytes)] else [])).at ⟨kc, dst, slot⟩ =
      u.at ⟨kc, dst, slot⟩ := by
    intro u
    cases deleteOld with
    | false => rfl
    | true =>
      refine (Store.at_rm u (a := ⟨kc, src, .str⟩) (b := ⟨kc, dst, slot⟩) trivial hslot).trans
        (if_neg fun h => hne ?_)
      cases h
      rfl
  rw [copyStringOps, Store.apply_append, hdel, Store.apply_append]
  refine (Store.at_insert _ (a := ⟨kc, dst, .str⟩) (b := ⟨kc, dst, slot⟩) trivial hslot
    srcVal).trans (if_congr ?_ rfl rfl)
  rw [Addr.mk_eq_iff]
  simp

theorem at_src_copyString (hne : src ≠ dst) (hslot : slot.Valid) (srcVal : Bytes) :
    (s.apply (copyStringOps s kc src dst deleteOld nx srcVal)).at ⟨kc, src, slot⟩ =
      if deleteOld = true ∧ slot = .str then none else s.at ⟨kc, src, slot⟩ := by
  have hins : ∀ u : Store, (u.apply [.insertData (composeStringKey kc dst.bytes) srcVal]).at
      ⟨kc, src, slot⟩ = u.at ⟨kc, src, slot⟩ := by
    intro u
    refine (Store.at_insert u (a := ⟨kc, dst, .str⟩) (b := ⟨kc, src, slot⟩) trivial hslot
      srcVal).trans (if_neg fun h => hne ?_)
    cases h
    rfl
  have hkeep : (s.apply (cleanDstOps s kc dst nx ++
      [.insertData (composeStringKey kc dst.bytes) srcVal])).at ⟨kc, src, slot⟩ =
      s.at ⟨kc, src, slot⟩ := by
    rw [Store.apply_append, hins, at_apply_cleanDstOps_of_ne hne hslot]
  rw [copyStringOps, Store.apply_append]
  cases deleteOld with
  | false => simpa using hkeep
  | true =>
    refine (Store.at_rm _ (a := ⟨kc, src, .str⟩) (b := ⟨kc, src, slot⟩) trivial hslot).trans ?_
    refine if_congr ?_ rfl hkeep
    rw [Addr.mk_eq_iff]
    simp

end

/-! ## When a copy is exact -/

/-- Stored metadata starts with the 26-byte header, as every type writes it. -/
def MetasEncoded (s : Store) : Prop :=
  ∀ (kc : KeyComposer) (key : Key) (tag : KeyTag) (v : Bytes), tag.isMeta = true →
    s.at ⟨kc, key, .metadata tag⟩ = some v → ∃ (m : KeyMeta) (t : Bytes), v = m.encode ++ t

def metaBody (x : KeyMeta × Bytes) : KeyMeta × Bytes :=
  ({ x.1 with version := 0 }, x.2.drop KeyMeta.encodedSize)

/-- What `dst` reads as in `s'` is what `src` reads as in `s`. -/
structure CarriesReads (s s' : Store) (kc : KeyComposer) (src dst : Key) (now : UInt64) : Prop where
  string : liveString s' kc dst now = liveString s kc src now
  metadata : ∀ tag ∈ allCompositeMetaTags,
    (liveMeta s' kc dst now tag).map metaBody = (liveMeta s kc src now tag).map metaBody
  slots : ∀ slot : Slot, slot.Valid → Readable s kc src now slot →
    s'.at ⟨kc, dst, slot⟩ = s.at ⟨kc, src, slot⟩

structure CopyCorrect (s s' : Store) (kc : KeyComposer) (src dst : Key) (now : UInt64)
    (deleteOld result : Bool) : Prop where
  carried : result = true → CarriesReads s s' kc src dst now
  kept : result = true → deleteOld = false → ∀ slot : Slot, slot.Valid →
    s'.at ⟨kc, src, slot⟩ = s.at ⟨kc, src, slot⟩
  moved : result = true → deleteOld = true →
    (∀ later, now ≤ later → liveString s' kc src later = none) ∧
      ∀ slot : Slot, slot.Valid → slot ≠ .str → s'.at ⟨kc, src, slot⟩ = none
  unchanged : result = false → s' = s

def copiedType (s : Store) (kc : KeyComposer) (src : Key) (now : UInt64) : Option KeyTag :=
  if (liveString s kc src now).isSome then none
  else (findActiveCompositeMeta s kc src now).map Prod.fst

def CopyProceeds (s : Store) (kc : KeyComposer) (src dst : Key) (now : UInt64) (nx : Bool) : Prop :=
  existsOne s kc src now = true ∧ (nx = true → existsOne s kc dst now = false)

/-- The source is live as one type, what the copy leaves out or behind reads the
same, and a move has nothing else to remove. -/
structure CopyExact (s : Store) (kc : KeyComposer) (src dst : Key) (now : UInt64)
    (nx deleteOld : Bool) : Prop where
  oneType : ∀ tag ∈ allCompositeMetaTags, copiedType s kc src now ≠ some tag →
    liveMeta s kc src now tag = none
  slots : ∀ slot : Slot, slot.Valid → Readable s kc src now slot →
    (∃ tag, copiedType s kc src now = some tag ∧ Copied tag slot ∧
      (s.at ⟨kc, src, slot⟩).isSome) ∨ residue s kc dst nx slot = s.at ⟨kc, src, slot⟩
  moved : deleteOld = true → ∀ slot : Slot, slot.Valid → slot ≠ .str →
    (∀ tag, copiedType s kc src now = some tag → slot ≠ .metadata tag ∧ ¬Copied tag slot) →
    s.at ⟨kc, src, slot⟩ = none

section
variable {s s' : Store} {kc : KeyComposer} {src dst : Key} {now newVersion : UInt64}
  {nx deleteOld : Bool} {tag : KeyTag} {m : KeyMeta} {rawMeta srcVal : Bytes}

theorem residue_str (nx : Bool) : residue s kc dst nx .str = if nx then s.at ⟨kc, dst, .str⟩ else none := by
  classical
  rw [residue, at_apply_cleanDstOps (b := ⟨kc, dst, .str⟩) trivial]
  cases nx <;> simp

theorem residue_metadata (htag : tag ∈ allCompositeMetaTags) :
    residue s kc dst nx (.metadata tag) = if nx then s.at ⟨kc, dst, .metadata tag⟩ else none := by
  classical
  rw [residue, at_apply_cleanDstOps (b := ⟨kc, dst, .metadata tag⟩)
    (allCompositeMetaTags_isMeta htag)]
  cases nx with
  | true => simp
  | false =>
    by_cases hsome : (s.at ⟨kc, dst, .metadata tag⟩).isSome = true
    · have hclean : CleanedUp s kc dst (.metadata tag) := ⟨tag, htag, hsome, Or.inl rfl⟩
      simp [hclean]
    · simp only [Option.not_isSome_iff_eq_none] at hsome
      simp [hsome]

theorem liveString_of_residue (hnx : nx = true → existsOne s kc dst now = false)
    (h : s'.at ⟨kc, dst, .str⟩ = residue s kc dst nx .str) : liveString s' kc dst now = none := by
  rw [residue_str] at h
  cases nx with
  | true => exact (liveString_congr h).trans (existsOne_eq_false.mp (hnx rfl)).1
  | false => exact liveString_of_at_none h

theorem liveMeta_of_residue (hnx : nx = true → existsOne s kc dst now = false)
    (htag : tag ∈ allCompositeMetaTags)
    (h : s'.at ⟨kc, dst, .metadata tag⟩ = residue s kc dst nx (.metadata tag)) :
    liveMeta s' kc dst now tag = none := by
  rw [residue_metadata htag] at h
  cases nx with
  | true => exact (liveMeta_congr h).trans ((existsOne_eq_false.mp (hnx rfl)).2 tag htag)
  | false => exact liveMeta_of_at_none h

theorem liveMeta_of_patched (hm : MetasEncoded s) (htag : tag.isMeta = true)
    (hlive : liveMeta s kc src now tag = some (m, rawMeta))
    (hat : s'.at ⟨kc, dst, .metadata tag⟩ = some (patchVersion rawMeta newVersion)) :
    (liveMeta s' kc dst now tag).map metaBody = some (metaBody (m, rawMeta)) := by
  rw [liveMeta_eq_at] at hlive
  obtain ⟨v, hv, hx⟩ : ∃ v, s.at ⟨kc, src, .metadata tag⟩ = some v ∧
      ((KeyMeta.decode v).map fun m => (m, v)).filter (fun x => !x.1.isExpired now) =
        some (m, rawMeta) := by
    cases hg : s.at ⟨kc, src, .metadata tag⟩ with
    | none => rw [hg] at hlive; cases hlive
    | some v => rw [hg] at hlive; exact ⟨v, rfl, hlive⟩
  obtain ⟨m', t, rfl⟩ := hm kc src tag v htag hv
  rw [KeyMeta.decode_encode_append, Option.map_some, Option.filter_eq_some_iff] at hx
  obtain ⟨he, hexp⟩ := hx
  cases he
  rw [liveMeta_eq_at, hat, patchVersion_encode]
  have hsame : ({ m with version := newVersion } : KeyMeta).isExpired now = m.isExpired now := rfl
  simp only [Option.bind_some, KeyMeta.decode_encode_append, Option.map_some]
  rw [Option.filter_eq_some_iff.mpr ⟨rfl, by rw [hsame]; exact hexp⟩, Option.map_some, metaBody,
    metaBody]
  have hdrop : ∀ k : KeyMeta, (k.encode ++ t).drop KeyMeta.encodedSize = t := fun k => by
    rw [← KeyMeta.encode_length k, List.drop_left]
  rw [hdrop, hdrop]

theorem copiedType_string (h : (liveString s kc src now).isSome = true) :
    copiedType s kc src now = none := if_pos h

theorem copiedType_composite (h : liveString s kc src now = none)
    (hf : findActiveCompositeMeta s kc src now = some (tag, m, rawMeta)) :
    copiedType s kc src now = some tag := by
  rw [copiedType, h, hf]
  rfl

theorem copyString_correct_iff (hne : src ≠ dst)
    (hnx : nx = true → existsOne s kc dst now = false)
    (hval : s.at ⟨kc, src, .str⟩ = some srcVal) (hlive : (liveString s kc src now).isSome = true)
    (hs : s' = s.apply (copyStringOps s kc src dst deleteOld nx srcVal)) :
    CopyCorrect s s' kc src dst now deleteOld true ↔ CopyExact s kc src dst now nx deleteOld := by
  have hkind := copiedType_string hlive
  have hdst : ∀ slot : Slot, slot.Valid → s'.at ⟨kc, dst, slot⟩ =
      if slot = .str then some srcVal else residue s kc dst nx slot := fun slot hslot => by
    rw [hs, at_dst_copyString hne hslot]
  have hsrc : ∀ slot : Slot, slot.Valid → s'.at ⟨kc, src, slot⟩ =
      if deleteOld = true ∧ slot = .str then none else s.at ⟨kc, src, slot⟩ := fun slot hslot => by
    rw [hs, at_src_copyString hne hslot]
  have hmeta : ∀ tag ∈ allCompositeMetaTags, liveMeta s' kc dst now tag = none :=
    fun tag htag => liveMeta_of_residue hnx htag (hdst _ (allCompositeMetaTags_isMeta htag))
  have hstr : liveString s' kc dst now = liveString s kc src now := by
    rw [liveString_eq_at, liveString_eq_at, hdst .str trivial, if_pos rfl, hval]
  have hread : ∀ slot, Readable s kc src now slot → slot ≠ .str := by
    rintro slot h rfl
    rw [h.1] at hlive
    cases hlive
  constructor
  · intro h
    refine ⟨fun tag htag _ => ?_, fun slot hslot hr => Or.inr ?_, fun hdel slot hslot hne' _ => ?_⟩
    · have hm := (h.carried rfl).metadata tag htag
      rw [hmeta tag htag, Option.map_none, eq_comm, Option.map_eq_none_iff] at hm
      exact hm
    · have hslots := (h.carried rfl).slots slot hslot hr
      rwa [hdst slot hslot, if_neg (hread slot hr)] at hslots
    · have hgone := (h.moved rfl hdel).2 slot hslot hne'
      rwa [hsrc slot hslot, if_neg fun hc => hne' hc.2] at hgone
  · intro h
    refine ⟨fun _ => ⟨hstr, fun tag htag => ?_, fun slot hslot hr => ?_⟩, fun _ hdel slot hslot => ?_,
      fun _ hdel => ⟨fun later _ => ?_, fun slot hslot hne' => ?_⟩, fun hf => by cases hf⟩
    · rw [hmeta tag htag, h.oneType tag htag (by simp [hkind])]
    · rw [hdst slot hslot, if_neg (hread slot hr)]
      rcases h.slots slot hslot hr with ⟨tag, htag, -⟩ | h
      · simp [hkind] at htag
      · exact h
    · rw [hsrc slot hslot, if_neg fun hc => by simp [hdel] at hc]
    · exact liveString_of_at_none (by rw [hsrc .str trivial, if_pos ⟨hdel, rfl⟩])
    · rw [hsrc slot hslot, if_neg fun hc => hne' hc.2]
      exact h.moved hdel slot hslot hne' fun tag htag => by simp [hkind] at htag

theorem copyComposite_correct_iff (hne : src ≠ dst) (hm : MetasEncoded s)
    (hnx : nx = true → existsOne s kc dst now = false) (hlive : liveString s kc src now = none)
    (hf : findActiveCompositeMeta s kc src now = some (tag, m, rawMeta))
    (hs : s' = s.apply (copyCompositeOps s kc src dst deleteOld nx newVersion tag rawMeta)) :
    CopyCorrect s s' kc src dst now deleteOld true ↔ CopyExact s kc src dst now nx deleteOld := by
  obtain ⟨hall, hmeta⟩ := findActive_spec hf
  have htag := allCompositeMetaTags_isMeta hall
  have hkind := copiedType_composite hlive hf
  have hdst : ∀ slot : Slot, slot.Valid → s'.at ⟨kc, dst, slot⟩ =
      if slot = .metadata tag then some (patchVersion rawMeta newVersion)
      else if Copied tag slot ∧ (s.at ⟨kc, src, slot⟩).isSome then s.at ⟨kc, src, slot⟩
      else residue s kc dst nx slot := fun slot hslot => by
    rw [hs, at_dst_copyComposite hne htag hslot]
  have hsrc : ∀ slot : Slot, slot.Valid → s'.at ⟨kc, src, slot⟩ =
      if deleteOld = true ∧ (slot = .metadata tag ∨ Copied tag slot) then none
      else s.at ⟨kc, src, slot⟩ := fun slot hslot => by
    rw [hs, at_src_copyComposite hne htag hslot]
  have hself : (liveMeta s' kc dst now tag).map metaBody = (liveMeta s kc src now tag).map metaBody := by
    rw [hmeta, Option.map_some]
    exact liveMeta_of_patched hm htag hmeta (by rw [hdst (.metadata tag) htag, if_pos rfl])
  have hother : ∀ u ∈ allCompositeMetaTags, u ≠ tag → liveMeta s' kc dst now u = none := by
    intro u hu hne'
    refine liveMeta_of_residue hnx hu ?_
    rw [hdst (.metadata u) (allCompositeMetaTags_isMeta hu), if_neg (by simpa using hne'),
      if_neg fun hc => not_copied_metadata u hc.1]
  have hstr : liveString s' kc dst now = liveString s kc src now := by
    rw [hlive]
    refine liveString_of_residue hnx ?_
    rw [hdst .str trivial, if_neg (by simp), if_neg]
    intro hc
    rcases copyDataTags_isData hc.1.2 with h | h
    · exact absurd h (by decide)
    · cases h
  have hread : ∀ slot, Readable s kc src now slot → slot ≠ .metadata tag := by
    rintro slot h rfl
    obtain ⟨-, u, -, hown, -⟩ := h
    cases hown
  constructor
  · intro h
    refine ⟨fun u hu hne' => ?_, fun slot hslot hr => ?_, fun hdel slot hslot hne' hc => ?_⟩
    · have hmu := (h.carried rfl).metadata u hu
      rw [hother u hu (by rintro rfl; exact hne' hkind), Option.map_none, eq_comm,
        Option.map_eq_none_iff] at hmu
      exact hmu
    · have hslots := (h.carried rfl).slots slot hslot hr
      rw [hdst slot hslot, if_neg (hread slot hr)] at hslots
      by_cases hc : Copied tag slot ∧ (s.at ⟨kc, src, slot⟩).isSome
      · exact Or.inl ⟨tag, hkind, hc⟩
      · rw [if_neg hc] at hslots
        exact Or.inr hslots
    · have hgone := (h.moved rfl hdel).2 slot hslot hne'
      obtain ⟨h1, h2⟩ := hc tag hkind
      rwa [hsrc slot hslot, if_neg fun hc => hc.2.elim h1 h2] at hgone
  · intro h
    refine ⟨fun _ => ⟨hstr, fun u hu => ?_, fun slot hslot hr => ?_⟩, fun _ hdel slot hslot => ?_,
      fun _ hdel => ⟨fun later hl => ?_, fun slot hslot hne' => ?_⟩, fun hf => by cases hf⟩
    · by_cases hut : u = tag
      · rw [hut]
        exact hself
      · rw [hother u hu hut, h.oneType u hu (by rw [hkind]; simpa using Ne.symm hut)]
    · rw [hdst slot hslot, if_neg (hread slot hr)]
      rcases h.slots slot hslot hr with ⟨u, hu, hc⟩ | hres
      · rw [hkind] at hu
        cases hu
        rw [if_pos hc]
      · rw [hres, ite_self]
    · rw [hsrc slot hslot, if_neg fun hc => by simp [hdel] at hc]
    · refine liveString_mono ?_ hl
      refine (liveString_congr ?_).trans hlive
      rw [hsrc .str trivial, if_neg]
      rintro ⟨-, hc | hc⟩
      · cases hc
      · rcases copyDataTags_isData hc.2 with h | h
        · exact absurd h (by decide)
        · cases h
    · rw [hsrc slot hslot]
      by_cases hc : slot = .metadata tag ∨ Copied tag slot
      · rw [if_pos ⟨hdel, hc⟩]
      · rw [if_neg fun h => hc h.2]
        refine h.moved hdel slot hslot hne' fun u hu => ?_
        rw [hkind] at hu
        cases hu
        exact ⟨fun h => hc (Or.inl h), fun h => hc (Or.inr h)⟩

theorem existsImpl_singleton (k : Key) :
    existsImpl s kc now [k] > 0 ↔ existsOne s kc k now = true := by
  cases h : existsOne s kc k now <;> simp [existsImpl, h]

theorem liveRaw_eq (s : Store) (kc : KeyComposer) (src : Key) (now : UInt64) :
    ((s.data.get (composeStringKey kc src.bytes)).filter
      fun srcVal => !isStringExpired (decodeStringValue srcVal).1 now) =
      if (liveString s kc src now).isSome then s.at ⟨kc, src, .str⟩ else none := by
  have hat : s.data.get (composeStringKey kc src.bytes) = s.at ⟨kc, src, .str⟩ := rfl
  rw [hat, liveString_eq_at]
  cases s.at ⟨kc, src, .str⟩ with
  | none => rfl
  | some v => by_cases h : isStringExpired (decodeStringValue v).1 now = true <;>
      simp [Option.filter, h]

end

/-- COPY and RENAME carry exactly the source when, and only when, the copy is exact. -/
theorem copyImpl_correct_iff {e e' : Engine} {kc : KeyComposer} {now newVersion : UInt64}
    {src dst : Key} {nx deleteOld r : Bool} (hne : src ≠ dst) (hm : MetasEncoded e.store)
    (h : copyImpl e kc now newVersion src dst nx deleteOld = .ok (r, e')) :
    CopyCorrect e.store e'.store kc src dst now deleteOld r ↔
      (CopyProceeds e.store kc src dst now nx → CopyExact e.store kc src dst now nx deleteOld) := by
  have hstay : ∀ u : Store, CopyCorrect u u kc src dst now deleteOld false := fun u =>
    ⟨fun hf => absurd hf Bool.false_ne_true, fun hf => absurd hf Bool.false_ne_true,
      fun hf => absurd hf Bool.false_ne_true, fun _ => rfl⟩
  rw [copyImpl, if_neg hne] at h
  split_ifs at h with hnx
  · cases h
    simp only [Bool.and_eq_true, decide_eq_true_eq, existsImpl_singleton] at hnx
    refine iff_of_true (hstay _) fun hp => ?_
    rw [hp.2 hnx.1] at hnx
    cases hnx.2
  · have hnx' : nx = true → existsOne e.store kc dst now = false := by
      rintro rfl
      simpa [existsImpl_singleton] using hnx
    rw [liveRaw_eq] at h
    by_cases hlive : (liveString e.store kc src now).isSome = true
    · rw [if_pos hlive] at h
      have hproceeds : CopyProceeds e.store kc src dst now nx := ⟨by simp [existsOne, hlive], hnx'⟩
      cases hval : e.store.at ⟨kc, src, .str⟩ with
      | none =>
        rw [liveString_of_at_none hval] at hlive
        cases hlive
      | some srcVal =>
        simp only [hval, bind, Except.bind] at h
        split at h
        · cases h
        · next e1 he =>
          cases h
          rw [imp_iff_right hproceeds]
          exact copyString_correct_iff hne hnx' hval hlive (Engine.commit_eq_ok he)
    · rw [if_neg hlive] at h
      simp only [Option.not_isSome_iff_eq_none] at hlive
      cases hf : findActiveCompositeMeta e.store kc src now with
      | none =>
        simp only [hf] at h
        cases h
        refine iff_of_true (hstay _) fun hp => ?_
        have hno : existsOne e.store kc src now = false := by simp [existsOne, hlive, hf]
        rw [hp.1] at hno
        cases hno
      | some x =>
        obtain ⟨tag, m, rawMeta⟩ := x
        have hproceeds : CopyProceeds e.store kc src dst now nx := ⟨by simp [existsOne, hf], hnx'⟩
        simp only [hf, bind, Except.bind] at h
        split at h
        · cases h
        · next e1 he =>
          cases h
          rw [imp_iff_right hproceeds]
          exact copyComposite_correct_iff hne hm hnx' hlive hf (Engine.commit_eq_ok he)

theorem MetasEncoded.apply {s : Store} {b : Batch} (h : MetasEncoded s)
    (hb : ∀ o ∈ b, o.partition = .metadata → ∀ v, o.value = some v →
      ∃ (m : KeyMeta) (t : Bytes), v = m.encode ++ t) : MetasEncoded (s.apply b) := by
  induction b generalizing s with
  | nil => exact h
  | cons o b ih =>
    refine ih (fun kc key tag v htag hv => ?_) fun x hx => hb x (List.mem_cons_of_mem _ hx)
    rw [Store.at, Store.part_applyOp_get] at hv
    split_ifs at hv with ho
    · exact hb o (by simp) ho.1 v hv
    · exact h kc key tag v htag hv

def oneHash : Except Error Engine := do
  let (_, ops) ← hset ∅ ⟨0, 0⟩ sampleKey 1 1 [([102], [1])]
  Engine.empty.commit ops

theorem oneHash_encoded {e : Engine} (h : oneHash = .ok e) : MetasEncoded e.store := by
  obtain ⟨hm, v, hops⟩ : ∃ (hm : HashMeta) (v : Bytes),
      hset ∅ ⟨0, 0⟩ sampleKey 1 1 [([102], [1])] =
        .ok (1, [.insertData (keyForField ⟨0, 0⟩ sampleKey [102]) v,
          .insertMeta (composeHashMetaKey ⟨0, 0⟩ sampleKey) hm.encode]) := ⟨_, _, rfl⟩
  simp only [oneHash, hops, bind, Except.bind] at h
  have hempty : MetasEncoded ∅ := fun kc key tag v _ hv => by cases hv
  rw [Engine.commit_eq_ok h]
  refine hempty.apply fun o ho hp w hw => ?_
  simp only [List.mem_cons, List.not_mem_nil, or_false] at ho
  rcases ho with rfl | rfl
  · cases hp
  · cases hw
    exact ⟨hm.base, _, rfl⟩

theorem copyImpl_correct_iff_oneHash :
    ∃ e e', oneHash = .ok e ∧
      copyImpl e ⟨0, 0⟩ 20 3 sampleKey sampleDst false false = .ok (true, e') ∧
      (CopyCorrect e.store e'.store ⟨0, 0⟩ sampleKey sampleDst 20 false true ↔
        (CopyProceeds e.store ⟨0, 0⟩ sampleKey sampleDst 20 false →
          CopyExact e.store ⟨0, 0⟩ sampleKey sampleDst 20 false false)) := by
  have hrun : (oneHash.bind fun e =>
      (copyImpl e ⟨0, 0⟩ 20 3 sampleKey sampleDst false false).map Prod.fst).toOption =
      some true := by
    decide +kernel
  obtain ⟨e, he, hrun⟩ := exists_ok_of_toOption_bind hrun
  obtain ⟨⟨r, e'⟩, hcopy, rfl⟩ := exists_ok_of_toOption_map hrun
  exact ⟨e, e', he, hcopy, copyImpl_correct_iff (by decide) (oneHash_encoded he) hcopy⟩

def hashBesideExpired : Except Error Engine := do
  let (_, ops) ← hset ∅ ⟨0, 0⟩ sampleKey 1 1 [([102], [1])]
  let e ← Engine.empty.commit ops
  let (_, ops) ← hset e.store ⟨0, 0⟩ sampleDst 1 2 [([103], [2])]
  let e ← e.commit ops
  e.commit (setKeyExpireAtImpl e.store ⟨0, 0⟩ sampleDst 1 10).2

def leftField : Slot := .sub .hashData [103]

/-- The expired field is read again after COPY NX. -/
theorem copyImpl_keeps_expired_field :
    ∃ e, hashBesideExpired = .ok e ∧
      ∃ e', copyImpl e ⟨0, 0⟩ 20 3 sampleKey sampleDst true false = .ok (true, e') ∧
        ¬CopyCorrect e.store e'.store ⟨0, 0⟩ sampleKey sampleDst 20 false true := by
  have hrun : (hashBesideExpired.bind fun e =>
      (copyImpl e ⟨0, 0⟩ 20 3 sampleKey sampleDst true false).map fun r =>
      ((r.1 && (liveString e.store ⟨0, 0⟩ sampleKey 20).isNone &&
          (liveMeta e.store ⟨0, 0⟩ sampleKey 20 .hashMeta).isSome &&
          (e.store.at ⟨⟨0, 0⟩, sampleKey, leftField⟩).isNone &&
          (r.2.store.at ⟨⟨0, 0⟩, sampleDst, leftField⟩).isSome))).toOption = some true := by
    decide +kernel
  obtain ⟨e, he, hrun⟩ := exists_ok_of_toOption_bind hrun
  obtain ⟨⟨r, e'⟩, hcopy, hreads⟩ := exists_ok_of_toOption_map hrun
  simp only [Bool.and_eq_true, Option.isNone_iff_eq_none] at hreads
  obtain ⟨⟨⟨⟨rfl, hstr⟩, hlive⟩, hsrc⟩, hdst⟩ := hreads
  refine ⟨e, he, e', hcopy, fun h => ?_⟩
  have hread : Readable e.store ⟨0, 0⟩ sampleKey 20 leftField :=
    ⟨hstr, .hashMeta, by decide, rfl, hlive⟩
  rw [(h.carried rfl).slots leftField rfl hread, hsrc] at hdst
  cases hdst

end Wedb
