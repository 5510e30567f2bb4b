import Wedb.Key.Lookup

/-!
# Clearing the data of a key

Each composite type owns some framed families of the data partition; time series
and search indexes own families of the metadata partition too, and HyperLogLog
owns one exact key. Clearing a type scans the committed store and queues the
removal of all it owns. Cleared slots are gone whatever was queued before, and
every other slot keeps what it has. Reads look at the slots of a live type only,
except that the pending entries of a stream are listed without its metadata.
-/

namespace Wedb

def clearPrefixInBatch (s : Store) (p : Partition) (pre : Bytes) : Batch := s.rmPrefixed p pre

def cleanupFamilies : KeyTag → List (Partition × KeyTag)
  | .hashMeta => [(.data, .hashData)]
  | .listMeta => [(.data, .listData)]
  | .setMeta => [(.data, .setData)]
  | .zSetMeta => [(.data, .zSetData), (.data, .zSetScore)]
  | .bitmapMeta => [(.data, .bitmapData)]
  | .bloomMeta => [(.data, .bloomData)]
  | .cuckooMeta => [(.data, .cuckooData)]
  | .sortedIntMeta => [(.data, .sortedIntData)]
  | .timeSeriesMeta => [(.data, .timeSeriesData), (.metadata, .timeSeriesData)]
  | .streamMeta =>
    [(.data, .streamData), (.data, .streamGroup), (.data, .streamConsumer), (.data, .streamPel)]
  | .jsonMeta => [(.data, .jsonData)]
  | .tDigestMeta => [(.data, .tDigestData)]
  | .ftSchema | .ftAlias =>
    [(.data, .ftIndex), (.metadata, .ftIndex), (.data, .ftData), (.metadata, .ftData)]
  | _ => []

def cleanupCompositeDataRaw (s : Store) (kc : KeyComposer) (metaTag : UInt8) (kBytes : Bytes) :
    Batch :=
  match KeyTag.fromU8 metaTag with
  | some .hllMeta => [.rmData (kc.composeMetaKeyStack KeyTag.hllRaw.asSlice kBytes)]
  | some tag => (cleanupFamilies tag).flatMap fun f =>
    clearPrefixInBatch s f.1 (kc.composePrefixStack f.2.asSlice kBytes)
  | none => []

def cleanupCompositeData (s : Store) (kc : KeyComposer) (metaTag : KeyTag) (key : Key) : Batch :=
  cleanupCompositeDataRaw s kc metaTag.asU8 key.bytes

def rmMetaWithData (s : Store) (kc : KeyComposer) (metaTag : KeyTag) (key : Key) : Batch :=
  .rmMeta (kc.composeMetaKeyStack metaTag.asSlice key.bytes) :: cleanupCompositeData s kc metaTag key

def cleanupAllCompositeDataWithBuf (s : Store) (kc : KeyComposer) (key : Key) : Batch :=
  if s.metadata.isEmpty then []
  else allCompositeMetaTags.flatMap fun metaTag =>
    if s.metadata.contains (kc.composeMetaKeyStack metaTag.asSlice key.bytes) then
      rmMetaWithData s kc metaTag key
    else []

/-! ## What a type owns -/

def Slot.ownedBy (tag : KeyTag) : Slot → Bool
  | sub t _ => decide ((Partition.data, t) ∈ cleanupFamilies tag)
  | rule _ => decide ((Partition.metadata, KeyTag.timeSeriesData) ∈ cleanupFamilies tag)
  | hllRaw => tag == .hllMeta
  | _ => false

theorem cleanupFamilies_isFramed {tag : KeyTag} {f : Partition × KeyTag}
    (hf : f ∈ cleanupFamilies tag) : f.2.isFramed = true := by
  have h : ∀ t ∈ KeyTag.all, ∀ g ∈ cleanupFamilies t, g.2.isFramed = true := by decide
  exact h tag (KeyTag.mem_all tag) f hf

theorem Slot.ownedBy_iff {tag : KeyTag} {slot : Slot} (hraw : slot ≠ .hllRaw) :
    slot.ownedBy tag = true ↔
      ∃ f ∈ cleanupFamilies tag, slot.partition = f.1 ∧ slot.inFamily f.2 = true := by
  cases slot with
  | str | metadata => simp [ownedBy, inFamily]
  | hllRaw => exact absurd rfl hraw
  | sub t suffix =>
    simp only [ownedBy, decide_eq_true_eq, partition, inFamily, beq_iff_eq]
    constructor
    · exact fun h => ⟨_, h, rfl, rfl⟩
    · rintro ⟨⟨p, u⟩, h, rfl, rfl⟩
      exact h
  | rule suffix =>
    simp only [ownedBy, decide_eq_true_eq, partition, inFamily, beq_iff_eq]
    constructor
    · exact fun h => ⟨_, h, rfl, rfl⟩
    · rintro ⟨⟨p, u⟩, h, rfl, rfl⟩
      exact h

theorem Slot.ownedBy_inj {slot : Slot} {t u : KeyTag} (ht : t ∈ allCompositeMetaTags)
    (h1 : slot.ownedBy t = true) (h2 : slot.ownedBy u = true) : t = u := by
  have h : ∀ t ∈ allCompositeMetaTags, ∀ u ∈ KeyTag.all, ∀ f ∈ cleanupFamilies t,
      f ∈ cleanupFamilies u → t = u := by decide
  cases slot with
  | str | metadata => simp [ownedBy] at h1
  | hllRaw =>
    simp only [ownedBy, beq_iff_eq] at h1 h2
    rw [h1, h2]
  | sub v suffix =>
    simp only [ownedBy, decide_eq_true_eq] at h1 h2
    exact h t ht u (KeyTag.mem_all u) _ h1 h2
  | rule suffix =>
    simp only [ownedBy, decide_eq_true_eq] at h1 h2
    exact h t ht u (KeyTag.mem_all u) _ h1 h2

section
variable {s t : Store} {kc : KeyComposer} {key : Key} {tag : KeyTag} {b : Addr}

theorem clearFamilies_value {fs : List (Partition × KeyTag)} {o : WriteOp}
    (ho : o ∈ fs.flatMap fun f => clearPrefixInBatch s f.1
      (kc.composePrefixStack f.2.asSlice key.bytes)) : o.value = none := by
  obtain ⟨f, -, hf⟩ := List.mem_flatMap.mp ho
  exact Store.rmPrefixed_value hf

theorem at_apply_clearFamilies {fs : List (Partition × KeyTag)}
    (hfs : ∀ f ∈ fs, f.2.isFramed = true) (hb : b.slot.Valid)
    (hst : s.at b = none → t.at b = none) :
    (t.apply (fs.flatMap fun f => clearPrefixInBatch s f.1
      (kc.composePrefixStack f.2.asSlice key.bytes))).at b =
      if b.kc = kc ∧ b.key = key ∧
        ∃ f ∈ fs, b.slot.partition = f.1 ∧ b.slot.inFamily f.2 = true then none
      else t.at b := by
  induction fs generalizing t with
  | nil => simp
  | cons f fs ih =>
    have hclear := Store.at_apply_rmPrefixed f.1 kc key (t := t)
      (hfs f (by simp)) hb hst
    rw [List.flatMap_cons, Store.apply_append,
      ih (fun g hg => hfs g (List.mem_cons_of_mem _ hg)) fun h => by
        rw [clearPrefixInBatch, hclear, hst h, ite_self], clearPrefixInBatch, hclear]
    simp only [List.mem_cons, exists_eq_or_imp]
    by_cases h1 : b.kc = kc ∧ b.key = key
    · by_cases h2 : b.slot.partition = f.1 ∧ b.slot.inFamily f.2 = true
      · simp [h1, h2]
      · have h3 : ¬(b.slot.partition = f.1 ∧ b.kc = kc ∧ b.key = key ∧
            b.slot.inFamily f.2 = true) := fun h => h2 ⟨h.1, h.2.2.2⟩
        simp only [h3, h2, if_false, false_or]
    · have h3 : ¬(b.slot.partition = f.1 ∧ b.kc = kc ∧ b.key = key ∧
          b.slot.inFamily f.2 = true) := fun h => h1 ⟨h.2.1, h.2.2.1⟩
      rw [if_neg fun h => h1 ⟨h.1, h.2.1⟩, if_neg h3, if_neg fun h => h1 ⟨h.1, h.2.1⟩]

theorem cleanupCompositeData_value {o : WriteOp} (ho : o ∈ cleanupCompositeData s kc tag key) :
    o.value = none := by
  simp only [cleanupCompositeData, cleanupCompositeDataRaw, KeyTag.fromU8_asU8] at ho
  split at ho
  · rw [List.mem_singleton.mp ho]
    rfl
  · exact clearFamilies_value ho
  · cases ho

theorem at_apply_cleanupCompositeData (hb : b.slot.Valid) (hst : s.at b = none → t.at b = none) :
    (t.apply (cleanupCompositeData s kc tag key)).at b =
      if b.kc = kc ∧ b.key = key ∧ b.slot.ownedBy tag = true then none else t.at b := by
  simp only [cleanupCompositeData, cleanupCompositeDataRaw, KeyTag.fromU8_asU8]
  by_cases htag : tag = .hllMeta
  · subst htag
    have hrm := Store.at_rm t (a := ⟨kc, key, .hllRaw⟩) (b := b) trivial hb
    refine hrm.trans (if_congr ?_ rfl rfl)
    obtain ⟨kc', key', slot⟩ := b
    cases slot <;> simp [Slot.ownedBy, cleanupFamilies, eq_comm]
  · have hmatch : (match some tag with
        | some .hllMeta => [.rmData (kc.composeMetaKeyStack KeyTag.hllRaw.asSlice key.bytes)]
        | some tag => (cleanupFamilies tag).flatMap fun f =>
          clearPrefixInBatch s f.1 (kc.composePrefixStack f.2.asSlice key.bytes)
        | none => []) = (cleanupFamilies tag).flatMap fun f =>
          clearPrefixInBatch s f.1 (kc.composePrefixStack f.2.asSlice key.bytes) := by
      cases tag <;> first | rfl | exact absurd rfl htag
    rw [hmatch, at_apply_clearFamilies (fun f hf => cleanupFamilies_isFramed hf) hb hst]
    refine if_congr (and_congr_right fun _ => and_congr_right fun _ => ?_) rfl rfl
    by_cases hraw : b.slot = .hllRaw
    · rw [hraw]
      simp [Slot.ownedBy, Slot.inFamily, htag]
    · exact (Slot.ownedBy_iff hraw).symm

theorem rmMetaWithData_value {o : WriteOp} (ho : o ∈ rmMetaWithData s kc tag key) :
    o.value = none := by
  rcases List.mem_cons.mp ho with rfl | ho
  · rfl
  · exact cleanupCompositeData_value ho

theorem at_apply_rmMetaWithData (kc : KeyComposer) (key : Key) (htag : tag.isMeta = true) (hb : b.slot.Valid)
    (hst : s.at b = none → t.at b = none) :
    (t.apply (rmMetaWithData s kc tag key)).at b =
      if b.kc = kc ∧ b.key = key ∧ (b.slot = .metadata tag ∨ b.slot.ownedBy tag = true) then none
      else t.at b := by
  have hrm := Store.at_rm t (a := ⟨kc, key, .metadata tag⟩) (b := b) htag hb
  rw [rmMetaWithData, Store.apply_cons]
  refine (at_apply_cleanupCompositeData hb fun h => ?_).trans ?_
  · refine hrm.trans ?_
    rw [hst h, ite_self]
  · obtain ⟨kc', key', slot⟩ := b
    have heq : (⟨kc, key, .metadata tag⟩ : Addr) = ⟨kc', key', slot⟩ ↔
        kc' = kc ∧ key' = key ∧ slot = .metadata tag := by
      rw [Addr.mk.injEq]
      exact ⟨fun h => ⟨h.1.symm, h.2.1.symm, h.2.2.symm⟩, fun h => ⟨h.1.symm, h.2.1.symm, h.2.2.symm⟩⟩
    refine (if_congr Iff.rfl rfl (hrm.trans (if_congr heq rfl rfl))).trans ?_
    by_cases h1 : kc' = kc <;> by_cases h2 : key' = key <;> by_cases h3 : slot = .metadata tag <;>
      by_cases h4 : slot.ownedBy tag = true <;> simp [h1, h2, h3, h4]

theorem allCompositeMetaTags_isMeta {tag : KeyTag} (h : tag ∈ allCompositeMetaTags) :
    tag.isMeta = true := by
  have hall : ∀ t ∈ allCompositeMetaTags, t.isMeta = true := by decide
  exact hall tag h

/-- The slots of a key that go with its stored metadata. -/
def CleanedUp (s : Store) (kc : KeyComposer) (key : Key) (slot : Slot) : Prop :=
  ∃ tag ∈ allCompositeMetaTags, (s.at ⟨kc, key, .metadata tag⟩).isSome ∧
    (slot = .metadata tag ∨ slot.ownedBy tag = true)

theorem cleanupAll_eq (s : Store) (kc : KeyComposer) (key : Key) :
    cleanupAllCompositeDataWithBuf s kc key = allCompositeMetaTags.flatMap fun metaTag =>
      if (s.at ⟨kc, key, .metadata metaTag⟩).isSome then rmMetaWithData s kc metaTag key else [] := by
  unfold cleanupAllCompositeDataWithBuf
  split_ifs with h
  · rw [eq_comm, List.flatMap_eq_nil_iff]
    intro tag _
    have hnone : s.at ⟨kc, key, .metadata tag⟩ = none := SortedMap.get_of_isEmpty h _
    simp [hnone]
  · rfl

theorem at_apply_rmMetas {tags : List KeyTag} (htags : ∀ tag ∈ tags, tag.isMeta = true)
    (hb : b.slot.Valid) (hst : s.at b = none → t.at b = none) :
    (t.apply (tags.flatMap fun metaTag =>
      if (s.at ⟨kc, key, .metadata metaTag⟩).isSome then rmMetaWithData s kc metaTag key
      else [])).at b =
      if b.kc = kc ∧ b.key = key ∧ ∃ tag ∈ tags, (s.at ⟨kc, key, .metadata tag⟩).isSome ∧
        (b.slot = .metadata tag ∨ b.slot.ownedBy tag = true) then none else t.at b := by
  induction tags generalizing t with
  | nil => simp
  | cons tag tags ih =>
    have htags' : ∀ u ∈ tags, u.isMeta = true := fun u hu => htags u (List.mem_cons_of_mem _ hu)
    have hone := at_apply_rmMetaWithData (t := t) kc key
      (htags tag (by simp)) hb hst
    rw [List.flatMap_cons, Store.apply_append]
    simp only [List.mem_cons, exists_eq_or_imp]
    by_cases hsome : (s.at ⟨kc, key, .metadata tag⟩).isSome = true
    · rw [if_pos hsome, ih htags' fun h => by rw [hone, hst h, ite_self], hone]
      by_cases h1 : b.kc = kc ∧ b.key = key
      · simp only [h1, hsome, true_and]
        by_cases h2 : b.slot = .metadata tag ∨ b.slot.ownedBy tag = true
        · simp [h2]
        · simp [h2]
      · rw [if_neg fun h => h1 ⟨h.1, h.2.1⟩, if_neg fun h => h1 ⟨h.1, h.2.1⟩,
          if_neg fun h => h1 ⟨h.1, h.2.1⟩]
    · rw [if_neg hsome, Store.apply_nil, ih htags' hst]
      simp [hsome]

open Classical in
theorem at_apply_cleanupAll (hb : b.slot.Valid) (hst : s.at b = none → t.at b = none) :
    (t.apply (cleanupAllCompositeDataWithBuf s kc key)).at b =
      if b.kc = kc ∧ b.key = key ∧ CleanedUp s kc key b.slot then none else t.at b := by
  rw [cleanupAll_eq, at_apply_rmMetas (fun tag h => allCompositeMetaTags_isMeta h) hb hst]
  exact if_congr Iff.rfl rfl rfl

end

/-- The slots a read at time `t` may look at. -/
def Readable (s : Store) (kc : KeyComposer) (key : Key) (t : UInt64) : Slot → Prop
  | .sub .streamPel _ => True
  | slot => liveString s kc key t = none ∧
      ∃ tag ∈ allCompositeMetaTags, slot.ownedBy tag = true ∧ (liveMeta s kc key t tag).isSome

end Wedb
