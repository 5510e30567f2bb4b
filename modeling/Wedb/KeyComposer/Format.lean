import Wedb.KeyComposer.Stack

/-!
# One format for all composers

A metadata key ends with the user key; a data key has the user key behind its length and
in front of the parts of the subkey. Both are read back, and the data prefixes of two user
keys are not prefixes of one another.
-/

namespace Wedb

/-- No slice is longer than `isize::MAX` bytes. -/
def IsSlice (bs : Bytes) : Prop := bs.length < 2 ^ 63

namespace KeyComposer
open SmallKey

def endsWithUserKey : KeyTag → Bool
  | .rawString | .hashMeta | .listMeta | .setMeta | .zSetMeta | .bloomMeta | .cuckooMeta
  | .bitmapMeta | .hllMeta | .hllRaw | .jsonMeta | .sortedIntMeta | .streamMeta | .tDigestMeta
  | .timeSeriesMeta | .ftSchema | .ftAlias => true
  | .hashData | .listData | .setData | .zSetData | .zSetScore | .bloomData | .cuckooData
  | .bitmapData | .jsonData | .sortedIntData | .streamData | .streamGroup | .streamConsumer
  | .streamPel | .tDigestData | .timeSeriesData | .ftIndex | .ftData => false

def extractUserKey (kc : KeyComposer) (fullKey : Bytes) : Option Bytes :=
  if kc.encodeScopePrefix.isPrefixOf fullKey then
    match fullKey.drop kc.encodeScopePrefix.length with
    | [] => none
    | b :: rest => do
      let tag ← KeyTag.fromU8 b
      if endsWithUserKey tag then some rest
      else
        let (keyLen, consumed) ← decodeOppvU64 rest
        if consumed + keyLen.toNat ≤ rest.length then some ((rest.drop consumed).take keyLen.toNat)
        else none
  else none

def recover (fullKey : Bytes) : Option (KeyComposer × UInt8 × Bytes) := do
  let (kc, _, remain) ← parseScopedPrefix fullKey
  let key ← kc.extractUserKey fullKey
  some (kc, remain.headD 0, key)

def metaLayout (kc : KeyComposer) (tag : UInt8) (key : Bytes) : Bytes :=
  0 :: (encodeOppvU64 kc.nsId ++ encodeOppvU64 kc.db ++ [tag] ++ key)

def dataLayout (kc : KeyComposer) (tag : UInt8) (key parts : Bytes) : Bytes :=
  0 :: (encodeOppvU64 kc.nsId ++ encodeOppvU64 kc.db ++ [tag] ++ encodeOppvU64 (keyLen key) ++ key ++
    parts)

variable {kc kc' : KeyComposer} {t t' : UInt8} {key key' parts parts' : Bytes}

theorem metaLayout_eq (kc : KeyComposer) (t : UInt8) (key : Bytes) :
    metaLayout kc t key = kc.encodeScopePrefix ++ t :: key := by
  simp [metaLayout, encodeScopePrefix]

theorem dataLayout_eq (kc : KeyComposer) (t : UInt8) (key parts : Bytes) :
    dataLayout kc t key parts =
      kc.encodeScopePrefix ++ t :: (encodeOppvU64 (keyLen key) ++ (key ++ parts)) := by
  simp [dataLayout, encodeScopePrefix]

theorem composePrefixStack_append (kc : KeyComposer) (t : UInt8) (key parts : Bytes) :
    kc.composePrefixStack [t] key ++ parts = dataLayout kc t key parts := by
  simp [dataLayout_eq]

theorem toNat_keyLen (h : IsSlice key) : (keyLen key).toNat = key.length := by
  rw [IsSlice] at h
  exact UInt64.toNat_ofNat_of_lt' (show key.length < 2 ^ 64 by omega)

theorem keyLen_delimited (h : IsSlice key) (h' : IsSlice key')
    (heq : encodeOppvU64 (keyLen key) ++ (key ++ parts) =
      encodeOppvU64 (keyLen key') ++ (key' ++ parts')) : key = key' ∧ parts = parts' := by
  obtain ⟨hlen, hrest⟩ := encodeOppvU64_delimited heq
  have hnat : key.length = key'.length := by
    rw [← toNat_keyLen h, ← toNat_keyLen h', hlen]
  exact List.append_inj hrest hnat

theorem dataLayout_inj (h : IsSlice key) (h' : IsSlice key')
    (heq : dataLayout kc t key parts = dataLayout kc' t' key' parts') :
    kc = kc' ∧ t = t' ∧ key = key' ∧ parts = parts' := by
  rw [dataLayout_eq, dataLayout_eq] at heq
  obtain ⟨hkc, hrest⟩ := encodeScopePrefix_delimited heq
  rw [List.cons.injEq] at hrest
  obtain ⟨hkey, hparts⟩ := keyLen_delimited h h' hrest.2
  exact ⟨hkc, hrest.1, hkey, hparts⟩

theorem metaLayout_inj (heq : metaLayout kc t key = metaLayout kc' t' key') :
    kc = kc' ∧ t = t' ∧ key = key' := by
  rw [metaLayout_eq, metaLayout_eq] at heq
  obtain ⟨hkc, hrest⟩ := encodeScopePrefix_delimited heq
  rw [List.cons.injEq] at hrest
  exact ⟨hkc, hrest.1, hrest.2⟩

theorem dataLayout_prefix (h : IsSlice key) (h' : IsSlice key')
    (hp : dataLayout kc t key [] <+: dataLayout kc t key' parts) : key = key' := by
  obtain ⟨s, hs⟩ := hp
  have heq : dataLayout kc t key s = dataLayout kc t key' parts := by
    rw [← hs]
    simp [dataLayout]
  exact (dataLayout_inj h h' heq).2.2.1

/-! ## Reading a key back -/

theorem extractUserKey_scope (kc : KeyComposer) (t : UInt8) (rest : Bytes) :
    kc.extractUserKey (kc.encodeScopePrefix ++ t :: rest) = (KeyTag.fromU8 t).bind fun tag =>
      if endsWithUserKey tag then some rest
      else (decodeOppvU64 rest).bind fun d =>
        if d.2 + d.1.toNat ≤ rest.length then some ((rest.drop d.2).take d.1.toNat) else none := by
  rw [extractUserKey, if_pos (List.isPrefixOf_iff_prefix.mpr (List.prefix_append _ _)), List.drop_left]
  rfl

theorem recover_scope (kc : KeyComposer) (t : UInt8) (rest : Bytes) :
    recover (kc.encodeScopePrefix ++ t :: rest) =
      (kc.extractUserKey (kc.encodeScopePrefix ++ t :: rest)).map fun key => (kc, t, key) := by
  rw [recover, parseScopedPrefix_scope kc (List.cons_ne_nil t rest), Option.bind_eq_bind,
    Option.bind_some]
  cases h : kc.extractUserKey (kc.encodeScopePrefix ++ t :: rest) with
  | none => simp only [h, Option.bind_eq_bind, Option.bind_none, Option.map_none]
  | some key => simp only [h, Option.bind_eq_bind, Option.bind_some, Option.map_some, List.headD_cons]

theorem recover_metaLayout (kc : KeyComposer) {tag : KeyTag} (htag : endsWithUserKey tag = true)
    (key : Bytes) : recover (metaLayout kc tag.asU8 key) = some (kc, tag.asU8, key) := by
  rw [metaLayout_eq, recover_scope, extractUserKey_scope, KeyTag.fromU8_asU8, Option.bind_some,
    if_pos htag]
  rfl

theorem recover_dataLayout (kc : KeyComposer) {tag : KeyTag} (htag : endsWithUserKey tag = false)
    (h : IsSlice key) (parts : Bytes) :
    recover (dataLayout kc tag.asU8 key parts) = some (kc, tag.asU8, key) := by
  have hslice : ((encodeOppvU64 (keyLen key) ++ (key ++ parts)).drop (oppvLenU64 (keyLen key))).take
      key.length = key := by
    rw [← encodeOppvU64_length, List.drop_left, List.take_left]
  rw [dataLayout_eq, recover_scope, extractUserKey_scope, KeyTag.fromU8_asU8, Option.bind_some, htag,
    if_neg Bool.false_ne_true, decodeOppvU64_encodeOppvU64, Option.bind_some, toNat_keyLen h, hslice,
    if_pos]
  · rfl
  · simp [encodeOppvU64_length]

/-- A tag that no record has is not read back. -/
theorem recover_unknownTag : ¬∀ (kc : KeyComposer) (t : UInt8) (key : Bytes),
    recover (metaLayout kc t key) = some (kc, t, key) := by
  intro h
  exact absurd (h ⟨0, 0⟩ 0x23 []) (by decide)

/-- All composers write the two layouts, which are read back under the tags of the records. -/
theorem keyComposer_oneFormat (kc : KeyComposer) (t : UInt8) (key key' : Bytes) (hkey : IsSlice key)
    (hkey' : IsSlice key') (mid sub sub1 sub2 : Bytes) (earlier : List Bytes) (extraLen : ℕ) :
    (kc.composeMetaKeyInto [t] key = metaLayout kc t key ∧
      Builds (Stack.composeMetaKeyStack kc [t] key) (metaLayout kc t key)) ∧
    (kc.composePrefixIntoWithExtra [t] key extraLen = dataLayout kc t key [] ∧
      Builds (Stack.composePrefixStack kc [t] key) (dataLayout kc t key []) ∧
      ((earlier.foldl SubkeyComposer.composeSub
        (.new (kc.composePrefixIntoWithExtra [t] key extraLen))).composeSub sub).buf =
          dataLayout kc t key sub ∧
      Builds (Stack.composeSubkeyStack kc [t] key sub) (dataLayout kc t key sub) ∧
      Builds (Stack.composeSubkey2Stack kc [t] key sub1 sub2) (dataLayout kc t key (sub1 ++ sub2)) ∧
      Builds (Stack.composeOppvSubkeyStack kc [t] key mid sub)
        (dataLayout kc t key (encodeOppvU64 (keyLen mid) ++ mid ++ sub))) ∧
    (∀ tag : KeyTag,
      (endsWithUserKey tag = true →
        recover (metaLayout kc tag.asU8 key) = some (kc, tag.asU8, key)) ∧
      (endsWithUserKey tag = false → ∀ parts,
        recover (dataLayout kc tag.asU8 key parts) = some (kc, tag.asU8, key))) ∧
    (∀ kc' t', (metaLayout kc t key = metaLayout kc' t' key' → kc = kc' ∧ t = t' ∧ key = key') ∧
      ∀ parts parts', dataLayout kc t key parts = dataLayout kc' t' key' parts' →
        kc = kc' ∧ t = t' ∧ key = key' ∧ parts = parts') ∧
    (key ≠ key' → ¬dataLayout kc t key [] <+: dataLayout kc t key' []) := by
  have hextra : kc.composePrefixIntoWithExtra [t] key extraLen = dataLayout kc t key [] := by
    rw [composePrefixIntoWithExtra_eq, composePrefixInto_eq, ← composePrefixStack_append,
      List.append_nil]
  have hparts : ∀ parts, dataLayout kc t key [] ++ parts = dataLayout kc t key parts := fun parts => by
    simp [dataLayout]
  have hstack : ∀ extra : List Bytes, Builds (Stack.tryComposeStackKey kc [t] key extra)
      (dataLayout kc t key extra.flatten) := fun extra => by
    have h := tryComposeStackKey_builds kc [t] key extra
    rwa [tryComposeStackKey_eq, ← composePrefixStack_eq, composePrefixStack_append] at h
  refine ⟨⟨?_, ?_⟩, ⟨hextra, hstack [], ?_, ?_, ?_, ?_⟩, fun tag => ⟨?_, ?_⟩,
    fun kc' t' => ⟨metaLayout_inj, fun parts parts' => dataLayout_inj hkey hkey'⟩, ?_⟩
  · rw [composeMetaKeyInto_eq, metaLayout_eq, List.append_assoc, List.singleton_append]
  · have h := composeMetaKeyStack_builds kc [t] key
    rwa [composeMetaKeyInto_eq, List.append_assoc, List.singleton_append, ← metaLayout_eq] at h
  · rw [SubkeyComposer.composeSub_buf, hextra, hparts]
  · have h := hstack [sub]
    rwa [List.flatten_singleton] at h
  · have h := hstack [sub1, sub2]
    rwa [List.flatten_cons, List.flatten_singleton] at h
  · have h := composeOppvSubkeyStack_builds kc [t] key mid sub
    rwa [composeOppvSubkeyStack_eq, composePrefixStack_append] at h
  · exact fun htag => recover_metaLayout kc htag key
  · exact fun htag parts => recover_dataLayout kc htag hkey parts
  · exact fun hne hp => hne ( dataLayout_prefix hkey hkey' hp)

theorem keyComposer_oneFormat_sample :
    recover (metaLayout ⟨1, 200⟩ KeyTag.hashMeta.asU8 [7]) = some (⟨1, 200⟩, 1, [7]) ∧
    recover (dataLayout ⟨1, 200⟩ KeyTag.hashData.asU8 [7] [9]) = some (⟨1, 200⟩, 2, [7]) ∧
    ¬dataLayout ⟨1, 200⟩ 2 [7] [] <+: dataLayout ⟨1, 200⟩ 2 [7, 7] [] :=
  have h := keyComposer_oneFormat ⟨1, 200⟩ 2 [7] [7, 7] (show 1 < 2 ^ 63 by omega)
    (show 2 < 2 ^ 63 by omega) [] [] [] [] [] 0
  ⟨(h.2.2.1 .hashMeta).1 rfl, (h.2.2.1 .hashData).2 rfl [9], h.2.2.2.2 (by decide)⟩

end KeyComposer

end Wedb
