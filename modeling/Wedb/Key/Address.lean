import Wedb.Meta.KeyMeta
import Wedb.Core.Catalog

/-!
# String values

A string is stored as a nine-byte header with its expiry and its payload. A
value without the header is a payload that never expires.
-/

namespace Wedb

def stringHdrSize : ℕ := KeyMeta.kvrocksSingleKvEncodedSize

def stringHeaderFlag : UInt8 := KeyMeta.meta64bitEncodingMask ||| RedisType.string.asU8

def encodeStringHeader (expireAtMs : UInt64) : Bytes := stringHeaderFlag :: expireAtMs.toBeBytes

def encodeStringValue (value : Bytes) (expireAtMs : UInt64) : Bytes :=
  encodeStringHeader expireAtMs ++ value

def decodeStringValue (raw : Bytes) : UInt64 × Bytes :=
  if raw.length ≥ stringHdrSize ∧ raw.head? = some stringHeaderFlag then
    (readU64 raw 1, raw.drop stringHdrSize)
  else (0, raw)

def isStringExpired (expireAtMs nowMs : UInt64) : Bool :=
  decide (expireAtMs > 0) && decide (expireAtMs ≤ nowMs)

def composeStringKey (kc : KeyComposer) (key : Bytes) : Bytes :=
  kc.composeMetaKeyStack KeyTag.rawString.asSlice key

theorem decodeStringValue_encodeStringValue (value : Bytes) (expireAtMs : UInt64) :
    decodeStringValue (encodeStringValue value expireAtMs) = (expireAtMs, value) := by
  have hread : readU64 (stringHeaderFlag :: (expireAtMs.toBeBytes ++ value)) 1 = expireAtMs :=
    KeyMeta.readU64_append (a := [stringHeaderFlag]) expireAtMs rfl
  have hdrop : (encodeStringHeader expireAtMs ++ value).drop stringHdrSize = value := by
    have hlen : (encodeStringHeader expireAtMs).length = stringHdrSize := by
      simp [encodeStringHeader, stringHdrSize, KeyMeta.kvrocksSingleKvEncodedSize]
    rw [← hlen, List.drop_left]
  have hlong : (encodeStringValue value expireAtMs).length ≥ stringHdrSize := by
    simp [encodeStringValue, encodeStringHeader, stringHdrSize, KeyMeta.kvrocksSingleKvEncodedSize]
  rw [decodeStringValue, if_pos ⟨hlong, rfl⟩]
  exact Prod.ext hread hdrop

theorem isStringExpired_mono {exp now t : UInt64} (h : isStringExpired exp now = true)
    (ht : now ≤ t) : isStringExpired exp t = true := by
  simp only [isStringExpired, Bool.and_eq_true, decide_eq_true_eq] at h ⊢
  exact ⟨h.1, h.2.trans ht⟩

/-!
## Logical addresses

What a database stores under a user key sits in slots: its string, one metadata
entry for each composite type, the HyperLogLog registers, the subkeys of the
length-framed families, and the time-series rules kept in the metadata
partition. Distinct addresses have distinct physical keys, and the keys with a
family's prefix are exactly that family's slots, so a write is seen only by
reads of its own address.
-/

/-- User keys and group names are slices, whose length fits a `usize`. -/
structure Key where
  bytes : Bytes
  length_lt : bytes.length < 2 ^ 63
  deriving DecidableEq

@[ext] theorem Key.ext {a b : Key} (h : a.bytes = b.bytes) : a = b := by
  cases a
  cases b
  simpa using h

def sampleKey : Key := ⟨[107], by decide⟩

def sampleDst : Key := ⟨[100], by decide⟩

def KeyTag.isFramed (t : KeyTag) : Bool := t.isData && t != .hllRaw

inductive Slot
  | str
  | metadata (tag : KeyTag)
  | hllRaw
  | sub (tag : KeyTag) (suffix : Bytes)
  | rule (suffix : Bytes)
  deriving DecidableEq

namespace Slot

def Valid : Slot → Prop
  | str | hllRaw | rule _ => True
  | metadata tag => tag.isMeta = true
  | sub tag _ => tag.isFramed = true

def tag : Slot → KeyTag
  | str => .rawString
  | metadata tag => tag
  | hllRaw => .hllRaw
  | sub tag _ => tag
  | rule _ => .timeSeriesData

def partition : Slot → Partition
  | str | hllRaw | sub _ _ => .data
  | metadata _ | rule _ => .metadata

end Slot

structure Addr where
  kc : KeyComposer
  key : Key
  slot : Slot
  deriving DecidableEq

def Key.frame (k : Key) : Bytes := encodeOppvU64 (KeyComposer.keyLen k.bytes) ++ k.bytes

namespace Addr

def phys (a : Addr) : Bytes :=
  match a.slot with
  | .str => composeStringKey a.kc a.key.bytes
  | .metadata tag => a.kc.composeMetaKeyStack tag.asSlice a.key.bytes
  | .hllRaw => a.kc.composeMetaKeyStack KeyTag.hllRaw.asSlice a.key.bytes
  | .sub tag suffix => a.kc.composeSubkeyStack tag.asSlice a.key.bytes suffix
  | .rule suffix => a.kc.composeSubkeyStack KeyTag.timeSeriesData.asSlice a.key.bytes suffix

def tail (a : Addr) : Bytes :=
  match a.slot with
  | .str | .metadata _ | .hllRaw => a.key.bytes
  | .sub _ suffix | .rule suffix => a.key.frame ++ suffix

end Addr

def Store.at (s : Store) (a : Addr) : Option Bytes := (s.part a.slot.partition).get a.phys

theorem Key.frame_delimited : Delimited Key.frame := by
  intro a b s t h
  simp only [Key.frame, List.append_assoc] at h
  obtain ⟨hlen, hrest⟩ := encodeOppvU64_delimited h
  have ha := a.length_lt
  have hb := b.length_lt
  have hnat : a.bytes.length = b.bytes.length := by
    have h2 := congrArg UInt64.toNat hlen
    rwa [KeyComposer.keyLen, KeyComposer.keyLen,
      UInt64.toNat_ofNat_of_lt' (show _ < 2 ^ 64 by omega),
      UInt64.toNat_ofNat_of_lt' (show _ < 2 ^ 64 by omega)] at h2
  obtain ⟨hkey, hst⟩ := List.append_inj hrest hnat
  exact ⟨Key.ext hkey, hst⟩

theorem KeyComposer.composePrefixStack_frame (kc : KeyComposer) (tag : Bytes) (key : Key) :
    kc.composePrefixStack tag key.bytes = kc.encodeScopePrefix ++ tag ++ key.frame := by
  simp [Key.frame]

namespace Addr

theorem phys_eq (a : Addr) :
    a.phys = a.kc.encodeScopePrefix ++ a.slot.tag.asSlice ++ a.tail := by
  obtain ⟨kc, key, slot⟩ := a
  cases slot <;>
    simp [phys, tail, Slot.tag, composeStringKey, Key.frame, KeyComposer.composeSubkeyStack_eq]

theorem phys_sub (kc : KeyComposer) (key : Key) (tag : KeyTag) (suffix : Bytes) :
    phys ⟨kc, key, .sub tag suffix⟩ = kc.composePrefixStack tag.asSlice key.bytes ++ suffix :=
  KeyComposer.composeSubkeyStack_eq kc tag.asSlice key.bytes suffix

theorem composedIn_phys (a : Addr) : ComposedIn a.kc a.phys := by
  obtain ⟨kc, key, slot⟩ := a
  cases slot with
  | str => exact .metaKey .rawString key.bytes
  | metadata tag => exact .metaKey tag key.bytes
  | hllRaw => exact .metaKey .hllRaw key.bytes
  | sub tag suffix => exact .subkey tag key.bytes suffix
  | rule suffix => exact .subkey .timeSeriesData key.bytes suffix

theorem slot_of_tag {a b : Addr} (ha : a.slot.Valid) (hb : b.slot.Valid)
    (hp : a.slot.partition = b.slot.partition) (ht : a.slot.tag = b.slot.tag)
    (htail : a.tail = b.tail) : a.key = b.key ∧ a.slot = b.slot := by
  obtain ⟨kc, key, slot⟩ := a
  obtain ⟨kc', key', slot'⟩ := b
  cases slot <;> cases slot' <;> simp only [Slot.partition, reduceCtorEq] at hp <;>
    simp only [Slot.tag] at ht <;> simp only [tail] at htail
  case str.str | hllRaw.hllRaw => exact ⟨Key.ext htail, rfl⟩
  case metadata.metadata => exact ⟨Key.ext htail, by rw [ht]⟩
  case sub.sub =>
    obtain ⟨hk, hs⟩ := Key.frame_delimited htail
    exact ⟨hk, by rw [ht, hs]⟩
  case rule.rule =>
    obtain ⟨hk, hs⟩ := Key.frame_delimited htail
    exact ⟨hk, by rw [hs]⟩
  case str.hllRaw | hllRaw.str => cases ht
  case str.sub | hllRaw.sub =>
    subst ht
    exact absurd (show KeyTag.isFramed _ = true from hb) (by decide)
  case sub.str | sub.hllRaw =>
    subst ht
    exact absurd (show KeyTag.isFramed _ = true from ha) (by decide)
  case metadata.rule =>
    subst ht
    exact absurd (show KeyTag.isMeta _ = true from ha) (by decide)
  case rule.metadata =>
    subst ht
    exact absurd (show KeyTag.isMeta _ = true from hb) (by decide)

theorem phys_inj {a b : Addr} (ha : a.slot.Valid) (hb : b.slot.Valid)
    (hp : a.slot.partition = b.slot.partition) (h : a.phys = b.phys) : a = b := by
  rw [phys_eq, phys_eq, List.append_assoc, List.append_assoc] at h
  obtain ⟨hkc, hrest⟩ := KeyComposer.encodeScopePrefix_delimited h
  obtain ⟨htag, htail⟩ := KeyTag.asSlice_delimited hrest
  obtain ⟨hkey, hslot⟩ := slot_of_tag ha hb hp htag htail
  obtain ⟨kc, key, slot⟩ := a
  obtain ⟨kc', key', slot'⟩ := b
  simp only at hkc hkey hslot
  rw [hkc, hkey, hslot]

end Addr

namespace Store

theorem at_applyOp (s : Store) (o : WriteOp) (a : Addr) :
    (s.applyOp o).at a =
      if o.partition = a.slot.partition ∧ o.key = a.phys then o.value else s.at a :=
  part_applyOp_get s o a.slot.partition a.phys

theorem at_apply_of_forall_ne {s : Store} {b : Batch} {a : Addr}
    (h : ∀ o ∈ b, ¬(o.partition = a.slot.partition ∧ o.key = a.phys)) :
    (s.apply b).at a = s.at a :=
  part_apply_get_of_forall_ne h

theorem at_insert (s : Store) {a b : Addr} (ha : a.slot.Valid) (hb : b.slot.Valid) (v : Bytes) :
    (s.applyOp (.insert a.slot.partition a.phys v)).at b = if a = b then some v else s.at b := by
  rw [at_applyOp]
  by_cases hab : a = b
  · simp [hab, WriteOp.partition, WriteOp.key, WriteOp.value]
  · rw [if_neg hab, if_neg]
    rintro ⟨hp, hk⟩
    exact hab (Addr.phys_inj ha hb hp hk)

theorem at_rm (s : Store) {a b : Addr} (ha : a.slot.Valid) (hb : b.slot.Valid) :
    (s.applyOp (.rm a.slot.partition a.phys)).at b = if a = b then none else s.at b := by
  rw [at_applyOp]
  by_cases hab : a = b
  · simp [hab, WriteOp.partition, WriteOp.key, WriteOp.value]
  · rw [if_neg hab, if_neg]
    rintro ⟨hp, hk⟩
    exact hab (Addr.phys_inj ha hb hp hk)

theorem at_apply_of_forall_value {s : Store} {b : Batch} {a : Addr} {w : Option Bytes}
    (h : ∀ o ∈ b, o.partition = a.slot.partition ∧ o.key = a.phys → o.value = w) :
    (s.apply b).at a =
      if ∃ o ∈ b, o.partition = a.slot.partition ∧ o.key = a.phys then w else s.at a := by
  induction b generalizing s with
  | nil => simp
  | cons o b ih =>
    rw [apply_cons, ih fun x hx => h x (List.mem_cons_of_mem _ hx), at_applyOp]
    simp only [List.mem_cons, exists_eq_or_imp]
    by_cases ho : o.partition = a.slot.partition ∧ o.key = a.phys
    · simp [ho, h o (by simp) ho]
    · simp only [ho, if_false, false_or]

end Store

/-! ## Families -/

def Slot.inFamily (tag : KeyTag) : Slot → Bool
  | sub t _ => t == tag
  | rule _ => tag == .timeSeriesData
  | _ => false

theorem framePrefix_prefix_iff {kc : KeyComposer} {tag : KeyTag} {key : Key} {b : Addr}
    (ht : tag.isFramed = true) (hb : b.slot.Valid) :
    kc.composePrefixStack tag.asSlice key.bytes <+: b.phys ↔
      b.kc = kc ∧ b.key = key ∧ b.slot.inFamily tag = true := by
  have hplain : ∀ t : KeyTag, t.isMeta = true ∨ t = .rawString ∨ t = .hllRaw → t ≠ tag := by
    rintro t h rfl
    revert h ht
    cases t <;> decide
  rw [KeyComposer.composePrefixStack_frame, Addr.phys_eq, List.append_assoc, List.append_assoc]
  constructor
  · rintro ⟨u, hu⟩
    rw [List.append_assoc, List.append_assoc] at hu
    obtain ⟨hkc, hrest⟩ := KeyComposer.encodeScopePrefix_delimited hu
    obtain ⟨htag, htail⟩ := KeyTag.asSlice_delimited hrest
    obtain ⟨kc', key', slot⟩ := b
    cases slot with
    | str => exact absurd htag.symm (hplain _ (by simp [Slot.tag]))
    | metadata t => exact absurd htag.symm (hplain t (Or.inl hb))
    | hllRaw => exact absurd htag.symm (hplain _ (by simp [Slot.tag]))
    | sub t suffix =>
      obtain ⟨hk, -⟩ := Key.frame_delimited htail
      exact ⟨hkc.symm, hk.symm, by simpa [Slot.inFamily, Slot.tag] using htag.symm⟩
    | rule suffix =>
      obtain ⟨hk, -⟩ := Key.frame_delimited htail
      exact ⟨hkc.symm, hk.symm, by simpa [Slot.inFamily, Slot.tag] using htag⟩
  · rintro ⟨rfl, rfl, hf⟩
    obtain ⟨kc', key', slot⟩ := b
    cases slot with
    | str | metadata t | hllRaw => simp [Slot.inFamily] at hf
    | sub t suffix =>
      obtain rfl : t = tag := by simpa [Slot.inFamily] using hf
      exact ⟨suffix, by simp [Slot.tag, Addr.tail]⟩
    | rule suffix =>
      obtain rfl : tag = .timeSeriesData := by simpa [Slot.inFamily] using hf
      exact ⟨suffix, by simp [Slot.tag, Addr.tail]⟩

theorem Store.at_apply_rmPrefixed {s t : Store} (p : Partition) (kc : KeyComposer) (key : Key)
    {tag : KeyTag} {b : Addr} (ht : tag.isFramed = true) (hb : b.slot.Valid)
    (hst : s.at b = none → t.at b = none) :
    (t.apply (s.rmPrefixed p (kc.composePrefixStack tag.asSlice key.bytes))).at b =
      if b.slot.partition = p ∧ b.kc = kc ∧ b.key = key ∧ b.slot.inFamily tag = true then none
      else t.at b := by
  by_cases hp : p = b.slot.partition
  · subst hp
    rw [Store.at, Store.part_apply_rmPrefixed hst]
    refine if_congr ?_ rfl rfl
    simp only [framePrefix_prefix_iff ht hb, true_and]
  · rw [if_neg fun h => hp h.1.symm]
    refine Store.at_apply_of_forall_ne fun o ho hc => hp ?_
    simp only [Store.rmPrefixed, List.mem_map] at ho
    obtain ⟨k, -, rfl⟩ := ho
    exact hc.1

/-- The keys of a store are addresses of user keys or system keys. -/
def WellKeyed (s : Store) : Prop :=
  ∀ p k v, (s.part p).get k = some v →
    (∃ a : Addr, a.slot.Valid ∧ a.slot.partition = p ∧ a.phys = k) ∨ p = .metadata ∧ SystemKey k

theorem wellKeyed_empty : WellKeyed ∅ := by
  intro p k v h
  cases p <;> cases h

theorem WellKeyed.apply {s : Store} {b : Batch} (h : WellKeyed s)
    (hb : ∀ o ∈ b, ∃ a : Addr, a.slot.Valid ∧ a.slot.partition = o.partition ∧ a.phys = o.key) :
    WellKeyed (s.apply b) := by
  induction b generalizing s with
  | nil => exact h
  | cons o b ih =>
    refine ih (fun p k v hk => ?_) fun x hx => hb x (List.mem_cons_of_mem _ hx)
    rw [Store.part_applyOp_get] at hk
    by_cases ho : o.partition = p ∧ o.key = k
    · obtain ⟨a, ha, hp, hphys⟩ := hb o (by simp)
      exact Or.inl ⟨a, ha, hp.trans ho.1, hphys.trans ho.2⟩
    · rw [if_neg ho] at hk
      exact h p k v hk

end Wedb
