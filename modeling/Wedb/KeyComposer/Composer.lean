import Wedb.KeyComposer.Oppv
import Wedb.KeyComposer.Tag

/-!
# Physical keys

A scope is a namespace id and a database id. Its keys start with the byte `0`
and the two ids; the tag, the user key and the subkey follow. The default scope
and short user keys take a branch of their own which writes the same bytes. A
`SmallKey` holds its bytes inline or on the heap and is modelled by its bytes.
-/

namespace Wedb

structure KeyComposer where
  nsId : UInt64
  db : UInt64
  deriving DecidableEq, Repr

namespace KeyComposer

def isDefault (kc : KeyComposer) : Bool := kc.nsId == 0 && kc.db == 0

def encodeScopePrefix (kc : KeyComposer) : Bytes :=
  0 :: (encodeOppvU64 kc.nsId ++ encodeOppvU64 kc.db)

def composeMetaKeyInto (kc : KeyComposer) (tag key : Bytes) : Bytes :=
  match tag with
  | [t] =>
    if kc.isDefault then [0, 0, 0, t] ++ key
    else kc.encodeScopePrefix ++ tag ++ key
  | _ => kc.encodeScopePrefix ++ tag ++ key

def composeMetaKeyStack (kc : KeyComposer) (tag key : Bytes) : Bytes :=
  kc.composeMetaKeyInto tag key

def keyLen (key : Bytes) : UInt64 := UInt64.ofNat key.length

def tryComposeStackKey (kc : KeyComposer) (tag key : Bytes) (extra : List Bytes) : Bytes :=
  match tag with
  | [t] =>
    if kc.isDefault ∧ key.length < 128 then
      [0, 0, 0, t, UInt8.ofNat key.length] ++ key ++ extra.flatten
    else kc.encodeScopePrefix ++ tag ++ encodeOppvU64 (keyLen key) ++ key ++ extra.flatten
  | _ => kc.encodeScopePrefix ++ tag ++ encodeOppvU64 (keyLen key) ++ key ++ extra.flatten

def composePrefixInto (kc : KeyComposer) (tag key : Bytes) : Bytes := kc.tryComposeStackKey tag key []

def composePrefixStack (kc : KeyComposer) (tag key : Bytes) : Bytes := kc.tryComposeStackKey tag key []

def composeSubkeyStack (kc : KeyComposer) (tag key subkey : Bytes) : Bytes :=
  kc.tryComposeStackKey tag key [subkey]

def composeSubkey2Stack (kc : KeyComposer) (tag key sub1 sub2 : Bytes) : Bytes :=
  kc.tryComposeStackKey tag key [sub1, sub2]

def composeOppvSubkeyStack (kc : KeyComposer) (tag key mid sub : Bytes) : Bytes :=
  kc.encodeScopePrefix ++ tag ++ encodeOppvU64 (keyLen key) ++ key ++
    encodeOppvU64 (keyLen mid) ++ mid ++ sub

def composeMetaPrefix (kc : KeyComposer) (tag : Bytes) : Bytes :=
  match tag with
  | [t] => if kc.isDefault then [0, 0, 0, t] else kc.encodeScopePrefix ++ tag
  | _ => kc.encodeScopePrefix ++ tag

def composeMetaPrefixStack (kc : KeyComposer) (tag : Bytes) : Bytes := kc.composeMetaPrefix tag

def nsPrefix (nsId : UInt64) : Bytes := 0 :: encodeOppvU64 nsId

def parseScopedPrefix (fullKey : Bytes) : Option (KeyComposer × ℕ × Bytes) :=
  match fullKey with
  | 0 :: rest =>
    if fullKey.length < 3 then none
    else do
      let (nsId, c1) ← decodeOppvU64 rest
      if fullKey.length < 1 + c1 then none
      else do
        let (db, c2) ← decodeOppvU64 (fullKey.drop (1 + c1))
        let prefixLen := 1 + c1 + c2
        if fullKey.length > prefixLen then
          some (⟨nsId, db⟩, prefixLen, fullKey.drop prefixLen)
        else none
  | _ => none

/-! ## The composers write one layout -/

theorem encodeScopePrefix_default {kc : KeyComposer} (h : kc.isDefault = true) :
    kc.encodeScopePrefix = [0, 0, 0] := by
  obtain ⟨ns, db⟩ := kc
  simp only [isDefault, Bool.and_eq_true, beq_iff_eq] at h
  obtain ⟨rfl, rfl⟩ := h
  decide

theorem encodeOppvU64_keyLen {key : Bytes} (h : key.length < 128) :
    encodeOppvU64 (keyLen key) = [UInt8.ofNat key.length] := by
  have hnat : (keyLen key).toNat = key.length :=
    UInt64.toNat_ofNat_of_lt' (show key.length < 2 ^ 64 by omega)
  have hlt : keyLen key < 0x80 := by
    rw [UInt64.lt_iff_toNat_lt, hnat]
    exact h
  have hbyte : (keyLen key).toUInt8 = UInt8.ofNat key.length := by
    rw [← UInt8.ofNat_uInt64ToNat, hnat]
  rw [encodeOppvU64, if_pos hlt, hbyte]

theorem composeMetaKeyInto_eq (kc : KeyComposer) (tag key : Bytes) :
    kc.composeMetaKeyInto tag key = kc.encodeScopePrefix ++ tag ++ key := by
  unfold composeMetaKeyInto
  split
  · split_ifs with h
    · simp [encodeScopePrefix_default h]
    · rfl
  · rfl

@[simp] theorem composeMetaKeyStack_eq (kc : KeyComposer) (tag key : Bytes) :
    kc.composeMetaKeyStack tag key = kc.encodeScopePrefix ++ tag ++ key :=
  composeMetaKeyInto_eq kc tag key

theorem tryComposeStackKey_eq (kc : KeyComposer) (tag key : Bytes) (extra : List Bytes) :
    kc.tryComposeStackKey tag key extra =
      kc.encodeScopePrefix ++ tag ++ encodeOppvU64 (keyLen key) ++ key ++ extra.flatten := by
  unfold tryComposeStackKey
  split
  · split_ifs with h
    · simp [encodeScopePrefix_default h.1, encodeOppvU64_keyLen h.2]
    · rfl
  · rfl

@[simp] theorem composePrefixStack_eq (kc : KeyComposer) (tag key : Bytes) :
    kc.composePrefixStack tag key =
      kc.encodeScopePrefix ++ tag ++ encodeOppvU64 (keyLen key) ++ key := by
  simp [composePrefixStack, tryComposeStackKey_eq]

theorem composePrefixInto_eq (kc : KeyComposer) (tag key : Bytes) :
    kc.composePrefixInto tag key = kc.composePrefixStack tag key := rfl

theorem composeSubkeyStack_eq (kc : KeyComposer) (tag key sub : Bytes) :
    kc.composeSubkeyStack tag key sub = kc.composePrefixStack tag key ++ sub := by
  simp [composeSubkeyStack, tryComposeStackKey_eq]

theorem composeSubkey2Stack_eq (kc : KeyComposer) (tag key sub1 sub2 : Bytes) :
    kc.composeSubkey2Stack tag key sub1 sub2 = kc.composePrefixStack tag key ++ (sub1 ++ sub2) := by
  simp [composeSubkey2Stack, tryComposeStackKey_eq]

theorem composeOppvSubkeyStack_eq (kc : KeyComposer) (tag key mid sub : Bytes) :
    kc.composeOppvSubkeyStack tag key mid sub =
      kc.composePrefixStack tag key ++ (encodeOppvU64 (keyLen mid) ++ mid ++ sub) := by
  simp [composeOppvSubkeyStack]

theorem composeMetaPrefix_eq (kc : KeyComposer) (tag : Bytes) :
    kc.composeMetaPrefix tag = kc.encodeScopePrefix ++ tag := by
  unfold composeMetaPrefix
  split
  · split_ifs with h
    · simp [encodeScopePrefix_default h]
    · rfl
  · rfl

/-! ## Scopes do not overlap -/

theorem encodeScopePrefix_delimited : Delimited encodeScopePrefix := by
  have h := (encodeOppvU64_delimited.pair encodeOppvU64_delimited).cons_left 0
  exact h.of_comp (g := fun kc : KeyComposer => (kc.nsId, kc.db)) fun a b hab => by
    obtain ⟨ns, db⟩ := a
    obtain ⟨ns', db'⟩ := b
    simpa using hab

theorem nsPrefix_delimited : Delimited nsPrefix := encodeOppvU64_delimited.cons_left 0

theorem nsPrefix_prefix_scope (kc : KeyComposer) : nsPrefix kc.nsId <+: kc.encodeScopePrefix :=
  ⟨encodeOppvU64 kc.db, rfl⟩

theorem scope_prefix_iff {kc kc' : KeyComposer} {s : Bytes} :
    kc.encodeScopePrefix <+: kc'.encodeScopePrefix ++ s ↔ kc = kc' := by
  constructor
  · exact encodeScopePrefix_delimited.eq_of_prefix
  · rintro rfl
    exact List.prefix_append _ s

theorem nsPrefix_prefix_iff {ns : UInt64} {kc : KeyComposer} {s : Bytes} :
    nsPrefix ns <+: kc.encodeScopePrefix ++ s ↔ ns = kc.nsId := by
  constructor
  · intro h
    refine nsPrefix_delimited.eq_of_prefix (s := encodeOppvU64 kc.db ++ s) ?_
    simpa [nsPrefix, encodeScopePrefix] using h
  · rintro rfl
    exact (nsPrefix_prefix_scope kc).trans (List.prefix_append _ s)

theorem oppvLenU64_pos (val : UInt64) : 0 < oppvLenU64 val := by
  unfold oppvLenU64
  split_ifs <;> omega

theorem parseScopedPrefix_scope (kc : KeyComposer) {s : Bytes} (hs : s ≠ []) :
    parseScopedPrefix (kc.encodeScopePrefix ++ s) =
      some (kc, kc.encodeScopePrefix.length, s) := by
  have hpos : 0 < s.length := List.length_pos_iff.mpr hs
  have h1 := oppvLenU64_pos kc.nsId
  have h2 := oppvLenU64_pos kc.db
  have hdrop : ∀ t, (0 :: (encodeOppvU64 kc.nsId ++ t)).drop (1 + oppvLenU64 kc.nsId) = t := by
    intro t
    rw [← encodeOppvU64_length, add_comm, List.drop_succ_cons, List.drop_left]
  have hrest : (0 :: (encodeOppvU64 kc.nsId ++ (encodeOppvU64 kc.db ++ s))).drop
      (1 + oppvLenU64 kc.nsId + oppvLenU64 kc.db) = s := by
    rw [← List.drop_drop, hdrop, ← encodeOppvU64_length, List.drop_left]
  simp only [encodeScopePrefix, List.cons_append, List.append_assoc, parseScopedPrefix,
    decodeOppvU64_encodeOppvU64, List.length_cons, List.length_append, encodeOppvU64_length,
    Option.bind_eq_bind, Option.bind_some, hdrop, hrest]
  rw [if_neg (by omega), if_neg (by omega), if_pos (by omega)]
  simp only [Option.some.injEq, Prod.mk.injEq, and_true, true_and]
  omega

end KeyComposer

end Wedb
