import Wedb.KeyComposer.SmallKey

/-!
# Composers on the stack

Each composer has a branch for the default scope with short keys, one that fills the
inline buffer and one that writes to the heap. All of them return the bytes of the
composers that append to a vector.
-/

namespace Wedb

namespace KeyComposer

def scopePrefixLen (kc : KeyComposer) : ℕ := 1 + oppvLenU64 kc.nsId + oppvLenU64 kc.db

def encodeScopePrefixFixed (kc : KeyComposer) : Option (Bytes × ℕ) := do
  let buf ← writeAt (List.replicate 19 0) 0 [0]
  let buf ← writeAt buf 1 (encodeOppvU64 kc.nsId)
  let buf ← writeAt buf (1 + oppvLenU64 kc.nsId) (encodeOppvU64 kc.db)
  some (buf, 1 + oppvLenU64 kc.nsId + oppvLenU64 kc.db)

def composePrefixIntoWithExtra (kc : KeyComposer) (tag key : Bytes) (_extraLen : ℕ) : Bytes :=
  match tag with
  | [t] =>
    if kc.isDefault ∧ key.length < 128 then [0, 0, 0, t, UInt8.ofNat key.length] ++ key
    else kc.encodeScopePrefix ++ tag ++ encodeOppvU64 (keyLen key) ++ key
  | _ => kc.encodeScopePrefix ++ tag ++ encodeOppvU64 (keyLen key) ++ key

namespace Stack

def composeMetaKeyStack (kc : KeyComposer) (tag key : Bytes) : Option SmallKey :=
  let buf := List.replicate inlineCap 0
  if kc.isDefault ∧ tag.length = 1 ∧ 4 + key.length ≤ inlineCap then do
    let buf ← writeAt buf 0 [0, 0, 0, tag.headD 0]
    let buf ← writeAt buf 4 key
    some (.inline buf (UInt8.ofNat (4 + key.length)))
  else
    let prefixLen := kc.scopePrefixLen
    let totalLen := prefixLen + tag.length + key.length
    if totalLen ≤ inlineCap then do
      let buf ← writeAt buf 0 [0]
      let buf ← writeAt buf 1 (encodeOppvU64 kc.nsId)
      let buf ← writeAt buf (1 + oppvLenU64 kc.nsId) (encodeOppvU64 kc.db)
      let buf ← writeAt buf prefixLen tag
      let buf ← writeAt buf (prefixLen + tag.length) key
      some (.inline buf (UInt8.ofNat totalLen))
    else some (.heap (kc.encodeScopePrefix ++ tag ++ key))

def tryComposeStackKey (kc : KeyComposer) (tag key : Bytes) (extra : List Bytes) :
    Option SmallKey :=
  let buf := List.replicate inlineCap 0
  let heapKey := SmallKey.heap
    (kc.encodeScopePrefix ++ tag ++ encodeOppvU64 (keyLen key) ++ key ++ extra.flatten)
  if kc.isDefault ∧ tag.length = 1 ∧ key.length < 128 then
    let totalLen := 5 + key.length + extra.flatten.length
    if totalLen ≤ inlineCap then do
      let buf ← writeAt buf 0 [0, 0, 0, tag.headD 0, UInt8.ofNat key.length]
      let buf ← writeAt buf 5 key
      let buf ← writeAll buf (5 + key.length) extra
      some (.inline buf (UInt8.ofNat totalLen))
    else some heapKey
  else
    let keyLenOppv := oppvLenU64 (keyLen key)
    let totalLen := kc.scopePrefixLen + tag.length + keyLenOppv + key.length + extra.flatten.length
    if totalLen ≤ inlineCap then do
      let (tmp, writtenPrefix) ← kc.encodeScopePrefixFixed
      let buf ← writeAt buf 0 (tmp.take writtenPrefix)
      let cursor := writtenPrefix
      let buf ← writeAt buf cursor tag
      let cursor := cursor + tag.length
      let buf ← writeAt buf cursor (encodeOppvU64 (keyLen key))
      let cursor := cursor + keyLenOppv
      let buf ← writeAt buf cursor key
      let cursor := cursor + key.length
      let buf ← writeAll buf cursor extra
      some (.inline buf (UInt8.ofNat totalLen))
    else some heapKey

def composePrefixStack (kc : KeyComposer) (tag key : Bytes) : Option SmallKey :=
  tryComposeStackKey kc tag key []

def composeSubkeyStack (kc : KeyComposer) (tag key subkey : Bytes) : Option SmallKey :=
  tryComposeStackKey kc tag key [subkey]

def composeSubkey2Stack (kc : KeyComposer) (tag key sub1 sub2 : Bytes) : Option SmallKey :=
  tryComposeStackKey kc tag key [sub1, sub2]

def composeOppvSubkeyStack (kc : KeyComposer) (tag key mid sub : Bytes) : Option SmallKey :=
  let keyOppvLen := oppvLenU64 (keyLen key)
  let midOppvLen := oppvLenU64 (keyLen mid)
  let totalLen := kc.scopePrefixLen + tag.length + keyOppvLen + key.length + midOppvLen +
    mid.length + sub.length
  if totalLen ≤ inlineCap then do
    let buf := List.replicate inlineCap 0
    let (tmp, pLen) ← kc.encodeScopePrefixFixed
    let buf ← writeAt buf 0 (tmp.take pLen)
    let cursor := pLen
    let buf ← writeAt buf cursor tag
    let cursor := cursor + tag.length
    let buf ← writeAt buf cursor (encodeOppvU64 (keyLen key))
    let cursor := cursor + keyOppvLen
    let buf ← writeAt buf cursor key
    let cursor := cursor + key.length
    let buf ← writeAt buf cursor (encodeOppvU64 (keyLen mid))
    let cursor := cursor + midOppvLen
    let buf ← writeAt buf cursor mid
    let cursor := cursor + mid.length
    let buf ← writeAt buf cursor sub
    some (.inline buf (UInt8.ofNat totalLen))
  else
    some (.heap (kc.encodeScopePrefix ++ tag ++ encodeOppvU64 (keyLen key) ++ key ++
      encodeOppvU64 (keyLen mid) ++ mid ++ sub))

def composeMetaPrefixStack (kc : KeyComposer) (tag : Bytes) : Option SmallKey :=
  if kc.isDefault ∧ tag.length = 1 then do
    let buf ← writeAt (List.replicate inlineCap 0) 0 [0, 0, 0, tag.headD 0]
    some (.inline buf 4)
  else do
    let (buf, prefixLen) ← kc.encodeScopePrefixFixed
    let sk ← SmallKey.new.extendFromSlice (buf.take prefixLen)
    sk.extendFromSlice tag

end Stack

end KeyComposer

/-- A prefix that is kept in front of one subkey after the other. -/
structure SubkeyComposer where
  buf : Bytes
  prefixLen : ℕ

namespace SubkeyComposer

def new (pre : Bytes) : SubkeyComposer := ⟨pre, pre.length⟩

def composeSub (c : SubkeyComposer) (subkey : Bytes) : SubkeyComposer :=
  { c with buf := c.buf.take c.prefixLen ++ subkey }

def composeSubU64Be (c : SubkeyComposer) (val : UInt64) : SubkeyComposer :=
  c.composeSub val.toBeBytes

theorem composeSub_buf (pre subkey : Bytes) (earlier : List Bytes) :
    ((earlier.foldl composeSub (new pre)).composeSub subkey).buf = pre ++ subkey := by
  have hkeeps : ∀ c : SubkeyComposer, c.prefixLen = pre.length → c.buf.take pre.length = pre →
      ((earlier.foldl composeSub c).composeSub subkey).buf = pre ++ subkey := by
    induction earlier with
    | nil =>
      intro c hlen hbuf
      rw [List.foldl_nil, composeSub, hlen, hbuf]
    | cons s earlier ih =>
      intro c hlen hbuf
      refine ih (c.composeSub s) hlen ?_
      rw [composeSub, hlen, hbuf]
      exact List.take_left
  exact hkeeps (new pre) rfl (List.take_length)

end SubkeyComposer

namespace KeyComposer
open SmallKey

variable {kc : KeyComposer} {tag key : Bytes}

@[simp] theorem encodeScopePrefix_length (kc : KeyComposer) :
    kc.encodeScopePrefix.length = kc.scopePrefixLen := by
  rw [encodeScopePrefix, List.length_cons, List.length_append, encodeOppvU64_length,
    encodeOppvU64_length, scopePrefixLen]
  omega

theorem oppvLenU64_le (val : UInt64) : oppvLenU64 val ≤ 9 := by
  unfold oppvLenU64
  split_ifs <;> omega

theorem encodeScopePrefixFixed_spec (kc : KeyComposer) :
    ∃ tmp, kc.encodeScopePrefixFixed = some (tmp, kc.scopePrefixLen) ∧
      tmp.take kc.scopePrefixLen = kc.encodeScopePrefix := by
  have hns := oppvLenU64_le kc.nsId
  have hdb := oppvLenU64_le kc.db
  have hstart : Filled 19 (List.replicate 19 (0 : UInt8)) [] := Filled.empty List.length_replicate
  obtain ⟨buf₁, hw₁, h₁⟩ := hstart.write 0 [0] rfl (by simp)
  obtain ⟨buf₂, hw₂, h₂⟩ := h₁.write 1 (encodeOppvU64 kc.nsId) rfl (by
    rw [encodeOppvU64_length]
    omega)
  obtain ⟨buf₃, hw₃, h₃⟩ := h₂.write (1 + oppvLenU64 kc.nsId) (encodeOppvU64 kc.db)
    (by simp [encodeOppvU64_length]; omega) (by
      rw [encodeOppvU64_length]
      omega)
  refine ⟨buf₃, ?_, ?_⟩
  · simp only [encodeScopePrefixFixed, hw₁, hw₂, hw₃, Option.bind_eq_bind, Option.bind_some,
      scopePrefixLen]
  · have htake := h₃.take
    rw [List.nil_append, List.singleton_append, List.cons_append] at htake
    rw [← encodeScopePrefix_length]
    exact htake

theorem write_builds {buf written s bs : Bytes} {start : ℕ} {f : Bytes → Option SmallKey}
    (h : Filled inlineCap buf written) (hstart : start = written.length)
    (hroom : start + s.length ≤ inlineCap)
    (hf : ∀ buf', Filled inlineCap buf' (written ++ s) → Builds (f buf') bs) :
    Builds (writeAt buf start s >>= f) bs := by
  obtain ⟨buf', hwrite, h'⟩ := h.write _ _ hstart hroom
  rw [hwrite]
  exact hf buf' h'

theorem writeAll_builds {buf written bs : Bytes} {parts : List Bytes} {start : ℕ}
    {f : Bytes → Option SmallKey} (h : Filled inlineCap buf written) (hstart : start = written.length)
    (hroom : start + parts.flatten.length ≤ inlineCap)
    (hf : ∀ buf', Filled inlineCap buf' (written ++ parts.flatten) → Builds (f buf') bs) :
    Builds (writeAll buf start parts >>= f) bs := by
  obtain ⟨buf', hwrite, h'⟩ := h.writeParts hstart hroom
  rw [hwrite]
  exact hf buf' h'

theorem inline_builds {buf bs written : Bytes} {n : ℕ} (h : Filled inlineCap buf written)
    (hn : n = written.length) (hbs : written = bs) :
    Builds (some (.inline buf (UInt8.ofNat n))) bs := by
  rw [hbs] at h hn
  exact ⟨_, rfl, holds_inline h hn⟩

theorem length_eq_one {α : Type} {d : α} {xs : List α} (h : xs.length = 1) : xs = [xs.headD d] := by
  obtain ⟨x, rfl⟩ := List.length_eq_one_iff.mp h
  rfl

theorem composeMetaKeyStack_builds (kc : KeyComposer) (tag key : Bytes) :
    Builds (Stack.composeMetaKeyStack kc tag key) (kc.composeMetaKeyInto tag key) := by
  rw [composeMetaKeyInto_eq]
  have hns := encodeOppvU64_length kc.nsId
  have hdb := encodeOppvU64_length kc.db
  have hscope : kc.scopePrefixLen = 1 + oppvLenU64 kc.nsId + oppvLenU64 kc.db := rfl
  simp only [Stack.composeMetaKeyStack]
  by_cases hdef : kc.isDefault ∧ tag.length = 1 ∧ 4 + key.length ≤ inlineCap
  · rw [if_pos hdef]
    refine write_builds filled_zeros rfl (show 0 + 4 ≤ 55 by omega) fun buf h => ?_
    refine write_builds h rfl hdef.2.2 fun buf h => ?_
    refine inline_builds h (by simp; omega) ?_
    rw [encodeScopePrefix_default hdef.1, length_eq_one (d := 0) hdef.2.1]
    simp
  rw [if_neg hdef]
  by_cases hfit : kc.scopePrefixLen + tag.length + key.length ≤ inlineCap
  · rw [if_pos hfit]
    refine write_builds filled_zeros rfl (show 0 + 1 ≤ 55 by omega) fun buf h => ?_
    refine write_builds h rfl (by omega) fun buf h => ?_
    refine write_builds h (by simp [hns]; omega) (by omega) fun buf h => ?_
    refine write_builds h (by simp [hns, hdb]; omega) (by omega) fun buf h => ?_
    refine write_builds h (by simp [hns, hdb]; omega) (by omega) fun buf h => ?_
    exact inline_builds h (by simp [hns, hdb]; omega) (by simp [encodeScopePrefix])
  · rw [if_neg hfit]
    exact ⟨_, rfl, rfl⟩

theorem tryComposeStackKey_builds (kc : KeyComposer) (tag key : Bytes) (extra : List Bytes) :
    Builds (Stack.tryComposeStackKey kc tag key extra) (kc.tryComposeStackKey tag key extra) := by
  rw [tryComposeStackKey_eq]
  have hoppv := encodeOppvU64_length (keyLen key)
  have hscope := encodeScopePrefix_length kc
  simp only [Stack.tryComposeStackKey]
  by_cases hdef : kc.isDefault ∧ tag.length = 1 ∧ key.length < 128
  · rw [if_pos hdef]
    by_cases hfit : 5 + key.length + extra.flatten.length ≤ inlineCap
    · rw [if_pos hfit]
      refine write_builds filled_zeros rfl (show 0 + 5 ≤ 55 by omega) fun buf h => ?_
      refine write_builds h rfl (by omega) fun buf h => ?_
      refine writeAll_builds h (by simp; omega) (by omega) fun buf h => ?_
      refine inline_builds h (by simp; omega) ?_
      rw [encodeScopePrefix_default hdef.1, encodeOppvU64_keyLen hdef.2.2,
        length_eq_one (d := 0) hdef.2.1]
      simp
    · rw [if_neg hfit]
      exact ⟨_, rfl, rfl⟩
  rw [if_neg hdef]
  split_ifs with hfit
  · obtain ⟨tmp, htmp, htake⟩ := encodeScopePrefixFixed_spec kc
    rw [htmp, Option.bind_eq_bind, Option.bind_some]
    simp only [htake]
    refine write_builds filled_zeros rfl (by omega) fun buf h => ?_
    refine write_builds h (by simp) (by omega) fun buf h => ?_
    refine write_builds h (by simp) (by omega) fun buf h => ?_
    refine write_builds h (by simp [hoppv]; omega) (by omega) fun buf h => ?_
    refine writeAll_builds h (by simp [hoppv]; omega) (by omega) fun buf h => ?_
    exact inline_builds h (by simp [hoppv]; omega) (by simp)
  · exact ⟨_, rfl, rfl⟩

theorem composeOppvSubkeyStack_builds (kc : KeyComposer) (tag key mid sub : Bytes) :
    Builds (Stack.composeOppvSubkeyStack kc tag key mid sub)
      (kc.composeOppvSubkeyStack tag key mid sub) := by
  have hkey := encodeOppvU64_length (keyLen key)
  have hmid := encodeOppvU64_length (keyLen mid)
  have hscope := encodeScopePrefix_length kc
  simp only [Stack.composeOppvSubkeyStack]
  split_ifs with hfit
  · obtain ⟨tmp, htmp, htake⟩ := encodeScopePrefixFixed_spec kc
    rw [htmp, Option.bind_eq_bind, Option.bind_some]
    simp only [htake]
    refine write_builds filled_zeros rfl (by omega) fun buf h => ?_
    refine write_builds h (by simp) (by omega) fun buf h => ?_
    refine write_builds h (by simp) (by omega) fun buf h => ?_
    refine write_builds h (by simp [hkey]; omega) (by omega) fun buf h => ?_
    refine write_builds h (by simp [hkey]; omega) (by omega) fun buf h => ?_
    refine write_builds h (by simp [hkey, hmid]; omega) (by omega) fun buf h => ?_
    refine write_builds h (by simp [hkey, hmid]; omega) (by omega) fun buf h => ?_
    exact inline_builds h (by simp [hkey, hmid]; omega) (by simp [composeOppvSubkeyStack])
  · exact ⟨_, rfl, rfl⟩

theorem composeMetaPrefixStack_builds (kc : KeyComposer) (tag : Bytes) :
    Builds (Stack.composeMetaPrefixStack kc tag) (kc.composeMetaPrefix tag) := by
  rw [composeMetaPrefix_eq, Stack.composeMetaPrefixStack]
  by_cases hdef : kc.isDefault ∧ tag.length = 1
  · rw [if_pos hdef]
    refine write_builds filled_zeros rfl (show 0 + 4 ≤ 55 by omega) fun buf h => ?_
    have hbs : [] ++ [0, 0, 0, tag.headD 0] = kc.encodeScopePrefix ++ tag := by
      rw [encodeScopePrefix_default hdef.1, length_eq_one (d := 0) hdef.2]
      rfl
    exact inline_builds (n := 4) h rfl hbs
  · rw [if_neg hdef]
    obtain ⟨tmp, htmp, htake⟩ := encodeScopePrefixFixed_spec kc
    obtain ⟨sk, hsk, hholds⟩ := extendFromSlice_builds new_holds kc.encodeScopePrefix
    rw [htmp, Option.bind_eq_bind, Option.bind_some]
    simp only [htake, hsk, Option.bind_eq_bind, Option.bind_some]
    exact extendFromSlice_builds hholds tag

theorem composePrefixIntoWithExtra_eq (kc : KeyComposer) (tag key : Bytes) (extraLen : ℕ) :
    kc.composePrefixIntoWithExtra tag key extraLen = kc.composePrefixInto tag key := by
  unfold composePrefixIntoWithExtra composePrefixInto tryComposeStackKey
  split
  · simp
  · simp

end KeyComposer

end Wedb
