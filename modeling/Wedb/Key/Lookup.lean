import Wedb.Key.Address

/-!
# Looking a key up

A key exists as a string, or as the first composite type whose metadata decodes
and is not expired. Commands on one composite type check that no other type is
live under the key. All of these read the committed store at one clock value.
-/

namespace Wedb

section

section
variable (s : Store) (kc : KeyComposer) (key : Key) (nowMs : UInt64)

def liveString : Option (UInt64 × Bytes) :=
  match s.data.get (composeStringKey kc key.bytes) with
  | some raw =>
    let (expireAt, payload) := decodeStringValue raw
    if isStringExpired expireAt nowMs then none else some (expireAt, payload)
  | none => none

def liveMeta (tag : KeyTag) : Option (KeyMeta × Bytes) :=
  match s.metadata.get (kc.composeMetaKeyStack tag.asSlice key.bytes) with
  | some mBytes =>
    match KeyMeta.decode mBytes with
    | some baseMeta => if baseMeta.isExpired nowMs then none else some (baseMeta, mBytes)
    | none => none
  | none => none

def findActiveCompositeMeta : Option (KeyTag × KeyMeta × Bytes) :=
  if s.metadata.isEmpty then none
  else allCompositeMetaTags.findSome? fun tag =>
    (liveMeta s kc key nowMs tag).map fun m => (tag, m)

def checkCompositeMetaNotOtherType (currentMetaTag : KeyTag) : Except Error Unit :=
  if s.metadata.isEmpty then .ok ()
  else if (allCompositeMetaTags.filter (· ≠ currentMetaTag)).any fun tag =>
      (liveMeta s kc key nowMs tag).isSome then .error Error.wrongTypeDefault
  else .ok ()

def checkKeyNotOtherType (currentMetaTag : KeyTag) : Except Error Unit :=
  if (liveString s kc key nowMs).isSome then .error Error.wrongTypeDefault
  else checkCompositeMetaNotOtherType s kc key nowMs currentMetaTag

def existsOne : Bool :=
  (liveString s kc key nowMs).isSome || (findActiveCompositeMeta s kc key nowMs).isSome

def existsImpl (keys : List Key) : ℕ := keys.countP fun k => existsOne s kc k nowMs

def keyTypeImpl : String :=
  if (liveString s kc key nowMs).isSome then "string"
  else
    match findActiveCompositeMeta s kc key nowMs with
    | some (_, baseMeta, _) => baseMeta.rtype.name
    | none => "none"

def getKeyExpireAtImpl : Option UInt64 :=
  match liveString s kc key nowMs with
  | some (exp, _) => some exp
  | none => (findActiveCompositeMeta s kc key nowMs).map fun m => m.2.1.expireAt

end

/-- The metadata of one composite type, in front of which its `KeyMeta` stands. -/
class MetaOps (M : Type) where
  tag : KeyTag
  decode : Bytes → Option M
  base : M → KeyMeta
  isExpired : M → UInt64 → Bool
  encodeBytes : M → Bytes

def getMetaChecked (M : Type) [MetaOps M] (s : Store) (kc : KeyComposer) (key : Key)
    (metaK : Bytes) (nowMs : UInt64) : Except Error (Option M) :=
  if (liveString s kc key nowMs).isSome then .error Error.wrongTypeDefault
  else
    match (s.metadata.get metaK).bind (MetaOps.decode (M := M)) with
    | some m =>
      if MetaOps.isExpired m nowMs then
        (checkCompositeMetaNotOtherType s kc key nowMs (MetaOps.tag M)).map fun _ => none
      else .ok (some m)
    | none => (checkCompositeMetaNotOtherType s kc key nowMs (MetaOps.tag M)).map fun _ => none

variable {s t : Store} {kc : KeyComposer} {key : Key} {now later : UInt64} {tag : KeyTag}

theorem liveString_eq_at (s : Store) (kc : KeyComposer) (key : Key) (now : UInt64) :
    liveString s kc key now = ((s.at ⟨kc, key, .str⟩).map decodeStringValue).filter
      fun x => !isStringExpired x.1 now := by
  have hat : s.data.get (composeStringKey kc key.bytes) = s.at ⟨kc, key, .str⟩ := rfl
  rw [liveString, hat]
  cases s.at ⟨kc, key, .str⟩ with
  | none => rfl
  | some raw =>
    by_cases h : isStringExpired (decodeStringValue raw).1 now = true <;> simp [Option.filter, h]

theorem liveMeta_eq_at (s : Store) (kc : KeyComposer) (key : Key) (now : UInt64) (tag : KeyTag) :
    liveMeta s kc key now tag = ((s.at ⟨kc, key, .metadata tag⟩).bind fun v =>
      (KeyMeta.decode v).map fun m => (m, v)).filter fun x => !x.1.isExpired now := by
  have hat : s.metadata.get (kc.composeMetaKeyStack tag.asSlice key.bytes) =
      s.at ⟨kc, key, .metadata tag⟩ := rfl
  rw [liveMeta, hat]
  cases s.at ⟨kc, key, .metadata tag⟩ with
  | none => rfl
  | some v =>
    cases hd : KeyMeta.decode v with
    | none => simp [hd]
    | some m => by_cases h : m.isExpired now = true <;> simp [hd, Option.filter, h]

theorem liveString_congr (h : t.at ⟨kc, key, .str⟩ = s.at ⟨kc, key, .str⟩) :
    liveString t kc key now = liveString s kc key now := by
  rw [liveString_eq_at, liveString_eq_at, h]

theorem liveMeta_congr (h : t.at ⟨kc, key, .metadata tag⟩ = s.at ⟨kc, key, .metadata tag⟩) :
    liveMeta t kc key now tag = liveMeta s kc key now tag := by
  rw [liveMeta_eq_at, liveMeta_eq_at, h]

theorem liveString_of_at_none (h : s.at ⟨kc, key, .str⟩ = none) :
    liveString s kc key now = none := by
  rw [liveString_eq_at, h]
  rfl

theorem liveMeta_of_at_none (h : s.at ⟨kc, key, .metadata tag⟩ = none) :
    liveMeta s kc key now tag = none := by
  rw [liveMeta_eq_at, h]
  rfl

theorem liveString_mono (h : liveString s kc key now = none) (ht : now ≤ later) :
    liveString s kc key later = none := by
  rw [liveString_eq_at, Option.filter_eq_none_iff] at h ⊢
  intro x hx
  simpa using isStringExpired_mono (by simpa using h x hx) ht

theorem liveMeta_mono (h : liveMeta s kc key now tag = none) (ht : now ≤ later) :
    liveMeta s kc key later tag = none := by
  rw [liveMeta_eq_at, Option.filter_eq_none_iff] at h ⊢
  intro x hx
  simpa using KeyMeta.isExpired_mono (by simpa using h x hx) ht

theorem metadata_isEmpty_liveMeta (h : s.metadata.isEmpty = true) :
    liveMeta s kc key now tag = none :=
  liveMeta_of_at_none (SortedMap.get_of_isEmpty h _)

theorem findActiveCompositeMeta_eq (s : Store) (kc : KeyComposer) (key : Key) (now : UInt64) :
    findActiveCompositeMeta s kc key now = allCompositeMetaTags.findSome? fun tag =>
      (liveMeta s kc key now tag).map fun m => (tag, m) := by
  unfold findActiveCompositeMeta
  split_ifs with h
  · rw [eq_comm, List.findSome?_eq_none_iff]
    intro tag _
    rw [metadata_isEmpty_liveMeta h]
    rfl
  · rfl

theorem findActive_spec {m : KeyMeta} {rawMeta : Bytes}
    (hf : findActiveCompositeMeta s kc key now = some (tag, m, rawMeta)) :
    tag ∈ allCompositeMetaTags ∧ liveMeta s kc key now tag = some (m, rawMeta) := by
  rw [findActiveCompositeMeta_eq] at hf
  obtain ⟨u, hu, hmap⟩ := List.exists_of_findSome?_eq_some hf
  cases hl : liveMeta s kc key now u with
  | none =>
    rw [hl] at hmap
    cases hmap
  | some x =>
    rw [hl] at hmap
    cases hmap
    exact ⟨hu, hl⟩

theorem liveMeta_eq_some {m : KeyMeta} {v : Bytes}
    (h : liveMeta s kc key now tag = some (m, v)) : s.at ⟨kc, key, .metadata tag⟩ = some v := by
  rw [liveMeta_eq_at, Option.filter_eq_some_iff, Option.bind_eq_some_iff] at h
  obtain ⟨⟨w, hw, hmap⟩, -⟩ := h
  rw [Option.map_eq_some_iff] at hmap
  obtain ⟨m', -, heq⟩ := hmap
  cases heq
  exact hw

theorem findActiveCompositeMeta_eq_none :
    findActiveCompositeMeta s kc key now = none ↔
      ∀ tag ∈ allCompositeMetaTags, liveMeta s kc key now tag = none := by
  rw [findActiveCompositeMeta_eq, List.findSome?_eq_none_iff]
  simp

theorem existsOne_eq_false :
    existsOne s kc key now = false ↔ liveString s kc key now = none ∧
      ∀ tag ∈ allCompositeMetaTags, liveMeta s kc key now tag = none := by
  rw [existsOne, Bool.or_eq_false_iff, Option.isSome_eq_false_iff, Option.isNone_iff_eq_none,
    Option.isSome_eq_false_iff, Option.isNone_iff_eq_none, findActiveCompositeMeta_eq_none]

theorem existsOne_mono (h : existsOne s kc key now = false) (ht : now ≤ later) :
    existsOne s kc key later = false := by
  rw [existsOne_eq_false] at h ⊢
  exact ⟨liveString_mono h.1 ht, fun tag htag => liveMeta_mono (h.2 tag htag) ht⟩

theorem keyTypeImpl_of_not_exists (h : existsOne s kc key now = false) :
    keyTypeImpl s kc key now = "none" := by
  obtain ⟨hstr, hmeta⟩ := existsOne_eq_false.mp h
  rw [keyTypeImpl, hstr, findActiveCompositeMeta_eq_none.mpr hmeta]
  rfl

end

/-!
## Setting an expiry

A live string is written again with its new expiry. Otherwise the expiry field
of the first live composite's metadata is patched in place, at the offset its
first byte tells, and the rest of the metadata stays as it was.
-/

inductive ExpireCondition
  | none
  | nx
  | xx
  | gt
  | lt
  deriving DecidableEq, Repr

def ExpireCondition.shouldUpdate (currentExp newExp : UInt64) : ExpireCondition → Bool
  | .none => true
  | .nx => currentExp == 0
  | .xx => decide (currentExp > 0)
  | .gt => decide (currentExp > 0) && decide (newExp > currentExp)
  | .lt => currentExp == 0 || decide (newExp < currentExp)

def patchExpireAt (metaVal : Bytes) (expireAtMs : UInt64) : Option Bytes :=
  let first := metaVal.headD 0
  let isKvrocks := first &&& KeyMeta.meta64bitEncodingMask ≠ 0 ∨
    metaVal.length ≥ KeyMeta.kvrocksComplexEncodedSize ∧ first > 14
  let expOffset := if isKvrocks then 1 else 2
  if metaVal.length ≥ expOffset + 8 then
    some (metaVal.take expOffset ++ expireAtMs.toBeBytes ++ metaVal.drop (expOffset + 8))
  else none

def setKeyExpireAtImplWithCondition (s : Store) (kc : KeyComposer) (key : Key)
    (nowMs expireAtMs : UInt64) (cond : ExpireCondition) : Bool × Batch :=
  match liveString s kc key nowMs with
  | some (exp, payload) =>
    if expireAtMs = 0 ∧ exp = 0 then (false, [])
    else if !cond.shouldUpdate exp expireAtMs then (false, [])
    else (true, [.insertData (composeStringKey kc key.bytes) (encodeStringValue payload expireAtMs)])
  | none =>
    match findActiveCompositeMeta s kc key nowMs with
    | some (tag, baseMeta, mBytes) =>
      if expireAtMs = 0 ∧ baseMeta.expireAt = 0 then (false, [])
      else if !cond.shouldUpdate baseMeta.expireAt expireAtMs then (false, [])
      else
        match patchExpireAt mBytes expireAtMs with
        | some newMBytes =>
          (true, [.insertMeta (kc.composeMetaKeyStack tag.asSlice key.bytes) newMBytes])
        | none => (false, [])
    | none => (false, [])

def setKeyExpireAtImpl (s : Store) (kc : KeyComposer) (key : Key) (nowMs expireAtMs : UInt64) :
    Bool × Batch :=
  setKeyExpireAtImplWithCondition s kc key nowMs expireAtMs .none

theorem patchExpireAt_encode (m : KeyMeta) (t : Bytes) (expireAtMs : UInt64) :
    patchExpireAt (m.encode ++ t) expireAtMs = some ({ m with expireAt := expireAtMs }.encode ++ t) := by
  have hlen : (m.encode ++ t).length ≥ 2 + 8 := by
    simp [KeyMeta.encodedSize]
    omega
  have hexp : m.expireAt.toBeBytes.length = 8 := by simp
  have hm : m.encode ++ t = [m.rtype.asU8, m.flags] ++
      (m.expireAt.toBeBytes ++ (m.version.toBeBytes ++ (m.size.toBeBytes ++ t))) := by
    simp [KeyMeta.encode]
  have hdrop : (m.encode ++ t).drop (2 + 8) = m.version.toBeBytes ++ (m.size.toBeBytes ++ t) := by
    rw [hm, ← hexp, ← List.drop_drop]
    exact List.drop_left
  simp only [patchExpireAt, if_neg (m.encode_not_kvrocks t), if_pos hlen, hdrop, Option.some.injEq]
  simp [KeyMeta.encode]

theorem setKeyExpireAt_ops (s : Store) (kc : KeyComposer) (key : Key) (now expireAtMs : UInt64)
    (cond : ExpireCondition) :
    (setKeyExpireAtImplWithCondition s kc key now expireAtMs cond).2 = [] ∨
    (∃ v, (setKeyExpireAtImplWithCondition s kc key now expireAtMs cond).2 =
      [.insertData (composeStringKey kc key.bytes) v]) ∨
    ∃ tag ∈ allCompositeMetaTags, ∃ v v', s.at ⟨kc, key, .metadata tag⟩ = some v ∧
      patchExpireAt v expireAtMs = some v' ∧
      (setKeyExpireAtImplWithCondition s kc key now expireAtMs cond).2 =
        [.insertMeta (kc.composeMetaKeyStack tag.asSlice key.bytes) v'] := by
  rw [setKeyExpireAtImplWithCondition]
  cases liveString s kc key now with
  | some x =>
    simp only
    split_ifs
    · exact Or.inl rfl
    · exact Or.inl rfl
    · exact Or.inr (Or.inl ⟨_, rfl⟩)
  | none =>
    cases hf : findActiveCompositeMeta s kc key now with
    | none => exact Or.inl rfl
    | some x =>
      obtain ⟨tag, m, v⟩ := x
      obtain ⟨htag, hlive⟩ := findActive_spec hf
      simp only
      split_ifs
      · exact Or.inl rfl
      · exact Or.inl rfl
      · cases hp : patchExpireAt v expireAtMs with
        | none => exact Or.inl rfl
        | some v' => exact Or.inr (Or.inr ⟨tag, htag, v, v', liveMeta_eq_some hlive, hp, rfl⟩)

end Wedb
