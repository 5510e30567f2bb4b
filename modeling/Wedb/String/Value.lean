import Wedb.Key.Cleanup
import Wedb.Ordered.Buffer

/-!
# Reading and writing strings

A command reads the live string of a key, or finds no other type there. A value is
encoded behind its header in a buffer of 64 bytes when it has at most 55, and on the
heap otherwise; both give the same bytes. A write to a key without a live string clears
what composite data is left under the key.
-/

namespace Wedb

def errOffsetOutOfRange : String := "ERR offset is out of range"

def errStringExceedsMaxSize : String := "ERR string exceeds maximum allowed size (512MB)"

def stackBufLen : ℕ := 64

def stackPayloadMax : ℕ := 55

def stringNoExpiryHeader : Bytes := encodeStringHeader 0

def stackHeader (expireAtMs : UInt64) : Bytes :=
  if expireAtMs = 0 then stringNoExpiryHeader else encodeStringHeader expireAtMs

/-- `none` is a write past the buffer's end, which panics. -/
def withEncodedStringValue (valBytes : Bytes) (expireAtMs : UInt64) : Option Bytes :=
  if valBytes.length ≤ stackPayloadMax then do
    let stackBuf ← writeAt (List.replicate stackBufLen 0) 0 (stackHeader expireAtMs)
    let total := stringHdrSize + valBytes.length
    let stackBuf ← writeAt stackBuf stringHdrSize valBytes
    some (stackBuf.take total)
  else some (encodeStringValue valBytes expireAtMs)

section
variable (s : Store) (kc : KeyComposer) (key : Key) (nowMs : UInt64)

/-- No composite type is live under the key: the check against an empty tag. -/
def checkNoCompositeMeta : Except Error Unit :=
  if s.metadata.isEmpty then .ok ()
  else if allCompositeMetaTags.any fun tag => (liveMeta s kc key nowMs tag).isSome then
    .error Error.wrongTypeDefault
  else .ok ()

def getStringRaw : Except Error (Option (Bytes × UInt64 × ℕ)) :=
  match s.data.get (composeStringKey kc key.bytes) with
  | some raw =>
    let (expireAt, payload) := decodeStringValue raw
    if isStringExpired expireAt nowMs then
      (checkNoCompositeMeta s kc key nowMs).map fun _ => none
    else .ok (some (raw, expireAt, raw.length - payload.length))
  | none => (checkNoCompositeMeta s kc key nowMs).map fun _ => none

def writeStringVal (encVal : Bytes) (oldIsNone : Bool) : Batch :=
  if oldIsNone && !s.metadata.isEmpty then
    .insertData (composeStringKey kc key.bytes) encVal :: cleanupAllCompositeDataWithBuf s kc key
  else [.insertData (composeStringKey kc key.bytes) encVal]

end

/-! ## Encoding -/

section
variable {s : Store} {kc : KeyComposer} {key : Key} {now exp : UInt64} {payload raw : Bytes}
  {o : WriteOp}

theorem stackHeader_eq (exp : UInt64) : stackHeader exp = encodeStringHeader exp := by
  rw [stackHeader]
  split_ifs with h
  · rw [h, stringNoExpiryHeader]
  · rfl

@[simp] theorem encodeStringHeader_length (exp : UInt64) :
    (encodeStringHeader exp).length = stringHdrSize := by
  rw [encodeStringHeader, List.length_cons, UInt64.toBeBytes_length]
  rfl

theorem write_stackHeader (exp : UInt64) :
    ∃ buf, writeAt (List.replicate stackBufLen (0 : UInt8)) 0 (stackHeader exp) = some buf ∧
      Filled stackBufLen buf (encodeStringHeader exp) := by
  have hstart : Filled stackBufLen (List.replicate stackBufLen (0 : UInt8)) [] :=
    Filled.empty List.length_replicate
  rw [stackHeader_eq]
  refine hstart.write 0 (encodeStringHeader exp) rfl ?_
  rw [encodeStringHeader_length]
  decide

theorem withEncodedStringValue_eq (payload : Bytes) (exp : UInt64) :
    withEncodedStringValue payload exp = some (encodeStringValue payload exp) := by
  rw [withEncodedStringValue]
  by_cases hsmall : payload.length ≤ stackPayloadMax
  · obtain ⟨buf, hwrite, hfill⟩ := write_stackHeader exp
    obtain ⟨buf', hwrite', hfill'⟩ := hfill.write stringHdrSize payload
      (encodeStringHeader_length exp).symm (Nat.add_le_add_left hsmall stringHdrSize)
    have htake := hfill'.take
    rw [List.length_append, encodeStringHeader_length] at htake
    simp only [if_pos hsmall, hwrite, hwrite', Option.bind_eq_bind, Option.bind_some, htake]
    rfl
  · rw [if_neg hsmall]

theorem drop_payload (raw : Bytes) :
    raw.drop (raw.length - (decodeStringValue raw).2.length) = (decodeStringValue raw).2 := by
  rw [decodeStringValue]
  split_ifs with h
  · rw [List.length_drop, Nat.sub_sub_self h.1]
  · rw [Nat.sub_self, List.drop_zero]

/-! ## Reading -/

theorem getStringRaw_of_live (h : liveString s kc key now = some (exp, payload)) :
    ∃ raw, getStringRaw s kc key now = .ok (some (raw, exp, raw.length - payload.length)) ∧
      raw.drop (raw.length - payload.length) = payload := by
  rw [liveString] at h
  rw [getStringRaw]
  cases hg : s.data.get (composeStringKey kc key.bytes) with
  | none =>
    rw [hg] at h
    cases h
  | some raw =>
    rw [hg] at h
    simp only at h ⊢
    by_cases hexp : isStringExpired (decodeStringValue raw).1 now = true
    · rw [if_pos hexp] at h
      cases h
    · rw [if_neg hexp, Option.some.injEq] at h
      have hdec : decodeStringValue raw = (exp, payload) := h
      have hdrop := drop_payload raw
      rw [hdec] at hdrop hexp ⊢
      exact ⟨raw, if_neg hexp, hdrop⟩

theorem checkNoCompositeMeta_of_absent (h : existsOne s kc key now = false) :
    checkNoCompositeMeta s kc key now = .ok () := by
  obtain ⟨-, hmeta⟩ := existsOne_eq_false.mp h
  rw [checkNoCompositeMeta]
  split_ifs with hempty hany
  · rfl
  · rw [List.any_eq_true] at hany
    obtain ⟨tag, htag, hlive⟩ := hany
    rw [hmeta tag htag] at hlive
    cases hlive
  · rfl

theorem getStringRaw_of_absent (h : existsOne s kc key now = false) :
    getStringRaw s kc key now = .ok none := by
  obtain ⟨hstr, -⟩ := existsOne_eq_false.mp h
  rw [liveString] at hstr
  rw [getStringRaw, checkNoCompositeMeta_of_absent h]
  cases hg : s.data.get (composeStringKey kc key.bytes) with
  | none => rfl
  | some raw =>
    rw [hg] at hstr
    simp only at hstr ⊢
    by_cases hexp : isStringExpired (decodeStringValue raw).1 now = true
    · rw [if_pos hexp]
      rfl
    · rw [if_neg hexp] at hstr
      cases hstr

/-! ## Writing -/

theorem cleanupAll_not_str (ho : o ∈ cleanupAllCompositeDataWithBuf s kc key) (a : KeyComposer)
    (k : Key) : ¬(o.partition = .data ∧ o.key = Addr.phys ⟨a, k, .str⟩) := by
  rintro ⟨hp, hk⟩
  rw [cleanupAll_eq] at ho
  obtain ⟨tag, -, ho⟩ := List.mem_flatMap.mp ho
  split_ifs at ho with hsome
  · rcases List.mem_cons.mp ho with rfl | ho
    · cases hp
    · have hfamily : ∀ t ∈ KeyTag.all, ∀ f ∈ cleanupFamilies t,
          o ∈ clearPrefixInBatch s f.1 (kc.composePrefixStack f.2.asSlice key.bytes) → False := by
        intro t _ f hf hmem
        simp only [clearPrefixInBatch, Store.rmPrefixed, List.mem_map, SortedMap.mem_prefixed] at hmem
        obtain ⟨c, ⟨x, ⟨hpre, -⟩, rfl⟩, rfl⟩ := hmem
        rw [show x.1 = Addr.phys ⟨a, k, .str⟩ from hk,
          framePrefix_prefix_iff (b := ⟨a, k, .str⟩) (cleanupFamilies_isFramed hf) trivial] at hpre
        cases hpre.2.2
      simp only [cleanupCompositeData, cleanupCompositeDataRaw, KeyTag.fromU8_asU8] at ho
      split at ho
      · rw [List.mem_singleton.mp ho] at hk
        have ha := Addr.phys_inj (a := ⟨kc, key, .hllRaw⟩) (b := ⟨a, k, .str⟩) trivial trivial rfl hk
        cases ha
      · obtain ⟨f, hf, hmem⟩ := List.mem_flatMap.mp ho
        exact hfamily _ (KeyTag.mem_all _) f hf hmem
      · cases ho
  · cases ho

theorem str_at_insertData (s : Store) (kc : KeyComposer) (key : Key) (v : Bytes) :
    (s.applyOp (.insertData (composeStringKey kc key.bytes) v)).at ⟨kc, key, .str⟩ = some v :=
  (Store.at_insert s (a := ⟨kc, key, .str⟩) (b := ⟨kc, key, .str⟩) trivial trivial v).trans
    (if_pos rfl)

theorem writeStringVal_at (s : Store) (kc : KeyComposer) (key : Key) (v : Bytes) (oldIsNone : Bool) :
    (s.apply (writeStringVal s kc key v oldIsNone)).at ⟨kc, key, .str⟩ = some v := by
  rw [writeStringVal]
  split_ifs
  · rw [Store.apply_cons]
    exact (Store.at_apply_of_forall_ne (a := ⟨kc, key, .str⟩)
      fun o ho => cleanupAll_not_str ho kc key).trans (str_at_insertData s kc key v)
  · exact str_at_insertData s kc key v

theorem liveString_of_at (h : s.at ⟨kc, key, .str⟩ = some (encodeStringValue payload exp))
    (hexp : isStringExpired exp now = false) :
    liveString s kc key now = some (exp, payload) := by
  rw [liveString_eq_at, h, Option.map_some, decodeStringValue_encodeStringValue, Option.filter_some,
    hexp]
  rfl

theorem not_expired_of_live (h : liveString s kc key now = some (exp, payload)) :
    isStringExpired exp now = false := by
  rw [liveString_eq_at, Option.filter_eq_some_iff] at h
  simpa using h.2

end

end Wedb
