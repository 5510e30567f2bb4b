import Wedb.String.Lcs
import Wedb.String.Value

/-!
# Appending and ranges

APPEND and SETRANGE build the new value in a buffer when it has at most 55 bytes and on
the heap otherwise. SETRANGE copies the part before the offset, pads with zeros past the
end, and copies the rest behind the written bytes; an empty value on an absent key is
turned away. GETRANGE cuts its indices to the payload.
-/

namespace Wedb

def oldPayload : Option (Bytes × UInt64 × ℕ) → Bytes
  | some (raw, _, off) => raw.drop off
  | none => []

def oldLenExpire : Option (Bytes × UInt64 × ℕ) → ℕ × UInt64
  | some (raw, exp, off) => (raw.length - off, exp)
  | none => (0, 0)

def resizeZeros (v : Bytes) (n : ℕ) : Bytes := v.take n ++ List.replicate (n - v.length) 0

def appendStack (oldRaw : Option (Bytes × UInt64 × ℕ)) (curExpire : UInt64) (valBytes : Bytes) :
    Option Bytes := do
  let stackBuf ← writeAt (List.replicate stackBufLen 0) 0 (stackHeader curExpire)
  let pos := stringHdrSize
  let (stackBuf, pos) ← match oldRaw with
    | some (raw, _, off) => do
      let oldSlice := raw.drop off
      let stackBuf ← writeAt stackBuf pos oldSlice
      some (stackBuf, pos + oldSlice.length)
    | none => some (stackBuf, pos)
  let stackBuf ← writeAt stackBuf pos valBytes
  some (stackBuf.take (pos + valBytes.length))

def appendHeap (oldRaw : Option (Bytes × UInt64 × ℕ)) (curExpire : UInt64) (valBytes : Bytes) :
    Bytes :=
  let encVal := encodeStringHeader curExpire
  let encVal := match oldRaw with
    | some (raw, _, off) => encVal ++ raw.drop off
    | none => encVal
  encVal ++ valBytes

def setrangeStack (oldRaw : Option (Bytes × UInt64 × ℕ)) (curExpire : UInt64) (offset : ℕ)
    (valBytes : Bytes) (newTotalLen : ℕ) : Option Bytes := do
  let stackBuf ← writeAt (List.replicate stackBufLen 0) 0 (stackHeader curExpire)
  let payloadStart := stringHdrSize
  let stackBuf ← match oldRaw with
    | some (raw, _, off) => writeAt stackBuf payloadStart (raw.drop off)
    | none => some stackBuf
  let stackBuf ← writeAt stackBuf (payloadStart + offset) valBytes
  some (stackBuf.take (payloadStart + newTotalLen))

def setrangeHeap (oldRaw : Option (Bytes × UInt64 × ℕ)) (curExpire : UInt64) (oldLen offset : ℕ)
    (valBytes : Bytes) (requiredLen : ℕ) : Bytes :=
  let encVal := encodeStringHeader curExpire
  let encVal := match oldRaw with
    | some (raw, _, off) =>
      let oldPayload := raw.drop off
      if offset < oldLen then encVal ++ oldPayload.take offset
      else resizeZeros (encVal ++ oldPayload) (stringHdrSize + offset)
    | none => resizeZeros encVal (stringHdrSize + offset)
  let encVal := encVal ++ valBytes
  if oldLen > requiredLen then
    match oldRaw with
    | some (raw, _, off) => encVal ++ (raw.drop off).drop requiredLen
    | none => encVal
  else encVal

section
variable (s : Store) (kc : KeyComposer) (key : Key) (nowMs : UInt64)

def strlen : Except Error ℕ :=
  (getStringRaw s kc key nowMs).map fun
    | some (raw, _, offset) => raw.length - offset
    | none => 0

/-- `none` is a panic; a call that ends with an error queues nothing. -/
def append (valBytes : Bytes) : Option (Except Error (ℕ × Batch)) :=
  match getStringRaw s kc key nowMs with
  | .error err => some (.error err)
  | .ok oldRaw =>
    let (curLen, curExpire) := oldLenExpire oldRaw
    let newLen := curLen + valBytes.length
    if newLen ≥ 2 ^ 64 then some (.error (.invalidData errStringExceedsMaxSize))
    else if newLen > maxStringSize then some (.error (.invalidData errStringExceedsMaxSize))
    else if newLen ≤ stackPayloadMax then
      (appendStack oldRaw curExpire valBytes).map fun encVal =>
        .ok (newLen, writeStringVal s kc key encVal oldRaw.isNone)
    else
      some (.ok (newLen, writeStringVal s kc key (appendHeap oldRaw curExpire valBytes)
        oldRaw.isNone))

def getrange (start stop : Int64) : Except Error Bytes :=
  (getStringRaw s kc key nowMs).map fun
    | some (raw, _, offset) =>
      let payload := raw.drop offset
      let (s, e) := normalizeRange start.toInt stop.toInt payload.length
      if s > e ∨ payload.isEmpty then []
      else (payload.drop s.toNat).take (e.toNat + 1 - s.toNat)
    | none => []

def setrange (offset : ℕ) (valBytes : Bytes) : Option (Except Error (ℕ × Batch)) :=
  if offset > maxStringSize then some (.error (.invalidData errOffsetOutOfRange))
  else
    let requiredLen := offset + valBytes.length
    if requiredLen ≥ 2 ^ 64 then some (.error (.invalidData errStringExceedsMaxSize))
    else if requiredLen > maxStringSize then some (.error (.invalidData errStringExceedsMaxSize))
    else
      match getStringRaw s kc key nowMs with
      | .error err => some (.error err)
      | .ok oldRaw =>
        if oldRaw.isNone && valBytes.isEmpty then some (.ok (0, []))
        else
          let (oldLen, curExpire) := oldLenExpire oldRaw
          let newTotalLen := max oldLen requiredLen
          if newTotalLen ≤ stackPayloadMax then
            (setrangeStack oldRaw curExpire offset valBytes newTotalLen).map fun encVal =>
              .ok (newTotalLen, writeStringVal s kc key encVal oldRaw.isNone)
          else
            some (.ok (newTotalLen, writeStringVal s kc key
              (setrangeHeap oldRaw curExpire oldLen offset valBytes requiredLen) oldRaw.isNone))

end

/-! ## Both paths build the same value -/

section
variable {oldRaw : Option (Bytes × UInt64 × ℕ)} {exp : UInt64} {v : Bytes} {offset : ℕ}

theorem write_header (exp : UInt64) :
    writeAt (List.replicate stackBufLen (0 : UInt8)) 0 (stackHeader exp) =
      some (encodeStringHeader exp ++ List.replicate stackPayloadMax 0) := by
  have hwrite := writeAt_padding (0 : UInt8) [] (encodeStringHeader exp) (n := stackBufLen)
    (by rw [encodeStringHeader_length]; decide)
  rw [encodeStringHeader_length, List.nil_append, List.nil_append] at hwrite
  rw [stackHeader_eq]
  exact hwrite

theorem write_payload (exp : UInt64) {p : Bytes} (h : p.length ≤ stackPayloadMax) :
    writeAt (encodeStringHeader exp ++ List.replicate stackPayloadMax 0) stringHdrSize p =
      some (encodeStringHeader exp ++ p ++ List.replicate (stackPayloadMax - p.length) 0) := by
  have hwrite := writeAt_padding (0 : UInt8) (encodeStringHeader exp) p h
  rwa [encodeStringHeader_length] at hwrite

/-- The new value in the buffer overwrites the payload behind the header. -/
theorem setrangeStack_eq {newLen : ℕ}
    (hnew : newLen = max (oldPayload oldRaw).length (offset + v.length))
    (hfit : newLen ≤ stackPayloadMax) : setrangeStack oldRaw exp offset v newLen =
      some (encodeStringValue (overwrite 0 (oldPayload oldRaw) offset v) exp) := by
  have hpayload := write_payload exp (p := oldPayload oldRaw) (by omega)
  obtain ⟨buf, hwrite, htake⟩ := writeAt_overwrite (0 : UInt8) (encodeStringHeader exp)
    (oldPayload oldRaw) v (stackPayloadMax - (oldPayload oldRaw).length) offset (by omega)
  rw [encodeStringHeader_length] at hwrite htake
  rw [← hnew] at htake
  cases oldRaw with
  | none =>
    simp only [oldPayload, List.append_nil, List.length_nil, Nat.sub_zero] at hwrite htake ⊢
    simp only [setrangeStack, write_header, Option.bind_eq_bind, Option.bind_some, hwrite, htake]
    rfl
  | some x =>
    simp only [oldPayload] at hpayload hwrite htake ⊢
    simp only [setrangeStack, write_header, Option.bind_eq_bind, Option.bind_some, hpayload, hwrite,
      htake]
    rfl

theorem appendStack_eq (hfit : (oldPayload oldRaw).length + v.length ≤ stackPayloadMax) :
    appendStack oldRaw exp v = some (encodeStringValue (oldPayload oldRaw ++ v) exp) := by
  have hnew : (oldPayload oldRaw).length + v.length =
      max (oldPayload oldRaw).length ((oldPayload oldRaw).length + v.length) := by omega
  have hset : setrangeStack oldRaw exp (oldPayload oldRaw).length v _ = _ :=
    setrangeStack_eq hnew hfit
  rw [overwrite_self_length] at hset
  rw [← hset, appendStack, setrangeStack]
  cases oldRaw with
  | none => simp only [write_header, Option.bind_eq_bind, Option.bind_some, oldPayload,
      List.length_nil, Nat.add_zero, Nat.zero_add]
  | some x =>
    simp only [write_header, Option.bind_eq_bind, Option.bind_some, oldPayload,
      Nat.add_assoc]

theorem appendHeap_eq : appendHeap oldRaw exp v = encodeStringValue (oldPayload oldRaw ++ v) exp := by
  cases oldRaw with
  | none => rfl
  | some x => exact List.append_assoc _ _ _

variable (exp) in
theorem resizeZeros_header {p : Bytes} (h : p.length ≤ offset) :
    resizeZeros (encodeStringHeader exp ++ p) (stringHdrSize + offset) =
      encodeStringHeader exp ++ (p ++ List.replicate (offset - p.length) 0) := by
  have hlen : (encodeStringHeader exp ++ p).length ≤ stringHdrSize + offset := by
    rw [List.length_append, encodeStringHeader_length]
    omega
  rw [resizeZeros, List.take_of_length_le hlen, List.length_append, encodeStringHeader_length,
    Nat.add_sub_add_left, List.append_assoc]

theorem setrangeHeap_eq {oldLen : ℕ} (hold : oldLen = (oldPayload oldRaw).length) :
    setrangeHeap oldRaw exp oldLen offset v (offset + v.length) =
      encodeStringValue (overwrite 0 (oldPayload oldRaw) offset v) exp := by
  cases oldRaw with
  | none =>
    have hfront := @resizeZeros_header exp offset [] (Nat.zero_le _)
    rw [List.append_nil] at hfront
    rw [oldPayload, List.length_nil] at hold
    subst hold
    simp only [setrangeHeap, hfront, if_neg (Nat.not_lt_zero _), gt_iff_lt]
    simp only [encodeStringValue, overwrite, oldPayload, List.take_nil, List.drop_nil,
      List.append_nil, List.append_assoc]
  | some x =>
    obtain ⟨raw, e, off⟩ := x
    simp only [setrangeHeap, oldPayload, encodeStringValue, overwrite] at hold ⊢
    generalize raw.drop off = p at hold ⊢
    subst hold
    have hrest : (if p.length > offset + v.length then p.drop (offset + v.length) else []) =
        p.drop (offset + v.length) := by
      split_ifs with h
      · rfl
      · rw [List.drop_of_length_le (not_lt.mp h)]
    by_cases hin : offset < p.length
    · rw [if_pos hin, Nat.sub_eq_zero_of_le hin.le, List.replicate_zero, List.append_nil, ← hrest]
      split_ifs <;> simp only [List.append_assoc, List.append_nil]
    · rw [if_neg hin, resizeZeros_header exp (not_lt.mp hin), List.take_of_length_le (not_lt.mp hin),
        ← hrest]
      split_ifs <;> simp only [List.append_assoc, List.append_nil]

end

/-! ## What the commands are for -/

/-- The key is absent, or a live string with the payload and the expiry. -/
inductive StringState (s : Store) (kc : KeyComposer) (key : Key) (nowMs : UInt64) :
    Bytes → UInt64 → Bool → Prop
  | absent : existsOne s kc key nowMs = false → StringState s kc key nowMs [] 0 false
  | live {p : Bytes} {exp : UInt64} : liveString s kc key nowMs = some (exp, p) →
      StringState s kc key nowMs p exp true

def bytePosition (len : ℕ) (index : ℤ) : ℤ := if index < 0 then len + index else index

def byteSlice (p : Bytes) (start stop : ℤ) : Bytes :=
  (p.zipIdx.filter fun x => decide (bytePosition p.length start ≤ x.2 ∧
    (x.2 : ℤ) ≤ bytePosition p.length stop)).map Prod.fst

/-- The call returns the length of the payload `p` and stores it with the expiry. -/
def WritesString (s : Store) (kc : KeyComposer) (key : Key) (nowMs : UInt64)
    (plan : Option (Except Error (ℕ × Batch))) (p : Bytes) (exp : UInt64) : Prop :=
  ∃ ops, plan = some (.ok (p.length, ops)) ∧
    (s.apply ops).at ⟨kc, key, .str⟩ = some (encodeStringValue p exp) ∧
    liveString (s.apply ops) kc key nowMs = some (exp, p)

section
variable {s : Store} {kc : KeyComposer} {key : Key} {now exp : UInt64} {p v : Bytes} {live : Bool}
  {offset : ℕ}

theorem StringState.raw (h : StringState s kc key now p exp live) :
    ∃ oldRaw, getStringRaw s kc key now = .ok oldRaw ∧ oldPayload oldRaw = p ∧
      oldLenExpire oldRaw = (p.length, exp) ∧ oldRaw.isNone = !live := by
  cases h with
  | absent habsent => exact ⟨none, getStringRaw_of_absent habsent, rfl, rfl, rfl⟩
  | live hlive =>
    obtain ⟨raw, hraw, hdrop⟩ := getStringRaw_of_live hlive
    refine ⟨_, hraw, hdrop, ?_, rfl⟩
    rw [oldLenExpire, ← List.length_drop, hdrop]

theorem StringState.not_expired (h : StringState s kc key now p exp live) :
    isStringExpired exp now = false := by
  cases h with
  | absent habsent => rfl
  | live hlive => exact not_expired_of_live hlive

theorem writes_of_eq (h : StringState s kc key now p exp live) {plan : Option (Except Error (ℕ × Batch))}
    (oldIsNone : Bool) (hplan : plan =
      some (.ok (v.length, writeStringVal s kc key (encodeStringValue v exp) oldIsNone))) :
    WritesString s kc key now plan v exp :=
  ⟨_, hplan, writeStringVal_at s kc key _ oldIsNone,
    liveString_of_at (writeStringVal_at s kc key _ oldIsNone) h.not_expired⟩

theorem strlen_eq (h : StringState s kc key now p exp live) :
    strlen s kc key now = .ok p.length := by
  obtain ⟨oldRaw, hraw, -, hlen, -⟩ := h.raw
  rw [strlen, hraw]
  cases oldRaw with
  | none => exact congrArg Except.ok (congrArg Prod.fst hlen)
  | some x => exact congrArg Except.ok (congrArg Prod.fst hlen)

theorem append_writes (h : StringState s kc key now p exp live)
    (hfit : p.length + v.length ≤ maxStringSize) :
    WritesString s kc key now (append s kc key now v) (p ++ v) exp := by
  obtain ⟨oldRaw, hraw, hpayload, hlen, -⟩ := h.raw
  have hword : maxStringSize < 2 ^ 64 := by decide
  refine writes_of_eq h oldRaw.isNone ?_
  simp only [append, hraw, hlen]
  rw [if_neg (by omega), if_neg (by omega), List.length_append]
  by_cases hsmall : p.length + v.length ≤ stackPayloadMax
  · rw [if_pos hsmall, appendStack_eq (by rw [hpayload]; exact hsmall), hpayload]
    rfl
  · rw [if_neg hsmall, appendHeap_eq, hpayload]

theorem append_too_long (h : StringState s kc key now p exp live)
    (hlong : maxStringSize < p.length + v.length) :
    append s kc key now v = some (.error (.invalidData errStringExceedsMaxSize)) := by
  obtain ⟨oldRaw, hraw, -, hlen, -⟩ := h.raw
  simp only [append, hraw, hlen]
  split_ifs <;> rfl

theorem setrange_writes (h : StringState s kc key now p exp live)
    (hfit : offset + v.length ≤ maxStringSize) (hset : live = true ∨ v ≠ []) :
    WritesString s kc key now (setrange s kc key now offset v) (overwrite 0 p offset v) exp := by
  obtain ⟨oldRaw, hraw, hpayload, hlen, hnone⟩ := h.raw
  have hword : maxStringSize < 2 ^ 64 := by decide
  have hguard : ¬(oldRaw.isNone && v.isEmpty) = true := by
    rw [hnone]
    rcases hset with hlive | hne
    · simp [hlive]
    · simp [hne]
  refine writes_of_eq h oldRaw.isNone ?_
  simp only [setrange]
  rw [if_neg (by omega), if_neg (by omega), if_neg (by omega), hraw]
  simp only [hlen]
  rw [if_neg hguard, overwrite_length]
  by_cases hsmall : max p.length (offset + v.length) ≤ stackPayloadMax
  · rw [if_pos hsmall, setrangeStack_eq (by rw [hpayload]) hsmall, hpayload]
    rfl
  · rw [if_neg hsmall, setrangeHeap_eq (by rw [hpayload]), hpayload]

theorem setrange_empty_absent (h : existsOne s kc key now = false) (hfit : offset ≤ maxStringSize) :
    setrange s kc key now offset [] = some (.ok (0, [])) := by
  have hword : maxStringSize < 2 ^ 64 := by decide
  simp only [setrange, getStringRaw_of_absent h, List.length_nil]
  rw [if_neg (by omega), if_neg (by omega), if_neg (by omega)]
  rfl

theorem setrange_too_long (s : Store) (kc : KeyComposer) (key : Key) (now : UInt64)
    (hlong : maxStringSize < offset + v.length) :
    ∃ err, setrange s kc key now offset v = some (.error err) := by
  rw [setrange]
  by_cases hoffset : offset > maxStringSize
  · exact ⟨_, if_pos hoffset⟩
  rw [if_neg hoffset]
  by_cases hword : offset + v.length ≥ 2 ^ 64
  · exact ⟨_, if_pos hword⟩
  · exact ⟨_, (if_neg hword).trans (if_pos hlong)⟩

theorem normalizeRange_positions (start stop : ℤ) {n : ℕ} (hn : 0 < n) :
    normalizeRange start stop n = (max 0 (bytePosition n start), min (bytePosition n stop) (n - 1)) := by
  rw [normalizeRange, if_neg (by omega)]
  simp only [bytePosition, Prod.mk.injEq]
  constructor
  · split_ifs <;> omega
  · split_ifs <;> omega

theorem byteSlice_eq (p : Bytes) (start stop : ℤ) : byteSlice p start stop =
    if max 0 (bytePosition p.length start) > min (bytePosition p.length stop) (p.length - 1) then []
    else (p.drop (max 0 (bytePosition p.length start)).toNat).take
      ((min (bytePosition p.length stop) (p.length - 1)).toNat + 1 -
        (max 0 (bytePosition p.length start)).toNat) := by
  rw [byteSlice]
  generalize bytePosition p.length start = a
  generalize bytePosition p.length stop = b
  have hpos : ∀ x ∈ p.zipIdx, x.2 < p.length := fun x hx => List.snd_lt_of_mem_zipIdx hx
  by_cases hcut : max 0 a > min b (p.length - 1)
  · rw [if_pos hcut, List.map_eq_nil_iff, List.filter_eq_nil_iff]
    intro x hx
    have hlt := hpos x hx
    rw [decide_eq_true_eq]
    omega
  · have hcongr : p.zipIdx.filter (fun x => decide (a ≤ x.2 ∧ (x.2 : ℤ) ≤ b)) = p.zipIdx.filter
        fun x => decide ((max 0 a).toNat ≤ x.2 ∧ x.2 ≤ (min b (p.length - 1)).toNat) := by
      refine List.filter_congr fun x hx => decide_eq_decide.mpr ?_
      have hlt := hpos x hx
      omega
    rw [if_neg hcut, hcongr, filter_zipIdx_between, Nat.sub_zero, Nat.max_zero]

/-- The indices are cut to the payload and the bytes between them returned. -/
theorem getrange_eq (h : StringState s kc key now p exp live) (start stop : Int64) :
    getrange s kc key now start stop = .ok (byteSlice p start.toInt stop.toInt) := by
  obtain ⟨oldRaw, hraw, hpayload, -, -⟩ := h.raw
  rw [getrange, hraw]
  refine congrArg Except.ok ?_
  cases oldRaw with
  | none =>
    rw [← hpayload]
    rfl
  | some x =>
    simp only [oldPayload] at hpayload
    simp only [hpayload]
    by_cases hempty : p = []
    · rw [hempty, if_pos (Or.inr (show List.isEmpty [] = true from rfl))]
      rfl
    · have hne : p.isEmpty = false := by
        rwa [List.isEmpty_eq_false_iff]
      rw [byteSlice_eq, normalizeRange_positions _ _ (List.length_pos_iff.mpr hempty)]
      simp only [hne, Bool.false_eq_true, or_false]

end

/-- String mutation on a key with the payload `p` and the expiry `exp`. -/
structure MutationExact (s : Store) (kc : KeyComposer) (key : Key) (now : UInt64) (p : Bytes)
    (exp : UInt64) (live : Bool) : Prop where
  append_writes : ∀ v, p.length + v.length ≤ maxStringSize →
    WritesString s kc key now (append s kc key now v) (p ++ v) exp
  append_fails : ∀ v, maxStringSize < p.length + v.length →
    ∃ err, append s kc key now v = some (.error err)
  setrange_writes : ∀ offset v, offset + v.length ≤ maxStringSize → live = true ∨ v ≠ [] →
    WritesString s kc key now (setrange s kc key now offset v) (overwrite 0 p offset v) exp
  setrange_absent : live = false → ∀ offset, offset ≤ maxStringSize →
    setrange s kc key now offset [] = some (.ok (0, []))
  setrange_fails : ∀ offset v, maxStringSize < offset + v.length →
    ∃ err, setrange s kc key now offset v = some (.error err)
  strlen_eq : strlen s kc key now = .ok p.length
  getrange_eq : ∀ start stop : Int64,
    getrange s kc key now start stop = .ok (byteSlice p start.toInt stop.toInt)

theorem stringMutation_exact (s : Store) (kc : KeyComposer) (key : Key) (now : UInt64) (p : Bytes)
    (exp : UInt64) (live : Bool) (h : StringState s kc key now p exp live) :
    MutationExact s kc key now p exp live where
  append_writes v hfit := append_writes h hfit
  append_fails v hlong := ⟨_, append_too_long h hlong⟩
  setrange_writes offset v hfit hset := setrange_writes h hfit hset
  setrange_absent hdead offset hfit := by
    cases h with
    | absent habsent => exact setrange_empty_absent habsent hfit
    | live hlive => cases hdead
  setrange_fails offset v hlong := setrange_too_long s kc key now hlong
  strlen_eq := strlen_eq h
  getrange_eq start stop := getrange_eq h start stop

theorem stringMutation_exact_sample :
    MutationExact ((∅ : Store).apply [.insertData (composeStringKey ⟨0, 0⟩ sampleKey.bytes)
      (encodeStringValue [104, 105] 9)]) ⟨0, 0⟩ sampleKey 5 [104, 105] 9 true :=
  stringMutation_exact _ ⟨0, 0⟩ sampleKey 5 [104, 105] 9 true (.live (by decide))

/-- An empty value is not written to an absent key. -/
theorem setrange_keeps_absent : ¬∀ s kc key now p exp live, StringState s kc key now p exp live →
    ∀ offset v, offset + v.length ≤ maxStringSize →
      WritesString s kc key now (setrange s kc key now offset v) (overwrite 0 p offset v) exp := by
  intro h
  obtain ⟨ops, hplan, -⟩ := h ∅ ⟨0, 0⟩ sampleKey 0 [] 0 false (.absent (by decide)) 1 [] (by decide)
  rw [setrange_empty_absent (by decide) (by decide)] at hplan
  cases hplan

end Wedb
