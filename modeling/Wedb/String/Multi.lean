import Wedb.String.Lcs
import Wedb.String.Value
import Wedb.ZSet.Impl

/-!
# Several strings in one batch

A call checks its condition for each listed key first and then queues each value with the
clean-up of its key. Without metadata, an expiry to keep or one to set, the values are queued
alone.
-/

namespace Wedb

inductive StringSetType
  | none
  | nx
  | xx
  | ifEq
  | ifNe
  | ifDeq
  | ifDne
  deriving DecidableEq, Repr

structure StringSet where
  expire : UInt64 := 0
  setType : StringSetType := .none
  get : Bool := false
  keepTtl : Bool := false
  cmpValue : Option Bytes := .none

def StringSet.isFastPath (args : StringSet) : Bool :=
  decide (args.setType = .none) && !args.get && !args.keepTtl && args.cmpValue.isNone

structure StringMSet where
  expire : UInt64 := 0
  setType : StringSetType := .none
  keepTtl : Bool := false

def errDigestInvalidLen : String := "ERR digest must be exactly 16 hexadecimal characters"

def Error.isWrongType : Error → Bool
  | .wrongType _ => true
  | _ => false

/-! ## One value -/

section

variable (digest : Bytes → Bytes) (s : Store) (kc : KeyComposer) (key : Key) (nowMs : UInt64)

def isAsciiHexdigit (b : UInt8) : Bool :=
  decide (0x30 ≤ b ∧ b ≤ 0x39) || decide (0x41 ≤ b ∧ b ≤ 0x46) || decide (0x61 ≤ b ∧ b ≤ 0x66)

def eqDigestIgnoreCase (a b : Bytes) : Bool :=
  let lower := fun c : UInt8 => if 0x41 ≤ c ∧ c ≤ 0x5A then c + 32 else c
  decide (a.map lower = b.map lower)

def conditionMet (args : StringSet) (oldRaw : Option (Bytes × UInt64 × ℕ)) (oldIsWrongType : Bool) :
    Bool :=
  let old := oldRaw.map fun r => r.1.drop r.2.2
  match args.setType with
  | .none => true
  | .nx => oldRaw.isNone && !oldIsWrongType
  | .xx => oldRaw.isSome || oldIsWrongType
  | .ifEq => args.cmpValue.any fun expected => old.any fun r => decide (r = expected)
  | .ifNe => args.cmpValue.all fun expected => old.all fun r => !decide (r = expected)
  | .ifDeq => args.cmpValue.any fun expected => old.any fun r =>
      eqDigestIgnoreCase (digest r) expected
  | .ifDne => args.cmpValue.all fun expected => old.all fun r =>
      !eqDigestIgnoreCase (digest r) expected

def setWrite (valBytes : Bytes) (expire : UInt64) (oldIsNone : Bool) (reply : Option Bytes) :
    Option (Except Error (Option Bytes × Batch)) :=
  (withEncodedStringValue valBytes expire).map fun encVal =>
    .ok (reply, writeStringVal s kc key encVal oldIsNone)

def setOver (valBytes : Bytes) (args : StringSet) (oldRaw : Option (Bytes × UInt64 × ℕ))
    (oldIsWrongType : Bool) : Option (Except Error (Option Bytes × Batch)) :=
  let oldVal := if args.get then oldRaw.map fun r => r.1.drop r.2.2 else none
  if !conditionMet digest args oldRaw oldIsWrongType then some (.ok (oldVal, []))
  else
    let expire := if args.keepTtl then (oldRaw.map fun r => r.2.1).getD 0 else args.expire
    setWrite s kc key valBytes expire oldIsWrongType (if args.get then oldVal else some [])

/-- `none` is a panic; `digest` is the text of the hash of a value. -/
def setInternal (valBytes : Bytes) (args : StringSet) :
    Option (Except Error (Option Bytes × Batch)) :=
  if valBytes.length > maxStringSize then some (.error (.invalidData errStringExceedsMaxSize))
  else if (args.cmpValue.any fun expected =>
      (decide (args.setType = .ifDeq) || decide (args.setType = .ifDne)) &&
        (decide (expected.length ≠ 16) || !expected.all isAsciiHexdigit)) then
    some (.error (.invalidData errDigestInvalidLen))
  else if args.isFastPath then setWrite s kc key valBytes args.expire true (some [])
  else
    let needOldValue := decide (args.setType ≠ .none) || args.get || args.keepTtl
    if !needOldValue then setOver digest s kc key valBytes args none false
    else
      match getStringRaw s kc key nowMs with
      | .ok old => setOver digest s kc key valBytes args old false
      | .error err =>
        if args.setType = .ifEq ∨ args.setType = .ifNe ∨ args.setType = .ifDeq ∨
            args.setType = .ifDne ∨ args.get then some (.error err)
        else if args.setType = .nx then some (.ok (none, []))
        else setOver digest s kc key valBytes args none true

end

/-! ## Several values -/

section

variable (s : Store) (kc : KeyComposer) (nowMs : UInt64)

/-- The expiry of a key whose condition holds; `none` ends the call. -/
def msetCheckKey (args : StringMSet) (key : Key) : Except Error (Option UInt64) :=
  let (isLive, liveExpire) : Bool × UInt64 :=
    match s.data.get (composeStringKey kc key.bytes) with
    | some raw =>
      let (exp, _) := decodeStringValue raw
      if !isStringExpired exp nowMs then (true, exp) else (false, 0)
    | none => (false, 0)
  if isLive then if args.setType = .nx then .ok none else .ok (some liveExpire)
  else if args.setType = .xx then .ok none
  else
    match checkNoCompositeMeta s kc key nowMs with
    | .ok () => .ok (some 0)
    | .error err =>
      if err.isWrongType then if args.setType = .nx then .ok none else .ok (some 0)
      else .error err

def msetConditions (args : StringMSet) : List (Key × Bytes) → Except Error (Option (List UInt64))
  | [] => .ok (some [])
  | (k, _) :: kvs =>
    (msetCheckKey s kc nowMs args k).bind fun found =>
      match found with
      | none => .ok none
      | some exp => (msetConditions args kvs).map fun rest => rest.map fun expires =>
          if args.keepTtl then exp :: expires else expires

def msetPairs (clean : Bool) (expireAt : ℕ → Option UInt64) :
    ℕ → List (Key × Bytes) → Option (Except Error Batch)
  | _, [] => some (.ok [])
  | i, (k, v) :: kvs =>
    if v.length > maxStringSize then some (.error (.invalidData errStringExceedsMaxSize))
    else
      (expireAt i).bind fun expire => (withEncodedStringValue v expire).bind fun encVal =>
        (msetPairs clean expireAt (i + 1) kvs).map fun rest => rest.map fun ops =>
          .insertData (composeStringKey kc k.bytes) encVal ::
            ((if clean then cleanupAllCompositeDataWithBuf s kc k else []) ++ ops)

def msetFast (kvs : List (Key × Bytes)) : Option (Except Error Batch) :=
  msetPairs s kc false (fun _ => some 0) 0 kvs

def msetGeneral (args : StringMSet) (expires : List UInt64) (kvs : List (Key × Bytes)) :
    Option (Except Error Batch) :=
  msetPairs s kc (!s.metadata.isEmpty)
    (fun i => if args.keepTtl then expires[i]? else some args.expire) 0 kvs

/-- `none` is a panic; a call that ends with an error queues nothing. -/
def msetInternal (kvs : List (Key × Bytes)) (args : StringMSet) :
    Option (Except Error (Bool × Batch)) :=
  if kvs.isEmpty then some (.ok (true, []))
  else
    let checked :=
      if args.setType ≠ .none ∨ args.keepTtl then msetConditions s kc nowMs args kvs
      else .ok (some [])
    match checked with
    | .error err => some (.error err)
    | .ok none => some (.ok (false, []))
    | .ok (some expires) =>
      let written :=
        if !args.keepTtl && s.metadata.isEmpty && args.expire == 0 then msetFast s kc kvs
        else msetGeneral s kc args expires kvs
      written.map fun batch => batch.map fun ops => (true, ops)

end

/-! ## What the commands are for -/

def StringMSet.toSet (args : StringMSet) : StringSet :=
  { expire := args.expire
    setType := args.setType
    keepTtl := args.keepTtl }

def lastValue : List (Key × Bytes) → Key → Option Bytes
  | [], _ => none
  | kv :: kvs, k =>
    match lastValue kvs k with
    | some v => some v
    | none => if kv.1 = k then some kv.2 else none

section

variable (digest : Bytes → Bytes) (s : Store) (kc : KeyComposer) (now : UInt64)

/-- The single call writes the pair. -/
def SetWrites (args : StringMSet) (kv : Key × Bytes) : Prop :=
  ∃ ops, setInternal digest s kc kv.1 now kv.2 args.toSet = some (.ok (some [], ops))

/-- Each listed key is a string of its last value alone, as the single call stores it. -/
structure MSetStored (s' : Store) (args : StringMSet) (kvs : List (Key × Bytes)) : Prop where
  last : ∀ k v, lastValue kvs k = some v → ∀ ops,
    setInternal digest s kc k now v args.toSet = some (.ok (some [], ops)) → ∃ exp,
      (s.apply ops).at ⟨kc, k, .str⟩ = some (encodeStringValue v exp) ∧
      s'.at ⟨kc, k, .str⟩ = some (encodeStringValue v exp) ∧
      ∀ later, isStringExpired exp later = false → liveString s' kc k later = some (exp, v)
  alone : ∀ kv ∈ kvs, ∀ slot : Slot, slot.Valid → slot ≠ .str → s'.at ⟨kc, kv.1, slot⟩ = none
  frame : ∀ b : Addr, b.slot.Valid → ¬(b.kc = kc ∧ b.key ∈ kvs.map Prod.fst) → s'.at b = s.at b

/-- The call writes every pair if the single calls would, and else queues nothing. -/
structure MSetAtomic (args : StringMSet) (kvs : List (Key × Bytes)) : Prop where
  total : ∃ reply, msetInternal s kc now kvs args = some reply ∧
    ((∃ err, reply = .error err) ∨ reply = .ok (false, []) ∨ ∃ ops, reply = .ok (true, ops))
  writes : (∃ ops, msetInternal s kc now kvs args = some (.ok (true, ops))) ↔
    ∀ kv ∈ kvs, SetWrites digest s kc now args kv
  oversize : (∃ kv ∈ kvs, maxStringSize < kv.2.length) →
    ∀ ops, msetInternal s kc now kvs args ≠ some (.ok (true, ops))
  stored : ∀ ops, msetInternal s kc now kvs args = some (.ok (true, ops)) →
    MSetStored digest s kc now (s.apply ops) args kvs
  paths : args.keepTtl = false → s.metadata.isEmpty = true → args.expire = 0 →
    ∀ expires, msetGeneral s kc args expires kvs = msetFast s kc kvs

/-- If the single calls would write, a call that needs each key finds strings, and nothing lies
under a listed key that no stored metadata goes with. -/
def MSetFits (args : StringMSet) (kvs : List (Key × Bytes)) : Prop :=
  (∀ kv ∈ kvs, SetWrites digest s kc now args kv) →
    (args.setType = .xx → ∀ kv ∈ kvs, (liveString s kc kv.1 now).isSome) ∧
    ∀ kv ∈ kvs, ∀ slot : Slot, slot.Valid → slot ≠ .str → (s.at ⟨kc, kv.1, slot⟩).isSome →
      CleanedUp s kc kv.1 slot

end

/-! ## Conditions -/

section

variable {digest : Bytes → Bytes} {s : Store} {kc : KeyComposer} {key : Key} {now : UInt64}
  {args : StringMSet} {kvs : List (Key × Bytes)} {v : Bytes}

theorem checkNoCompositeMeta_of_wrong (hstr : liveString s kc key now = none)
    (h : existsOne s kc key now = true) :
    checkNoCompositeMeta s kc key now = .error Error.wrongTypeDefault := by
  rw [checkNoCompositeMeta]
  split_ifs with hempty hany
  · rw [existsOne, hstr, findActiveCompositeMeta, if_pos hempty] at h
    cases h
  · rfl
  · have habsent : existsOne s kc key now = false := by
      refine existsOne_eq_false.mpr ⟨hstr, fun tag htag => ?_⟩
      rw [Bool.not_eq_true, List.any_eq_false] at hany
      simpa using hany tag htag
    rw [habsent] at h
    cases h

theorem getStringRaw_of_no_string (hstr : liveString s kc key now = none) :
    getStringRaw s kc key now = (checkNoCompositeMeta s kc key now).map fun _ => none := by
  rw [liveString] at hstr
  rw [getStringRaw]
  cases hg : s.data.get (composeStringKey kc key.bytes) with
  | none => rfl
  | some raw =>
    rw [hg] at hstr
    simp only at hstr ⊢
    by_cases hexp : isStringExpired (decodeStringValue raw).1 now = true
    · rw [if_pos hexp]
    · rw [if_neg hexp] at hstr
      cases hstr

theorem getStringRaw_of_wrong (hstr : liveString s kc key now = none)
    (h : existsOne s kc key now = true) :
    getStringRaw s kc key now = .error Error.wrongTypeDefault := by
  rw [getStringRaw_of_no_string hstr, checkNoCompositeMeta_of_wrong hstr h]
  rfl

def setExpire (s : Store) (kc : KeyComposer) (now : UInt64) (args : StringMSet) (key : Key) :
    UInt64 :=
  if args.keepTtl then ((liveString s kc key now).map Prod.fst).getD 0 else args.expire

/-- A key meets the condition as the check of several sees it. -/
def Admits (s : Store) (kc : KeyComposer) (now : UInt64) (args : StringMSet) (key : Key) : Prop :=
  (args.setType = .nx → existsOne s kc key now = false) ∧
    (args.setType = .xx → (liveString s kc key now).isSome)

theorem msetCheckKey_eq (s : Store) (kc : KeyComposer) (now : UInt64) (args : StringMSet)
    (key : Key) : ∃ found, msetCheckKey s kc now args key = .ok found ∧
      (found.isSome ↔ Admits s kc now args key) ∧ ∀ exp, found = some exp →
        exp = ((liveString s kc key now).map Prod.fst).getD 0 := by
  have hread : (match s.data.get (composeStringKey kc key.bytes) with
      | some raw =>
        if !isStringExpired (decodeStringValue raw).1 now then
          (true, (decodeStringValue raw).1) else (false, 0)
      | none => (false, 0)) =
      ((liveString s kc key now).isSome, ((liveString s kc key now).map Prod.fst).getD 0) := by
    rw [liveString]
    cases s.data.get (composeStringKey kc key.bytes) with
    | none => rfl
    | some raw =>
      simp only
      by_cases hexp : isStringExpired (decodeStringValue raw).1 now = true
      · simp [hexp]
      · simp [hexp]
  have hexists : (liveString s kc key now).isSome = true → existsOne s kc key now = true := by
    intro h
    rw [existsOne, h, Bool.true_or]
  rw [msetCheckKey]
  simp only [hread]
  cases hlive : liveString s kc key now with
  | some found =>
    rw [hlive] at hexists
    have hex : existsOne s kc key now = true := hexists rfl
    by_cases hnx : args.setType = .nx
    · refine ⟨none, by simp [hnx], ?_, fun exp h => by cases h⟩
      simp [Admits, hnx, hex]
    · refine ⟨some found.1, by simp [hnx], ?_, fun exp h => by cases h; rfl⟩
      simp [Admits, hnx, hlive]
  | none =>
    by_cases hxx : args.setType = .xx
    · refine ⟨none, by simp [hxx], ?_, fun exp h => by cases h⟩
      simp [Admits, hxx, hlive]
    · cases hex : existsOne s kc key now with
      | false =>
        refine ⟨some 0, ?_, ?_, fun exp h => by cases h; rfl⟩
        · simp [hxx, checkNoCompositeMeta_of_absent hex]
        · simp [Admits, hxx, hex]
      | true =>
        have hwrong : Error.wrongTypeDefault.isWrongType = true := rfl
        by_cases hnx : args.setType = .nx
        · refine ⟨none, ?_, ?_, fun exp h => by cases h⟩
          · simp [hnx, checkNoCompositeMeta_of_wrong hlive hex, hwrong]
          · simp [Admits, hnx, hex]
        · refine ⟨some 0, ?_, ?_, fun exp h => by cases h; rfl⟩
          · simp [hxx, hnx, checkNoCompositeMeta_of_wrong hlive hex, hwrong]
          · simp [Admits, hxx, hnx]

/-- A key meets the condition of the single call. -/
def SetAdmits (s : Store) (kc : KeyComposer) (now : UInt64) (args : StringMSet) (key : Key) :
    Prop :=
  (args.setType = .nx → existsOne s kc key now = false) ∧
    (args.setType = .xx → existsOne s kc key now = true)

theorem setWrite_eq (exp : UInt64) (oldIsNone : Bool) (reply : Option Bytes) :
    setWrite s kc key v exp oldIsNone reply =
      some (.ok (reply, writeStringVal s kc key (encodeStringValue v exp) oldIsNone)) := by
  rw [setWrite, withEncodedStringValue_eq]
  rfl

theorem setOver_of_met {old : Option (Bytes × UInt64 × ℕ)} {wrong : Bool}
    (hmet : conditionMet digest args.toSet old wrong = true) :
    setOver digest s kc key v args.toSet old wrong = some (.ok (some [],
      writeStringVal s kc key (encodeStringValue v (if args.keepTtl then
        (old.map fun r => r.2.1).getD 0 else args.expire)) wrong)) := by
  have hkeep : args.toSet.keepTtl = args.keepTtl := rfl
  have hexpire : args.toSet.expire = args.expire := rfl
  have hget : args.toSet.get = false := rfl
  simp only [setOver, hmet, hkeep, hexpire, hget, Bool.not_true, Bool.false_eq_true, if_false,
    setWrite_eq]

theorem setOver_of_not_met {old : Option (Bytes × UInt64 × ℕ)} {wrong : Bool}
    (hmet : conditionMet digest args.toSet old wrong = false) :
    setOver digest s kc key v args.toSet old wrong = some (.ok (none, [])) := by
  have hget : args.toSet.get = false := rfl
  simp only [setOver, hmet, hget, Bool.not_false, if_true, Bool.false_eq_true, if_false]

theorem conditionMet_toSet (hset : args.setType = .none ∨ args.setType = .nx ∨ args.setType = .xx)
    (old : Option (Bytes × UInt64 × ℕ)) (wrong : Bool) :
    conditionMet digest args.toSet old wrong = true ↔
      (args.setType = .nx → old = none ∧ wrong = false) ∧
        (args.setType = .xx → old.isSome ∨ wrong = true) := by
  have htype : args.toSet.setType = args.setType := rfl
  rw [conditionMet, htype]
  rcases hset with hset | hset | hset
  · simp [hset]
  · simp [hset]
  · simp [hset]

theorem setInternal_over (hlen : v.length ≤ maxStringSize)
    (hset : args.setType = .none ∨ args.setType = .nx ∨ args.setType = .xx)
    (hslow : args.toSet.isFastPath = false) :
    setInternal digest s kc key now v args.toSet =
      match getStringRaw s kc key now with
      | .ok old => setOver digest s kc key v args.toSet old false
      | .error _ =>
        if args.setType = .nx then some (.ok (none, []))
        else setOver digest s kc key v args.toSet none true := by
  have hcmp : args.toSet.cmpValue = none := rfl
  have hget : args.toSet.get = false := rfl
  have htype : args.toSet.setType = args.setType := rfl
  have hkeep : args.toSet.keepTtl = args.keepTtl := rfl
  have hneed : (decide (args.setType ≠ .none) || false || args.keepTtl) = true := by
    rw [StringSet.isFastPath, htype, hkeep, hget, hcmp] at hslow
    cases hk : args.keepTtl with
    | true => simp
    | false =>
      rw [hk] at hslow
      simpa using hslow
  rw [setInternal, if_neg (not_lt.mpr hlen)]
  simp only [hcmp, hslow, htype, hget, hkeep, hneed, Option.any_none, Bool.false_eq_true, if_false,
    Bool.not_true, or_false]
  cases getStringRaw s kc key now with
  | ok old => rfl
  | error err =>
    rcases hset with hset | hset | hset
    · simp [hset]
    · simp [hset]
    · simp [hset]

/-- The single call writes its pair exactly if the value fits and the key meets the condition. -/
theorem setInternal_eq (hset : args.setType = .none ∨ args.setType = .nx ∨ args.setType = .xx)
    (hlen : v.length ≤ maxStringSize) :
    (SetAdmits s kc now args key → ∃ oldIsNone,
      setInternal digest s kc key now v args.toSet = some (.ok (some [],
        writeStringVal s kc key (encodeStringValue v (setExpire s kc now args key)) oldIsNone))) ∧
    (¬SetAdmits s kc now args key →
      setInternal digest s kc key now v args.toSet = some (.ok (none, []))) := by
  have htype : args.toSet.setType = args.setType := rfl
  have hkeep : args.toSet.keepTtl = args.keepTtl := rfl
  by_cases hfast : args.toSet.isFastPath = true
  · have hnone : args.setType = .none ∧ args.keepTtl = false := by
      rw [StringSet.isFastPath, htype, hkeep] at hfast
      simp only [Bool.and_eq_true, decide_eq_true_eq, Bool.not_eq_true'] at hfast
      exact ⟨hfast.1.1.1, hfast.1.2⟩
    have hcmp : args.toSet.cmpValue = none := rfl
    have hexpire : args.toSet.expire = args.expire := rfl
    have hadmits : SetAdmits s kc now args key := by
      constructor
      · intro h
        rw [hnone.1] at h
        cases h
      · intro h
        rw [hnone.1] at h
        cases h
    refine ⟨fun _ => ⟨true, ?_⟩, fun hnot => absurd hadmits hnot⟩
    rw [setInternal, if_neg (not_lt.mpr hlen)]
    simp only [hcmp, hfast, hexpire, Option.any_none, Bool.false_eq_true, if_false, if_true,
      setWrite_eq, setExpire, hnone.2]
  · rw [Bool.not_eq_true] at hfast
    rw [setInternal_over hlen hset hfast]
    cases hlive : liveString s kc key now with
    | some found =>
      obtain ⟨exp, payload⟩ := found
      obtain ⟨raw, hraw, -⟩ := getStringRaw_of_live hlive
      have hexists : existsOne s kc key now = true := by
        rw [existsOne, hlive]
        rfl
      rw [hraw]
      simp only
      have hmet := @conditionMet_toSet digest args hset
        (some (raw, exp, raw.length - payload.length)) false
      have hadmits : SetAdmits s kc now args key ↔ conditionMet digest args.toSet
          (some (raw, exp, raw.length - payload.length)) false = true := by
        rw [hmet, SetAdmits, hexists]
        simp
      rw [hadmits]
      refine ⟨fun h => ⟨false, ?_⟩, fun h => setOver_of_not_met (by simpa using h)⟩
      rw [setOver_of_met h, setExpire, hlive]
      rfl
    | none =>
      have hexp : setExpire s kc now args key = if args.keepTtl then 0 else args.expire := by
        rw [setExpire, hlive]
        rfl
      cases hexists : existsOne s kc key now with
      | false =>
        rw [getStringRaw_of_absent hexists]
        simp only
        have hmet := @conditionMet_toSet digest args hset none false
        have hadmits : SetAdmits s kc now args key ↔
            conditionMet digest args.toSet none false = true := by
          rw [hmet, SetAdmits, hexists]
          simp
        rw [hadmits]
        refine ⟨fun h => ⟨false, ?_⟩, fun h => setOver_of_not_met (by simpa using h)⟩
        rw [setOver_of_met h, hexp]
        rfl
      | true =>
        rw [getStringRaw_of_wrong hlive hexists]
        simp only
        by_cases hnx : args.setType = .nx
        · rw [if_pos hnx]
          refine ⟨fun h => ?_, fun _ => rfl⟩
          have hfalse := h.1 hnx
          rw [hexists] at hfalse
          cases hfalse
        · rw [if_neg hnx]
          have hmet := (@conditionMet_toSet digest args hset none true).mpr
            ⟨fun h => absurd h hnx, fun _ => .inr rfl⟩
          have hadmits : SetAdmits s kc now args key := ⟨fun h => absurd h hnx, fun _ => hexists⟩
          refine ⟨fun _ => ⟨true, ?_⟩, fun hnot => absurd hadmits hnot⟩
          rw [setOver_of_met hmet, hexp]
          rfl

theorem setWrites_iff (hset : args.setType = .none ∨ args.setType = .nx ∨ args.setType = .xx) :
    SetWrites digest s kc now args (key, v) ↔
      v.length ≤ maxStringSize ∧ SetAdmits s kc now args key := by
  by_cases hlen : v.length ≤ maxStringSize
  · rw [and_iff_right hlen]
    obtain ⟨hyes, hno⟩ := @setInternal_eq digest s kc key now args v hset hlen
    by_cases hadmits : SetAdmits s kc now args key
    · obtain ⟨oldIsNone, hrun⟩ := hyes hadmits
      exact iff_of_true ⟨_, hrun⟩ hadmits
    · refine iff_of_false ?_ hadmits
      intro h
      obtain ⟨ops, hrun⟩ := h
      rw [hno hadmits] at hrun
      cases hrun
  · refine iff_of_false ?_ fun h => hlen h.1
    intro h
    obtain ⟨ops, hrun⟩ := h
    rw [setInternal, if_pos (not_le.mp hlen)] at hrun
    cases hrun

theorem msetConditions_eq (s : Store) (kc : KeyComposer) (now : UInt64) (args : StringMSet)
    (kvs : List (Key × Bytes)) : ∃ found, msetConditions s kc now args kvs = .ok found ∧
      (found.isSome ↔ ∀ kv ∈ kvs, Admits s kc now args kv.1) ∧
      ∀ expires, found = some expires → args.keepTtl = true →
        expires = kvs.map fun kv => setExpire s kc now args kv.1 := by
  induction kvs with
  | nil => exact ⟨some [], rfl, by simp, fun expires h _ => by cases h; rfl⟩
  | cons kv kvs ih =>
    obtain ⟨rest, hrest, hall, hexpires⟩ := ih
    obtain ⟨found, hfound, hone, hexp⟩ := msetCheckKey_eq s kc now args kv.1
    rw [msetConditions, hfound]
    simp only [Except.bind, List.forall_mem_cons]
    cases found with
    | none =>
      have hnot : ¬Admits s kc now args kv.1 := fun h => by cases hone.mpr h
      exact ⟨none, rfl, iff_of_false Bool.false_ne_true fun h => hnot h.1, fun _ h _ => by cases h⟩
    | some exp =>
      have hyes := hone.mp rfl
      rw [hrest]
      refine ⟨_, rfl, ?_, fun expires h hkeep => ?_⟩
      · rw [Option.isSome_map, hall]
        exact (and_iff_right hyes).symm
      · cases rest with
        | none => cases h
        | some tail =>
          simp only [hkeep, Option.map_some, if_true, Option.some.injEq] at h
          have hhead : exp = setExpire s kc now args kv.1 := by
            rw [hexp exp rfl, setExpire, if_pos hkeep]
          rw [← h, List.map_cons, hexpires tail rfl hkeep, ← hhead]

/-! ## Writes -/

def msetOps (s : Store) (kc : KeyComposer) (expire : Key → UInt64) (kvs : List (Key × Bytes)) :
    Batch :=
  kvs.flatMap fun kv => .insertData (composeStringKey kc kv.1.bytes)
    (encodeStringValue kv.2 (expire kv.1)) :: cleanupAllCompositeDataWithBuf s kc kv.1

theorem msetPairs_eq {clean : Bool} {expireAt : ℕ → Option UInt64} {expire : Key → UInt64} {i : ℕ}
    (hclean : ∀ k, (if clean then cleanupAllCompositeDataWithBuf s kc k else []) =
      cleanupAllCompositeDataWithBuf s kc k)
    (hexpire : ∀ j kv, kvs[j]? = some kv → expireAt (i + j) = some (expire kv.1)) :
    ((∀ kv ∈ kvs, kv.2.length ≤ maxStringSize) →
      msetPairs s kc clean expireAt i kvs = some (.ok (msetOps s kc expire kvs))) ∧
    ((∃ kv ∈ kvs, maxStringSize < kv.2.length) →
      ∃ err, msetPairs s kc clean expireAt i kvs = some (.error err)) := by
  induction kvs generalizing i with
  | nil => exact ⟨fun _ => rfl, fun h => by simp at h⟩
  | cons kv kvs ih =>
    have hhead : expireAt i = some (expire kv.1) := hexpire 0 kv rfl
    have htail : ∀ j kv', kvs[j]? = some kv' → expireAt (i + 1 + j) = some (expire kv'.1) := by
      intro j kv' hj
      rw [Nat.add_assoc, Nat.add_comm 1 j]
      exact hexpire (j + 1) kv' hj
    obtain ⟨hok, hlarge⟩ := ih htail
    rw [msetPairs]
    constructor
    · intro hlen
      rw [List.forall_mem_cons] at hlen
      rw [if_neg (not_lt.mpr hlen.1), hhead, Option.bind_some, withEncodedStringValue_eq,
        Option.bind_some, hok hlen.2, Option.map_some, Except.map, hclean]
      rfl
    · intro hsize
      by_cases hkv : maxStringSize < kv.2.length
      · exact ⟨_, if_pos hkv⟩
      · have hrest : ∃ kv ∈ kvs, maxStringSize < kv.2.length := by
          obtain ⟨x, hx, hxlen⟩ := hsize
          rcases List.mem_cons.mp hx with rfl | hx
          · exact absurd hxlen hkv
          · exact ⟨x, hx, hxlen⟩
        obtain ⟨err, herr⟩ := hlarge hrest
        refine ⟨err, ?_⟩
        rw [if_neg hkv, hhead, Option.bind_some, withEncodedStringValue_eq, Option.bind_some, herr]
        rfl

theorem cleanupAll_of_isEmpty (h : s.metadata.isEmpty = true) (k : Key) :
    cleanupAllCompositeDataWithBuf s kc k = [] := by
  rw [cleanupAllCompositeDataWithBuf, if_pos h]

theorem msetGeneral_eq_msetFast (hkeep : args.keepTtl = false)
    (hempty : s.metadata.isEmpty = true) (hexpire : args.expire = 0) (expires : List UInt64)
    (kvs : List (Key × Bytes)) : msetGeneral s kc args expires kvs = msetFast s kc kvs := by
  rw [msetGeneral, msetFast, hempty, Bool.not_true]
  simp only [hkeep, hexpire, Bool.false_eq_true, if_false]

section

variable {t : Store} {expire : Key → UInt64} {b : Addr}

theorem at_apply_cleanupAll_str (k key : Key) (kc' : KeyComposer) :
    (t.apply (cleanupAllCompositeDataWithBuf s kc k)).at ⟨kc', key, .str⟩ = t.at ⟨kc', key, .str⟩ :=
  Store.at_apply_of_forall_ne fun _ ho => cleanupAll_not_str ho kc' key

/-- A pair clears what goes with the metadata of its key, once or several times. -/
theorem at_apply_msetOps (hb : b.slot.Valid) (hstr : b.slot ≠ .str)
    (hst : s.at b = none → t.at b = none) :
    ((b.kc = kc ∧ b.key ∈ kvs.map Prod.fst ∧ CleanedUp s kc b.key b.slot) →
      (t.apply (msetOps s kc expire kvs)).at b = none) ∧
    (¬(b.kc = kc ∧ b.key ∈ kvs.map Prod.fst ∧ CleanedUp s kc b.key b.slot) →
      (t.apply (msetOps s kc expire kvs)).at b = t.at b) := by
  classical
  induction kvs generalizing t with
  | nil => exact ⟨fun h => absurd h.2.1 List.not_mem_nil, fun _ => rfl⟩
  | cons kv kvs ih =>
    set t₁ := t.applyOp (.insertData (composeStringKey kc kv.1.bytes)
      (encodeStringValue kv.2 (expire kv.1))) with ht₁
    set t₂ := t₁.apply (cleanupAllCompositeDataWithBuf s kc kv.1) with ht₂
    have hsplit : t.apply (msetOps s kc expire (kv :: kvs)) =
        t₂.apply (msetOps s kc expire kvs) := by
      rw [msetOps, List.flatMap_cons, Store.apply_append, Store.apply_cons, ← msetOps]
    have hinsert : t₁.at b = t.at b := by
      have h := Store.at_insert t (a := ⟨kc, kv.1, .str⟩) (b := b) trivial hb
        (encodeStringValue kv.2 (expire kv.1))
      refine h.trans (if_neg fun heq => hstr ?_)
      rw [← heq]
    have hclean := @at_apply_cleanupAll s t₁ kc kv.1 b hb fun h => hinsert.trans (hst h)
    rw [← ht₂, hinsert] at hclean
    have hst₂ : s.at b = none → t₂.at b = none := by
      intro h
      rw [hclean, hst h, ite_self]
    obtain ⟨hin, hout⟩ := ih hst₂
    rw [hsplit, List.map_cons, List.mem_cons]
    constructor
    · intro h
      by_cases hrest : b.key ∈ kvs.map Prod.fst
      · exact hin ⟨h.1, hrest, h.2.2⟩
      · have hkey : b.key = kv.1 := h.2.1.resolve_right hrest
        have hcleaned : CleanedUp s kc kv.1 b.slot := hkey ▸ h.2.2
        rw [hout fun h' => hrest h'.2.1, hclean, if_pos ⟨h.1, hkey, hcleaned⟩]
    · intro h
      rw [hout fun h' => h ⟨h'.1, .inr h'.2.1, h'.2.2⟩, hclean, if_neg]
      intro h'
      refine h ⟨h'.1, .inl h'.2.1, ?_⟩
      rw [h'.2.1]
      exact h'.2.2

theorem str_at_apply_msetOps (k : Key) :
    (t.apply (msetOps s kc expire kvs)).at ⟨kc, k, .str⟩ =
      match lastValue kvs k with
      | some v => some (encodeStringValue v (expire k))
      | none => t.at ⟨kc, k, .str⟩ := by
  induction kvs generalizing t with
  | nil => rfl
  | cons kv kvs ih =>
    rw [msetOps, List.flatMap_cons, Store.apply_append, Store.apply_cons, ← msetOps, ih, lastValue]
    cases lastValue kvs k with
    | some v => rfl
    | none =>
      simp only
      rw [at_apply_cleanupAll_str]
      have h := Store.at_insert t (a := ⟨kc, kv.1, .str⟩) (b := ⟨kc, k, .str⟩) trivial trivial
        (encodeStringValue kv.2 (expire kv.1))
      refine h.trans ?_
      by_cases hk : kv.1 = k
      · subst hk
        rw [if_pos rfl, if_pos rfl]
      · rw [if_neg hk, if_neg]
        intro heq
        exact hk (congrArg Addr.key heq)

theorem mem_of_lastValue {k : Key} (h : lastValue kvs k = some v) : (k, v) ∈ kvs := by
  induction kvs with
  | nil => cases h
  | cons kv kvs ih =>
    rw [lastValue] at h
    cases hlast : lastValue kvs k with
    | some w =>
      rw [hlast] at h ih
      cases h
      exact List.mem_cons_of_mem _ (ih rfl)
    | none =>
      rw [hlast] at h
      simp only at h
      split_ifs at h with hk
      cases h
      rw [← hk]
      exact List.mem_cons_self

end

theorem msetFast_eq (hkeep : args.keepTtl = false) (hempty : s.metadata.isEmpty = true)
    (hexpire : args.expire = 0) :
    ((∀ kv ∈ kvs, kv.2.length ≤ maxStringSize) →
      msetFast s kc kvs = some (.ok (msetOps s kc (setExpire s kc now args) kvs))) ∧
    ((∃ kv ∈ kvs, maxStringSize < kv.2.length) → ∃ err, msetFast s kc kvs = some (.error err)) := by
  refine msetPairs_eq (fun k => ?_) fun j kv _ => ?_
  · rw [cleanupAll_of_isEmpty hempty, if_neg Bool.false_ne_true]
  · rw [setExpire, if_neg (by rw [hkeep]; exact Bool.false_ne_true), hexpire]

theorem msetGeneral_eq {expires : List UInt64}
    (hexpires : args.keepTtl = true → expires = kvs.map fun kv => setExpire s kc now args kv.1) :
    ((∀ kv ∈ kvs, kv.2.length ≤ maxStringSize) →
      msetGeneral s kc args expires kvs =
        some (.ok (msetOps s kc (setExpire s kc now args) kvs))) ∧
    ((∃ kv ∈ kvs, maxStringSize < kv.2.length) →
      ∃ err, msetGeneral s kc args expires kvs = some (.error err)) := by
  refine msetPairs_eq (fun k => ?_) fun j kv hj => ?_
  · cases hempty : s.metadata.isEmpty with
    | true =>
      rw [cleanupAll_of_isEmpty hempty]
      rfl
    | false => rfl
  · cases hkeep : args.keepTtl with
    | true =>
      rw [if_pos rfl, hexpires hkeep, Nat.zero_add, List.getElem?_map, hj]
      rfl
    | false =>
      rw [if_neg Bool.false_ne_true, setExpire, if_neg (by rw [hkeep]; exact Bool.false_ne_true)]

/-- The call writes what fits under keys that meet the condition, and else nothing. -/
theorem msetInternal_eq (s : Store) (kc : KeyComposer) (now : UInt64) (args : StringMSet)
    (kvs : List (Key × Bytes)) :
    ((¬∀ kv ∈ kvs, Admits s kc now args kv.1) →
      msetInternal s kc now kvs args = some (.ok (false, []))) ∧
    ((∀ kv ∈ kvs, Admits s kc now args kv.1) →
      ((∀ kv ∈ kvs, kv.2.length ≤ maxStringSize) → msetInternal s kc now kvs args =
        some (.ok (true, msetOps s kc (setExpire s kc now args) kvs))) ∧
      ((∃ kv ∈ kvs, maxStringSize < kv.2.length) →
        ∃ err, msetInternal s kc now kvs args = some (.error err))) := by
  by_cases hnil : kvs = []
  · subst hnil
    exact ⟨fun h => absurd (by simp) h, fun _ => ⟨fun _ => rfl, fun h => by simp at h⟩⟩
  have hchecked : ∃ found, (if args.setType ≠ .none ∨ args.keepTtl = true then
        msetConditions s kc now args kvs else .ok (some [])) = .ok found ∧
      (found.isSome ↔ ∀ kv ∈ kvs, Admits s kc now args kv.1) ∧
      ∀ expires, found = some expires → args.keepTtl = true →
        expires = kvs.map fun kv => setExpire s kc now args kv.1 := by
    by_cases hcheck : args.setType ≠ .none ∨ args.keepTtl = true
    · rw [if_pos hcheck]
      exact msetConditions_eq s kc now args kvs
    · rw [if_neg hcheck]
      rw [not_or, not_not] at hcheck
      refine ⟨some [], rfl, iff_of_true rfl fun kv _ => ?_, fun _ _ hkeep => absurd hkeep hcheck.2⟩
      rw [Admits, hcheck.1]
      simp
  obtain ⟨found, hfound, hall, hexpires⟩ := hchecked
  have hempty : kvs.isEmpty = false := List.isEmpty_eq_false_iff.mpr hnil
  rw [msetInternal, if_neg (by rw [hempty]; exact Bool.false_ne_true)]
  simp only [hfound]
  cases found with
  | none =>
    refine ⟨fun _ => rfl, fun h => ?_⟩
    cases hall.mpr h
  | some expires =>
    have hyes := hall.mp rfl
    refine ⟨fun h => absurd hyes h, fun _ => ?_⟩
    have hwritten : ((∀ kv ∈ kvs, kv.2.length ≤ maxStringSize) →
        (if (!args.keepTtl && s.metadata.isEmpty && args.expire == 0) = true then msetFast s kc kvs
          else msetGeneral s kc args expires kvs) =
            some (.ok (msetOps s kc (setExpire s kc now args) kvs))) ∧
        ((∃ kv ∈ kvs, maxStringSize < kv.2.length) → ∃ err,
          (if (!args.keepTtl && s.metadata.isEmpty && args.expire == 0) = true then
            msetFast s kc kvs else msetGeneral s kc args expires kvs) = some (.error err)) := by
      by_cases hfast : (!args.keepTtl && s.metadata.isEmpty && args.expire == 0) = true
      · rw [if_pos hfast]
        rw [Bool.and_eq_true, Bool.and_eq_true, Bool.not_eq_true', beq_iff_eq] at hfast
        exact msetFast_eq hfast.1.1 hfast.1.2 hfast.2
      · rw [if_neg hfast]
        exact msetGeneral_eq (hexpires expires rfl)
    dsimp only
    refine ⟨fun hlen => ?_, fun hlarge => ?_⟩
    · rw [hwritten.1 hlen]
      rfl
    · obtain ⟨err, herr⟩ := hwritten.2 hlarge
      exact ⟨err, by rw [herr]; rfl⟩

/-! ## When several values are written as single ones -/

theorem msetStored_iff (hset : args.setType = .none ∨ args.setType = .nx ∨ args.setType = .xx)
    (hlen : ∀ kv ∈ kvs, kv.2.length ≤ maxStringSize) :
    MSetStored digest s kc now (s.apply (msetOps s kc (setExpire s kc now args) kvs)) args kvs ↔
      ∀ kv ∈ kvs, ∀ slot : Slot, slot.Valid → slot ≠ .str → (s.at ⟨kc, kv.1, slot⟩).isSome →
        CleanedUp s kc kv.1 slot := by
  constructor
  · intro h kv hkv slot hslot hstr hsome
    by_contra hnot
    have hkept := (@at_apply_msetOps s kc kvs s (setExpire s kc now args) ⟨kc, kv.1, slot⟩ hslot
      hstr id).2 fun h' => hnot h'.2.2
    rw [h.alone kv hkv slot hslot hstr] at hkept
    rw [← hkept] at hsome
    cases hsome
  · intro h
    refine ⟨fun k v hlast ops hrun => ?_, fun kv hkv slot hslot hstr => ?_, fun b hb hne => ?_⟩
    · have hmem := mem_of_lastValue hlast
      have hadmits := ((@setWrites_iff digest s kc k now args v hset).mp ⟨ops, hrun⟩).2
      obtain ⟨oldIsNone, hset'⟩ :=
        (@setInternal_eq digest s kc k now args v hset (hlen _ hmem)).1 hadmits
      rw [hset', Option.some.injEq, Except.ok.injEq, Prod.mk.injEq] at hrun
      have hstored : (s.apply (msetOps s kc (setExpire s kc now args) kvs)).at ⟨kc, k, .str⟩ =
          some (encodeStringValue v (setExpire s kc now args k)) := by
        rw [str_at_apply_msetOps, hlast]
      refine ⟨setExpire s kc now args k, ?_, hstored, fun later => liveString_of_at hstored⟩
      rw [← hrun.2]
      exact writeStringVal_at _ _ _ _ _
    · have hops := @at_apply_msetOps s kc kvs s (setExpire s kc now args) ⟨kc, kv.1, slot⟩ hslot
        hstr id
      cases hat : s.at ⟨kc, kv.1, slot⟩ with
      | some v =>
        have hclean := h kv hkv slot hslot hstr (by rw [hat]; rfl)
        exact hops.1 ⟨rfl, List.mem_map_of_mem hkv, hclean⟩
      | none =>
        by_cases hclean : CleanedUp s kc kv.1 slot
        · exact hops.1 ⟨rfl, List.mem_map_of_mem hkv, hclean⟩
        · exact (hops.2 fun h' => hclean h'.2.2).trans hat
    · by_cases hstr : b.slot = .str
      · obtain ⟨kc', key', slot⟩ := b
        subst hstr
        have hlocal : ∀ o ∈ msetOps s kc (setExpire s kc now args) kvs,
            ¬(Partition.data = o.partition ∧ Addr.phys ⟨kc', key', .str⟩ = o.key) := by
          intro o ho hhit
          obtain ⟨kv, hkv, ho⟩ := List.mem_flatMap.mp ho
          rcases List.mem_cons.mp ho with rfl | ho
          · have heq := Addr.phys_inj (a := ⟨kc', key', .str⟩) (b := ⟨kc, kv.1, .str⟩) trivial
              trivial rfl hhit.2
            refine hne ⟨congrArg Addr.kc heq, ?_⟩
            have hkey : key' = kv.1 := congrArg Addr.key heq
            rw [hkey]
            exact List.mem_map_of_mem hkv
          · exact cleanupAll_not_str ho kc' key' ⟨hhit.1.symm, hhit.2.symm⟩
        refine Store.at_apply_of_forall_ne fun o ho hhit => hlocal o ho ⟨hhit.1.symm, hhit.2.symm⟩
      · exact (@at_apply_msetOps s kc kvs s (setExpire s kc now args) b hb hstr id).2
          fun h' => hne ⟨h'.1, h'.2.1⟩

theorem msetAtomic_iff (hset : args.setType = .none ∨ args.setType = .nx ∨ args.setType = .xx)
    (kvs : List (Key × Bytes)) :
    MSetAtomic digest s kc now args kvs ↔ MSetFits digest s kc now args kvs := by
  have hwrites : (∀ kv ∈ kvs, SetWrites digest s kc now args kv) ↔
      (∀ kv ∈ kvs, kv.2.length ≤ maxStringSize) ∧
        ∀ kv ∈ kvs, SetAdmits s kc now args kv.1 := by
    rw [← forall₂_and]
    exact forall₂_congr fun kv _ => setWrites_iff hset
  have hadmits : ∀ k, Admits s kc now args k ↔ SetAdmits s kc now args k ∧
      (args.setType = .xx → (liveString s kc k now).isSome) := by
    intro k
    rw [Admits, SetAdmits, and_assoc]
    refine and_congr_right fun _ => ⟨fun h => ⟨fun hxx => ?_, h⟩, fun h => h.2⟩
    rw [existsOne, h hxx, Bool.true_or]
  obtain ⟨hrefuse, hadmit⟩ := msetInternal_eq s kc now args kvs
  by_cases hall : ∀ kv ∈ kvs, Admits s kc now args kv.1
  · obtain ⟨hok, hlarge⟩ := hadmit hall
    by_cases hlen : ∀ kv ∈ kvs, kv.2.length ≤ maxStringSize
    · have hrun := hok hlen
      have hsingle : ∀ kv ∈ kvs, SetWrites digest s kc now args kv :=
        hwrites.mpr ⟨hlen, fun kv hkv => ((hadmits kv.1).mp (hall kv hkv)).1⟩
      have hstrings : args.setType = .xx → ∀ kv ∈ kvs, (liveString s kc kv.1 now).isSome :=
        fun hxx kv hkv => (hall kv hkv).2 hxx
      rw [MSetFits, forall_prop_of_true hsingle, and_iff_right hstrings,
        ← @msetStored_iff digest s kc now args kvs hset hlen]
      constructor
      · intro h
        exact h.stored _ hrun
      · intro hstored
        refine ⟨⟨_, hrun, .inr (.inr ⟨_, rfl⟩)⟩, iff_of_true ⟨_, hrun⟩ hsingle, ?_, ?_,
          fun hkeep hempty hexpire expires =>
            msetGeneral_eq_msetFast hkeep hempty hexpire expires kvs⟩
        · intro h
          obtain ⟨kv, hkv, hlt⟩ := h
          exact absurd (hlen kv hkv) (not_le.mpr hlt)
        · intro ops hops
          rw [hrun, Option.some.injEq, Except.ok.injEq, Prod.mk.injEq] at hops
          rw [← hops.2]
          exact hstored
    · have hexists : ∃ kv ∈ kvs, maxStringSize < kv.2.length := by
        push Not at hlen
        exact hlen
      obtain ⟨err, hrun⟩ := hlarge hexists
      have hnot : ¬∀ kv ∈ kvs, SetWrites digest s kc now args kv := fun h => hlen (hwrites.mp h).1
      have hnever : ∀ ops, msetInternal s kc now kvs args ≠ some (.ok (true, ops)) := by
        intro ops hops
        rw [hrun] at hops
        cases hops
      refine iff_of_true ⟨⟨_, hrun, .inl ⟨err, rfl⟩⟩, iff_of_false ?_ hnot, fun _ => hnever,
        fun ops hops => absurd hops (hnever ops), fun hkeep hempty hexpire expires =>
          msetGeneral_eq_msetFast hkeep hempty hexpire expires kvs⟩ fun h => absurd h hnot
      intro h
      obtain ⟨ops, hops⟩ := h
      exact hnever ops hops
  · have hrun := hrefuse hall
    have hnever : ∀ ops, msetInternal s kc now kvs args ≠ some (.ok (true, ops)) := by
      intro ops hops
      rw [hrun] at hops
      cases hops
    constructor
    · intro h hsingle
      obtain ⟨ops, hops⟩ := h.writes.mpr hsingle
      exact absurd hops (hnever ops)
    · intro h
      have hnot : ¬∀ kv ∈ kvs, SetWrites digest s kc now args kv := by
        intro hsingle
        refine hall fun kv hkv => (hadmits kv.1).mpr ⟨(hwrites.mp hsingle).2 kv hkv, ?_⟩
        exact fun hxx => (h hsingle).1 hxx kv hkv
      refine ⟨⟨_, hrun, .inr (.inl rfl)⟩, iff_of_false ?_ hnot, fun _ => hnever,
        fun ops hops => absurd hops (hnever ops), fun hkeep hempty hexpire expires =>
          msetGeneral_eq_msetFast hkeep hempty hexpire expires kvs⟩
      intro h'
      obtain ⟨ops, hops⟩ := h'
      exact hnever ops hops

end

theorem msetAtomic_iff_sample :
    MSetAtomic id ∅ ⟨0, 0⟩ 1 { setType := .nx } [(sampleKey, [97]), (sampleKey, [98])] := by
  refine (msetAtomic_iff (.inr (.inl rfl)) _).mpr fun _ => ⟨fun h => ?_, ?_⟩
  · cases h
  · intro kv _ slot _ _ hsome
    have hnone : (∅ : Store).at ⟨⟨0, 0⟩, kv.1, slot⟩ = none := by
      rw [Store.at]
      cases slot.partition with
      | data => rfl
      | metadata => rfl
    rw [hnone] at hsome
    cases hsome

/-- A key that holds a sorted set exists for the single call and not for several. -/
theorem msetxx_misses_other_types : ∃ n ops,
    zadd ∅ ⟨0, 0⟩ sampleKey 1 1 [(.zero, [97])] [] = .ok (n, ops) ∧
      ¬MSetAtomic id ((∅ : Store).apply ops) ⟨0, 0⟩ 2 { setType := .xx } [(sampleKey, [98])] := by
  have hstate : ((zadd ∅ ⟨0, 0⟩ sampleKey 1 1 [(.zero, [97])] []).toOption.any fun r =>
      existsOne ((∅ : Store).apply r.2) ⟨0, 0⟩ sampleKey 2 &&
        (liveString ((∅ : Store).apply r.2) ⟨0, 0⟩ sampleKey 2).isNone) = true := by
    decide +kernel
  cases hadd : zadd ∅ ⟨0, 0⟩ sampleKey 1 1 [(.zero, [97])] [] with
  | error err =>
    rw [hadd] at hstate
    cases hstate
  | ok r =>
    obtain ⟨n, ops⟩ := r
    refine ⟨n, ops, rfl, fun h => ?_⟩
    rw [hadd] at hstate
    have hboth : existsOne ((∅ : Store).apply ops) ⟨0, 0⟩ sampleKey 2 = true ∧
        liveString ((∅ : Store).apply ops) ⟨0, 0⟩ sampleKey 2 = none := by
      have hand : (existsOne ((∅ : Store).apply ops) ⟨0, 0⟩ sampleKey 2 &&
        (liveString ((∅ : Store).apply ops) ⟨0, 0⟩ sampleKey 2).isNone) = true := hstate
      rw [Bool.and_eq_true, Option.isNone_iff_eq_none] at hand
      exact hand
    have hsingle : ∀ kv ∈ [(sampleKey, ([98] : Bytes))],
        SetWrites id ((∅ : Store).apply ops) ⟨0, 0⟩ 2 { setType := .xx } kv := by
      intro kv hkv
      rw [List.mem_singleton.mp hkv]
      refine (setWrites_iff (.inr (.inr rfl))).mpr ⟨by decide, fun hnx => ?_, fun _ => hboth.1⟩
      cases hnx
    have hnot : ¬∀ kv ∈ [(sampleKey, ([98] : Bytes))],
        Admits ((∅ : Store).apply ops) ⟨0, 0⟩ 2 { setType := .xx } kv.1 := by
      intro hall
      have hsome := (hall _ (List.mem_singleton_self _)).2 rfl
      rw [hboth.2] at hsome
      cases hsome
    obtain ⟨ops', hrun⟩ := h.writes.mpr hsingle
    rw [(msetInternal_eq _ _ _ _ _).1 hnot] at hrun
    cases hrun

end Wedb
