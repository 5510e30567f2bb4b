import Wedb.Hash.ReadBack
import Wedb.String.Value

/-!
# Counters

INCRBY, DECRBY and HINCRBY parse the stored number, add in 64-bit arithmetic behind an
overflow check, and store the sum in decimal with the expiry it had. DECRBY adds the
negated decrement, and the negation of the least number wraps to itself.
-/

namespace Wedb

def errValueNotInteger : String := "ERR value is not an integer or out of range"

def parseRedisInteger (parseI64Fast : Bytes → Option Int64) (v : Bytes) : Except Error Int64 :=
  if v.isEmpty || v.head?.any isAsciiWhitespace || v.getLast?.any isAsciiWhitespace then
    .error (.invalidData errValueNotInteger)
  else
    match parseI64Fast v with
    | some n => .ok n
    | none => .error (.invalidData errValueNotInteger)

section
variable (parseI64Fast : Bytes → Option Int64) (s : Store) (kc : KeyComposer) (key : Key)
  (nowMs : UInt64)

/-- `none` is a panic; a call that ends with an error queues nothing. -/
def incrbyEx (increment : Int64) (expireMs : UInt64) (keepTtl : Bool) :
    Option (Except Error (Int64 × Batch)) :=
  match getStringRaw s kc key nowMs with
  | .error err => some (.error err)
  | .ok oldRaw =>
    let cur : Except Error (Int64 × UInt64) :=
      match oldRaw with
      | some (raw, exp, offset) =>
        (parseRedisInteger parseI64Fast (raw.drop offset)).map fun n => (n, exp)
      | none => .ok (0, 0)
    match cur with
    | .error err => some (.error err)
    | .ok (curNum, oldExpire) =>
      match checkedAdd curNum increment with
      | none => some (.error (.invalidData errIncrementOverflow))
      | some newNum =>
        let targetExpire := if keepTtl then oldExpire else expireMs
        (withEncodedStringValue (formatInt newNum) targetExpire).map fun encVal =>
          .ok (newNum, writeStringVal s kc key encVal oldRaw.isNone)

def incrby (increment : Int64) : Option (Except Error (Int64 × Batch)) :=
  incrbyEx parseI64Fast s kc key nowMs increment 0 true

def decrby (decrement : Int64) : Option (Except Error (Int64 × Batch)) :=
  incrbyEx parseI64Fast s kc key nowMs (-decrement) 0 true

end

inductive CounterCall
  | incrby (increment : Int64)
  | decrby (decrement : Int64)
  | hincrby (field : Bytes) (step : Int64)

namespace CounterCall

def sum (n : ℤ) : CounterCall → ℤ
  | incrby increment => n + increment.toInt
  | decrby decrement => n - decrement.toInt
  | hincrby _ step => n + step.toInt

def plan (parseI64Fast : Bytes → Option Int64) (s : Store) (kc : KeyComposer) (key : Key)
    (nowMs version : UInt64) : CounterCall → Option (Except Error (Int64 × Batch))
  | incrby increment => Wedb.incrby parseI64Fast s kc key nowMs increment
  | decrby decrement => Wedb.decrby parseI64Fast s kc key nowMs decrement
  | hincrby field step => some (Wedb.hincrby s kc key nowMs parseI64Fast version field step)

/-- The call finds the number `n` with the expiry `exp`, or nothing. -/
inductive Reads (parseI64Fast : Bytes → Option Int64) (s : Store) (kc : KeyComposer) (key : Key)
    (nowMs : UInt64) : CounterCall → Int64 → UInt64 → Prop
  | string {call : CounterCall} {payload : Bytes} {n : Int64} {exp : UInt64} :
      (∀ f d, call ≠ hincrby f d) → liveString s kc key nowMs = some (exp, payload) →
      parseRedisInteger parseI64Fast payload = .ok n →
      Reads parseI64Fast s kc key nowMs call n exp
  | noString {call : CounterCall} : (∀ f d, call ≠ hincrby f d) → existsOne s kc key nowMs = false →
      Reads parseI64Fast s kc key nowMs call 0 0
  | field {f payload raw : Bytes} {step n : Int64} {exp : UInt64} {hm : HashMeta} :
      getHashMeta s kc key nowMs = .ok (some hm) → s.data.get (keyForField kc key f) = some raw →
      hm.decodeLiveSubkeyValue raw nowMs = some (exp, payload) →
      parseHashInteger parseI64Fast payload = .ok n →
      Reads parseI64Fast s kc key nowMs (hincrby f step) n exp
  | noField {f : Bytes} {step : Int64} {hm : HashMeta} :
      getHashMeta s kc key nowMs = .ok (some hm) → ((s.data.get (keyForField kc key f)).bind
        fun raw => hm.decodeLiveSubkeyValue raw nowMs) = none →
      Reads parseI64Fast s kc key nowMs (hincrby f step) 0 0
  | noHash {f : Bytes} {step : Int64} : getHashMeta s kc key nowMs = .ok none →
      Reads parseI64Fast s kc key nowMs (hincrby f step) 0 0

/-- The string or field of the call is live with the payload and the expiry. -/
def Stored (s : Store) (kc : KeyComposer) (key : Key) (nowMs : UInt64) (payload : Bytes)
    (exp : UInt64) : CounterCall → Prop
  | incrby _ | decrby _ => liveString s kc key nowMs = some (exp, payload)
  | hincrby f _ => ∃ hm, getHashMeta s kc key nowMs = .ok (some hm) ∧
      ((s.data.get (keyForField kc key f)).bind fun raw => hm.decodeLiveSubkeyValue raw nowMs) =
        some (exp, payload)

end CounterCall

/-- The call succeeds just when the sum fits, then returns it and stores it in decimal. -/
def CounterExact (parseI64Fast : Bytes → Option Int64) (s : Store) (kc : KeyComposer) (key : Key)
    (nowMs version : UInt64) (call : CounterCall) (n : Int64) (exp : UInt64) : Prop :=
  (-2 ^ 63 ≤ call.sum n.toInt ∧ call.sum n.toInt < 2 ^ 63 → ∃ v ops,
    call.plan parseI64Fast s kc key nowMs version = some (.ok (v, ops)) ∧
      v.toInt = call.sum n.toInt ∧ call.Stored (s.apply ops) kc key nowMs (formatInt v) exp) ∧
  (¬(-2 ^ 63 ≤ call.sum n.toInt ∧ call.sum n.toInt < 2 ^ 63) → ∃ err,
    call.plan parseI64Fast s kc key nowMs version = some (.error err))

/-! ## Sums -/

theorem checkedAdd_of_fits {a b : Int64} (h : -2 ^ 63 ≤ a.toInt + b.toInt ∧ a.toInt + b.toInt < 2 ^ 63) :
    ∃ v, checkedAdd a b = some v ∧ v.toInt = a.toInt + b.toInt :=
  ⟨_, if_pos h, Int64.toInt_ofInt_of_le h.1 h.2⟩

theorem checkedAdd_of_not_fits {a b : Int64}
    (h : ¬(-2 ^ 63 ≤ a.toInt + b.toInt ∧ a.toInt + b.toInt < 2 ^ 63)) : checkedAdd a b = none :=
  if_neg h

theorem toInt_neg_of_ne {d : Int64} (h : d ≠ Int64.minValue) : (-d).toInt = -d.toInt := by
  have hmin : d.toInt ≠ -2 ^ 63 := fun hd => h (Int64.toInt_inj.mp hd)
  have hlo := Int64.le_toInt d
  have hhi := Int64.toInt_lt d
  have hneg : -d = Int64.ofInt (-d.toInt) := by
    rw [Int64.ofInt_neg, Int64.ofInt_toInt]
  rw [hneg, Int64.toInt_ofInt_of_le (by omega) (by omega)]

/-! ## Strings -/

section
variable {parseI64Fast : Bytes → Option Int64} {s : Store} {kc : KeyComposer} {key : Key}
  {now version exp : UInt64} {payload : Bytes} {n increment : Int64}

/-- A stored number with its expiry, or nothing. -/
inductive StringReads (parseI64Fast : Bytes → Option Int64) (s : Store) (kc : KeyComposer) (key : Key)
    (now : UInt64) : Int64 → UInt64 → Prop
  | live {payload : Bytes} {n : Int64} {exp : UInt64} :
      liveString s kc key now = some (exp, payload) →
      parseRedisInteger parseI64Fast payload = .ok n → StringReads parseI64Fast s kc key now n exp
  | absent : existsOne s kc key now = false → StringReads parseI64Fast s kc key now 0 0

theorem incrbyEx_eq (h : StringReads parseI64Fast s kc key now n exp) (increment : Int64) :
    ∃ oldIsNone, incrbyEx parseI64Fast s kc key now increment 0 true = some
      (match checkedAdd n increment with
        | none => .error (.invalidData errIncrementOverflow)
        | some v => .ok (v, writeStringVal s kc key (encodeStringValue (formatInt v) exp) oldIsNone)) := by
  cases h with
  | live hlive hparse =>
    obtain ⟨raw, hraw, hdrop⟩ := getStringRaw_of_live hlive
    refine ⟨false, ?_⟩
    simp only [incrbyEx, hraw, hdrop, hparse, Except.map, if_true]
    cases checkedAdd n increment with
    | none => rfl
    | some v =>
      simp only [withEncodedStringValue_eq]
      rfl
  | absent habsent =>
    refine ⟨true, ?_⟩
    simp only [incrbyEx, getStringRaw_of_absent habsent, if_true]
    cases checkedAdd 0 increment with
    | none => rfl
    | some v =>
      simp only [withEncodedStringValue_eq]
      rfl

theorem StringReads.not_expired (h : StringReads parseI64Fast s kc key now n exp) :
    isStringExpired exp now = false := by
  cases h with
  | live hlive hparse => exact not_expired_of_live hlive
  | absent habsent => rfl

theorem incrbyEx_exact (h : StringReads parseI64Fast s kc key now n exp) (increment : Int64) :
    (-2 ^ 63 ≤ n.toInt + increment.toInt ∧ n.toInt + increment.toInt < 2 ^ 63 → ∃ v ops,
      incrbyEx parseI64Fast s kc key now increment 0 true = some (.ok (v, ops)) ∧
        v.toInt = n.toInt + increment.toInt ∧
        liveString (s.apply ops) kc key now = some (exp, formatInt v)) ∧
    (¬(-2 ^ 63 ≤ n.toInt + increment.toInt ∧ n.toInt + increment.toInt < 2 ^ 63) → ∃ err,
      incrbyEx parseI64Fast s kc key now increment 0 true = some (.error err)) := by
  obtain ⟨oldIsNone, hrun⟩ := incrbyEx_eq h increment
  rw [hrun]
  constructor
  · intro hfits
    obtain ⟨v, hadd, hv⟩ := checkedAdd_of_fits hfits
    rw [hadd]
    exact ⟨v, _, rfl, hv, liveString_of_at (writeStringVal_at s kc key _ oldIsNone) h.not_expired⟩
  · intro hfits
    rw [checkedAdd_of_not_fits hfits]
    exact ⟨_, rfl⟩

/-! ## Hash fields -/

variable {f : Bytes} {step : Int64}

/-- What HINCRBY adds to, and how it counts the field. -/
structure HincrbyStart (parseI64Fast : Bytes → Option Int64) (s : Store) (kc : KeyComposer)
    (key : Key) (now version : UInt64) (f : Bytes) (n : Int64) (exp : UInt64) (hm : HashMeta)
    (existed isMissing isExpiredTtl : Bool) (ops : Batch) : Prop where
  prepare : prepareHashMetaForWrite s kc key now version = .ok (hm, existed, ops)
  current : hincrbyCurrent s kc key now parseI64Fast hm existed f =
    .ok (n, isMissing, isExpiredTtl, exp)
  owned : ∀ o ∈ ops, o.OwnedBy kc key .hashMeta
  str : (liveString s kc key now).isSome = false
  live : (if isMissing then hm.applyMissingToPersistent
    else if isExpiredTtl then hm.applyTtlToPersistent else hm).isExpired now = false
  fieldLive : isFieldExpired exp now = false
  mode : exp = 0 ∨ (if isMissing then hm.applyMissingToPersistent
    else if isExpiredTtl then hm.applyTtlToPersistent else hm).mode = .fieldExpiration

theorem hincrby_start (hread : CounterCall.Reads parseI64Fast s kc key now (.hincrby f step) n exp)
    (version : UInt64) : ∃ hm existed isMissing isExpiredTtl ops,
      HincrbyStart parseI64Fast s kc key now version f n exp hm existed isMissing isExpiredTtl ops := by
  cases hread with
  | string hne hlive hparse => exact absurd rfl (hne f step)
  | noString hne habsent => exact absurd rfl (hne f step)
  | @field f payload raw step n exp hm hget hdata hdec hparse =>
    obtain ⟨hstr, hlive, -⟩ := getMetaChecked_eq_some hget
    rw [HashMeta.decodeLiveSubkeyValue, Option.filter_eq_some_iff] at hdec
    obtain ⟨hdec, hfresh⟩ := hdec
    have hfield : isFieldExpired exp now = false := by simpa using hfresh
    refine ⟨hm, true, false, false, [], ?_, ?_, ?_, hstr, hlive, hfield, ?_⟩
    · rw [prepareHashMetaForWrite, hget]
      rfl
    · rw [hincrbyCurrent, if_pos rfl, hdata, Option.bind_some, hdec]
      simp only [hfield, Bool.false_eq_true, if_false, hparse]
      rfl
    · exact fun o ho => (List.not_mem_nil ho).elim
    · rw [HashMeta.decodeSubkeyValue, HashMeta.isLegacySubkeyEncoding] at hdec
      cases hmode : hm.mode with
      | legacy =>
        rw [hmode, if_pos (beq_self_eq_true _), Option.some.injEq] at hdec
        exact Or.inl (congrArg Prod.fst hdec).symm
      | fieldExpiration => exact Or.inr hmode
  | @noField f step hm hget hnone =>
    obtain ⟨hstr, hlive, -⟩ := getMetaChecked_eq_some hget
    have hprepare : prepareHashMetaForWrite s kc key now version = .ok (hm, true, []) := by
      rw [prepareHashMetaForWrite, hget]
      rfl
    have hops : ∀ o ∈ ([] : Batch), o.OwnedBy kc key .hashMeta :=
      fun o ho => (List.not_mem_nil ho).elim
    have hfield : isFieldExpired 0 now = false := rfl
    cases hdec : (s.data.get (keyForField kc key f)).bind hm.decodeSubkeyValue with
    | none =>
      refine ⟨hm, true, true, false, [], hprepare, ?_, hops, hstr,
        hm.counted_missing.not_expired hlive, hfield, Or.inl rfl⟩
      rw [hincrbyCurrent, if_pos rfl, hdec]
    | some x =>
      obtain ⟨e, payload⟩ := x
      have hdead : isFieldExpired e now = true := by
        obtain ⟨raw, hraw, hdecode⟩ := Option.bind_eq_some_iff.mp hdec
        rw [hraw, Option.bind_some, HashMeta.decodeLiveSubkeyValue, hdecode, Option.filter_some] at hnone
        by_contra hfresh
        rw [Bool.not_eq_true] at hfresh
        simp only [hfresh, Bool.not_false, if_true, reduceCtorEq] at hnone
      refine ⟨hm, true, false, true, [], hprepare, ?_, hops, hstr,
        hm.counted_ttl.not_expired hlive, hfield, Or.inl rfl⟩
      rw [hincrbyCurrent, if_pos rfl, hdec]
      simp only [hdead, if_true]
  | noHash hget =>
    refine ⟨.newWithVersion 0 0 version, false, true, false,
      clearPrefixInBatch s .data (composeHashPrefix kc key), ?_, ?_, ?_, getHashMeta_none_str hget,
      HashMeta.newWithVersion_missing_live version now, rfl, Or.inl rfl⟩
    · rw [prepareHashMetaForWrite, hget]
      rfl
    · rw [hincrbyCurrent, if_neg Bool.false_ne_true]
    · exact fun o ho => ownedBy_clearPrefix .hashData rfl ho

theorem hincrby_exact (hread : CounterCall.Reads parseI64Fast s kc key now (.hincrby f step) n exp)
    (version : UInt64) :
    CounterExact parseI64Fast s kc key now version (.hincrby f step) n exp := by
  obtain ⟨hm, existed, isMissing, isExpiredTtl, ops, hstart⟩ := hincrby_start hread version
  have hrun : hincrby s kc key now parseI64Fast version f step = match checkedAdd n step with
      | none => .error (.invalidData errIncrementOverflow)
      | some newVal => .ok (newVal, ops ++ [.insertData (keyForField kc key f)
          ((if isMissing then hm.applyMissingToPersistent
            else if isExpiredTtl then hm.applyTtlToPersistent else hm).encodeSubkeyValue
              (formatInt newVal) exp), .insertMeta (composeHashMetaKey kc key)
          (if isMissing then hm.applyMissingToPersistent
            else if isExpiredTtl then hm.applyTtlToPersistent else hm).encode]) := by
    simp only [hincrby, hstart.prepare, hstart.current, bind, Except.bind]
    rfl
  simp only [CounterExact, CounterCall.plan, CounterCall.sum, CounterCall.Stored, hrun]
  constructor
  · intro hfits
    obtain ⟨v, hadd, hv⟩ := checkedAdd_of_fits hfits
    simp only [hadd]
    exact ⟨v, _, rfl, hv, field_written hstart.owned hstart.str hstart.live hstart.fieldLive
      hstart.mode⟩
  · intro hfits
    simp only [checkedAdd_of_not_fits hfits]
    exact ⟨_, rfl⟩

/-! ## Exactness -/

theorem CounterCall.Reads.string_reads {call : CounterCall}
    (h : call.Reads parseI64Fast s kc key now n exp) (hne : ∀ f d, call ≠ .hincrby f d) :
    StringReads parseI64Fast s kc key now n exp := by
  cases h with
  | string _ hlive hparse => exact .live hlive hparse
  | noString _ habsent => exact .absent habsent
  | field => exact absurd rfl (hne _ _)
  | noField => exact absurd rfl (hne _ _)
  | noHash => exact absurd rfl (hne _ _)

theorem decrby_exact_iff {decrement : Int64} (h : StringReads parseI64Fast s kc key now n exp)
    (version : UInt64) :
    CounterExact parseI64Fast s kc key now version (.decrby decrement) n exp ↔
      decrement ≠ Int64.minValue := by
  have hrun := incrbyEx_exact h (-decrement)
  constructor
  · rintro ⟨hok, herr⟩ rfl
    have hmin : (-Int64.minValue).toInt = -2 ^ 63 := by decide
    have hsum : (CounterCall.decrby Int64.minValue).sum n.toInt = n.toInt + 2 ^ 63 := by
      rw [CounterCall.sum, show Int64.minValue.toInt = -2 ^ 63 by decide]
      omega
    have hlo := Int64.le_toInt n
    have hhi := Int64.toInt_lt n
    rw [hmin] at hrun
    rw [hsum] at hok herr
    by_cases hneg : n.toInt < 0
    · obtain ⟨v, ops, hplan, -⟩ := hok (by omega)
      obtain ⟨err, hfail⟩ := hrun.2 (by omega)
      have hplan' : incrbyEx parseI64Fast s kc key now (-Int64.minValue) 0 true =
        some (.ok (v, ops)) := hplan
      rw [hfail] at hplan'
      cases hplan'
    · obtain ⟨err, hplan⟩ := herr (by omega)
      obtain ⟨v, ops, hok', -⟩ := hrun.1 (by omega)
      have hplan' : incrbyEx parseI64Fast s kc key now (-Int64.minValue) 0 true =
        some (.error err) := hplan
      rw [hok'] at hplan'
      cases hplan'
  · intro hne
    rw [toInt_neg_of_ne hne, ← sub_eq_add_neg] at hrun
    exact hrun

end

/-- Counters are exact, but for a decrement by the least number. -/
theorem counter_exact_iff (parseI64Fast : Bytes → Option Int64) (s : Store) (kc : KeyComposer)
    (key : Key) (now version : UInt64) (call : CounterCall) (n : Int64) (exp : UInt64)
    (h : call.Reads parseI64Fast s kc key now n exp) :
    CounterExact parseI64Fast s kc key now version call n exp ↔
      call ≠ .decrby Int64.minValue := by
  cases call with
  | incrby increment =>
    have hread := h.string_reads fun f d => by simp
    exact iff_of_true (incrbyEx_exact hread increment) (by simp)
  | decrby decrement =>
    have hread := h.string_reads fun f d => by simp
    rw [decrby_exact_iff hread version, ne_eq, ne_eq, CounterCall.decrby.injEq]
  | hincrby f step => exact iff_of_true (hincrby_exact h version) (by simp)

def sampleParse (v : Bytes) : Option Int64 :=
  some (Int64.ofNat (v.foldl (fun n b => n * 10 + (b.toNat - 48)) 0))

theorem counter_exact_iff_sample :
    CounterExact sampleParse ((∅ : Store).apply [.insertData (composeStringKey ⟨0, 0⟩ sampleKey.bytes)
      (encodeStringValue [52, 50] 9)]) ⟨0, 0⟩ sampleKey 5 1 (.decrby 2) 42 9 ↔
      CounterCall.decrby 2 ≠ .decrby Int64.minValue :=
  counter_exact_iff sampleParse _ ⟨0, 0⟩ sampleKey 5 1 (.decrby 2) 42 9
    (.string (fun f d => by simp) (show liveString _ _ _ _ = some (9, [52, 50]) by decide)
      (by decide))

/-- Zero less the least number does not fit, and the call succeeds. -/
theorem decrby_wraps : ¬∀ parseI64Fast s kc key now version call n exp,
    CounterCall.Reads parseI64Fast s kc key now call n exp →
      CounterExact parseI64Fast s kc key now version call n exp := by
  intro h
  have habsent : existsOne ∅ ⟨0, 0⟩ sampleKey 5 = false := by decide
  have hexact := h sampleParse ∅ ⟨0, 0⟩ sampleKey 5 1 (.decrby Int64.minValue) 0 0
    (.noString (fun f d => by simp) habsent)
  exact (decrby_exact_iff (.absent habsent) 1).mp hexact rfl

end Wedb
