import Mathlib.Data.Nat.Bitwise
import Wedb.Bitmap.Field

/-!
# What the arithmetic of fields gives

The value that an operation settles on: the exact one where the field has it, else the one
that the overflow policy chooses. Overflow is detected through differences that wrap
themselves; for a value of the field they do not, for an arbitrary word they can.
-/

namespace Wedb.Bitfield

namespace BitfieldEncoding

variable (enc : BitfieldEncoding)

def lo : ℤ := if enc.isSigned then -2 ^ (enc.bits - 1) else 0

def hi : ℤ := if enc.isSigned then 2 ^ (enc.bits - 1) - 1 else 2 ^ enc.bits - 1

def valueOf (raw : ℕ) : ℤ :=
  if enc.isSigned ∧ 2 ^ (enc.bits - 1) ≤ raw then (raw : ℤ) - 2 ^ enc.bits else raw

def settle (overflow : BitfieldOverflow) (x : ℤ) : Option ℤ :=
  if enc.lo ≤ x ∧ x ≤ enc.hi then some x
  else
    match overflow with
    | .wrap => some (enc.lo + (x - enc.lo) % 2 ^ enc.bits)
    | .sat => some (if x < enc.lo then enc.lo else enc.hi)
    | .fail => none

def plusResult (overflow : BitfieldOverflow) (x : ℤ) : ℕ × Bool :=
  (asU64 ((enc.settle overflow x).getD 0), ¬(enc.lo ≤ x ∧ x ≤ enc.hi))

end BitfieldEncoding

def overflowResult (overflow : BitfieldOverflow) (wrapped saturated : ℕ) : ℕ × Bool :=
  match overflow with
  | .wrap => (wrapped, true)
  | .sat => (saturated, true)
  | .fail => (0, true)

/-! ## Words -/

theorem asI64_asU64 {x : ℤ} (hlo : -2 ^ 63 ≤ x) (hhi : x < 2 ^ 63) : asI64 (asU64 x) = x := by
  rw [asI64, asU64]
  split_ifs <;> omega

theorem asU64_lt (x : ℤ) : asU64 x < 2 ^ 64 := by
  rw [asU64]
  omega

theorem asU64_natCast {n : ℕ} (hn : n < 2 ^ 64) : asU64 n = n := by
  rw [asU64]
  omega

theorem wrap_unique {lo m x y : ℤ} (hlo : lo ≤ y) (hhi : y < lo + m) (hmod : y % m = x % m) :
    lo + (x - lo) % m = y := by
  have hsplit : x - lo = (y - lo) + m * ((x - y) / m) := by
    have hdiv := Int.mul_ediv_add_emod (x - y) m
    rw [Int.emod_eq_emod_iff_emod_sub_eq_zero.mp hmod.symm] at hdiv
    omega
  rw [hsplit, Int.add_mul_emod_self_left, Int.emod_eq_of_lt (by omega) (by omega)]
  ring

theorem pow_split {bits : ℕ} (hpos : 1 ≤ bits) : (2 : ℕ) ^ bits = 2 * 2 ^ (bits - 1) := by
  rw [← pow_succ', Nat.sub_add_cancel hpos]

theorem pow_dvd_word {bits : ℕ} (hle : bits ≤ 64) : (2 : ℤ) ^ bits ∣ 2 ^ 64 := pow_dvd_pow 2 hle

theorem and_low {res bits : ℕ} (hbits : bits < 64) :
    res &&& (2 ^ 64 - 1 - (2 ^ 64 - 2 ^ bits)) = res % 2 ^ bits := by
  have hle : 2 ^ bits ≤ 2 ^ 64 := Nat.pow_le_pow_right two_pos hbits.le
  have hpos := Nat.two_pow_pos bits
  have hmask : 2 ^ 64 - 1 - (2 ^ 64 - 2 ^ bits) = 2 ^ bits - 1 := by omega
  rw [hmask, Nat.and_two_pow_sub_one_eq_mod]

theorem or_high {res bits : ℕ} (hres : res < 2 ^ 64) (hbits : bits < 64) :
    res ||| (2 ^ 64 - 2 ^ bits) = 2 ^ 64 - 2 ^ bits + res % 2 ^ bits := by
  have hmask : 2 ^ 64 - 2 ^ bits = 2 ^ bits * (2 ^ (64 - bits) - 1) := by
    rw [Nat.mul_sub, ← pow_add, mul_one, Nat.add_sub_cancel' hbits.le]
  rw [hmask, Nat.two_pow_add_eq_or_of_lt (Nat.mod_lt _ (Nat.two_pow_pos bits))]
  refine Nat.eq_of_testBit_eq fun i => ?_
  rw [Nat.testBit_or, Nat.testBit_or, Nat.testBit_two_pow_mul, Nat.testBit_two_pow_sub_one,
    Nat.testBit_mod_two_pow]
  by_cases hlow : i < bits
  · simp [hlow, not_le.mpr hlow]
  · by_cases hhigh : i < 64
    · simp [not_lt.mp hlow, (by omega : i - bits < 64 - bits)]
    · rw [Nat.testBit_lt_two_pow (hres.trans_le (Nat.pow_le_pow_right two_pos (not_lt.mp hhigh)))]
      simp [hlow]

theorem and_sign {res bits : ℕ} (hpos : 1 ≤ bits) :
    res &&& 2 ^ (bits - 1) ≠ 0 ↔ 2 ^ (bits - 1) ≤ res % 2 ^ bits := by
  have hlt : res % 2 ^ bits < 2 * 2 ^ (bits - 1) :=
    pow_split hpos ▸ Nat.mod_lt _ (Nat.two_pow_pos bits)
  have hbit : (res % 2 ^ bits).testBit (bits - 1) = res.testBit (bits - 1) := by
    rw [Nat.testBit_mod_two_pow, decide_eq_true (by omega), Bool.true_and]
  rw [Nat.and_two_pow, ← hbit, Nat.testBit_eq_decide_div_mod_eq]
  have hdiv : res % 2 ^ bits / 2 ^ (bits - 1) = if 2 ^ (bits - 1) ≤ res % 2 ^ bits then 1 else 0 := by
    split_ifs with h
    · exact Nat.div_eq_of_lt_le (by omega) (by omega)
    · exact Nat.div_eq_of_lt (by omega)
  rw [hdiv]
  split_ifs with h
  · simpa using h
  · simpa using h

/-! ## Wrapped sums -/

theorem asU64_add (x y : ℤ) : (asU64 x + asU64 y) % 2 ^ 64 = asU64 (x + y) := by
  rw [asU64, asU64, asU64]
  omega

theorem asU64_mod {bits : ℕ} (hle : bits ≤ 64) (x : ℤ) :
    ((asU64 x % 2 ^ bits : ℕ) : ℤ) = x % 2 ^ bits := by
  have hcast : (asU64 x : ℤ) = x % 2 ^ 64 := by
    rw [asU64]
    omega
  rw [Int.natCast_emod, hcast, Nat.cast_pow, Nat.cast_ofNat,
    Int.emod_emod_of_dvd _ (pow_dvd_word hle)]

theorem pow_le_word {bits : ℕ} (hle : bits ≤ 64) : (2 : ℕ) ^ bits ≤ 2 ^ 64 :=
  Nat.pow_le_pow_right two_pos hle

theorem asU64_negative {raw modulus : ℕ} (hraw : raw < modulus) (hle : modulus ≤ 2 ^ 64) :
    asU64 ((raw : ℤ) - modulus) = 2 ^ 64 - modulus + raw := by
  rw [asU64]
  omega

theorem wrappedSignedBitfieldPlus_eq {bits : ℕ} (hpos : 1 ≤ bits) (hle : bits ≤ 64) (v d : ℤ) :
    wrappedSignedBitfieldPlus (asU64 v) d bits =
      asU64 (-2 ^ (bits - 1) + (v + d - -2 ^ (bits - 1)) % 2 ^ bits) := by
  have hhalf := pow_split hpos
  have hmod := asU64_mod hle (v + d)
  have hlt : asU64 (v + d) % 2 ^ bits < 2 ^ bits := Nat.mod_lt _ (Nat.two_pow_pos bits)
  have hword := pow_le_word hle
  have hcast : ((2 ^ (bits - 1) : ℕ) : ℤ) = 2 ^ (bits - 1) := by push_cast; rfl
  have hcast' : ((2 ^ bits : ℕ) : ℤ) = 2 ^ bits := by push_cast; rfl
  rw [wrappedSignedBitfieldPlus]
  simp only [asU64_add]
  by_cases hbits : bits < 64
  · rw [if_pos hbits]
    by_cases hsign : asU64 (v + d) &&& 2 ^ (bits - 1) ≠ 0
    · have hge := (and_sign hpos).mp hsign
      have hy : -2 ^ (bits - 1) + (v + d - -2 ^ (bits - 1)) % 2 ^ bits =
          ((asU64 (v + d) % 2 ^ bits : ℕ) : ℤ) - (2 ^ bits : ℕ) := by
        refine wrap_unique ?_ ?_ ?_
        · omega
        · omega
        · rw [hmod, hcast', Int.sub_emod_right, Int.emod_emod_of_dvd _ dvd_rfl]
      rw [if_pos hsign, or_high (asU64_lt _) hbits, hy, asU64_negative hlt hword]
    · have hge := mt (and_sign hpos).mpr hsign
      have hy : -2 ^ (bits - 1) + (v + d - -2 ^ (bits - 1)) % 2 ^ bits =
          ((asU64 (v + d) % 2 ^ bits : ℕ) : ℤ) := by
        refine wrap_unique ?_ ?_ ?_
        · omega
        · omega
        · rw [hmod, Int.emod_emod_of_dvd _ dvd_rfl]
      rw [if_neg hsign, and_low hbits, hy, asU64_natCast (by omega)]
  · obtain rfl : bits = 64 := by omega
    rw [if_neg (lt_irrefl _), asU64, asU64]
    omega

theorem wrappedUnsignedBitfieldPlus_eq {bits : ℕ} (hbits : bits < 64) (v d : ℤ) :
    wrappedUnsignedBitfieldPlus (asU64 v) d bits = asU64 ((v + d) % 2 ^ bits) := by
  rw [wrappedUnsignedBitfieldPlus, if_neg hbits.ne, asU64_add, and_low hbits,
    ← asU64_mod hbits.le]
  have hlt : asU64 (v + d) % 2 ^ bits < 2 ^ bits := Nat.mod_lt _ (Nat.two_pow_pos bits)
  exact (asU64_natCast (hlt.trans_le (pow_le_word hbits.le))).symm

/-! ## Sums -/

namespace BitfieldEncoding

variable (enc : BitfieldEncoding)

theorem plusResult_high {x : ℤ} (hx : enc.hi < x) (hrange : enc.lo ≤ enc.hi)
    (overflow : BitfieldOverflow) :
    enc.plusResult overflow x =
      overflowResult overflow (asU64 (enc.lo + (x - enc.lo) % 2 ^ enc.bits)) (asU64 enc.hi) := by
  have hout : ¬(enc.lo ≤ x ∧ x ≤ enc.hi) := by omega
  unfold plusResult settle
  rw [if_neg hout]
  cases overflow with
  | wrap => simp [overflowResult, hx.not_ge]
  | sat => simp [overflowResult, hx.not_ge, (hrange.trans_lt hx).not_gt]
  | fail => simp [overflowResult, hx.not_ge, asU64]

theorem plusResult_low {x : ℤ} (hx : x < enc.lo) (overflow : BitfieldOverflow) :
    enc.plusResult overflow x =
      overflowResult overflow (asU64 (enc.lo + (x - enc.lo) % 2 ^ enc.bits)) (asU64 enc.lo) := by
  have hout : ¬(enc.lo ≤ x ∧ x ≤ enc.hi) := by omega
  unfold plusResult settle
  rw [if_neg hout]
  cases overflow with
  | wrap => simp [overflowResult, hx.not_ge]
  | sat => simp [overflowResult, hx, hx.not_ge]
  | fail => simp [overflowResult, hx.not_ge, asU64]

theorem plusResult_inside {x : ℤ} (hx : enc.lo ≤ x ∧ x ≤ enc.hi) (overflow : BitfieldOverflow) :
    enc.plusResult overflow x = (asU64 x, false) := by
  simp [plusResult, settle, hx]

end BitfieldEncoding

theorem half_cases {bits : ℕ} (hpos : 1 ≤ bits) (hle : bits ≤ 64) :
    1 ≤ (2 : ℤ) ^ (bits - 1) ∧
      (bits = 64 ∧ (2 : ℤ) ^ (bits - 1) = 2 ^ 63 ∨ bits ≠ 64 ∧ (2 : ℤ) ^ (bits - 1) ≤ 2 ^ 62) := by
  refine ⟨one_le_pow₀ (by norm_num), ?_⟩
  by_cases hbits : bits = 64
  · subst hbits
    exact .inl ⟨rfl, rfl⟩
  · exact .inr ⟨hbits, pow_le_pow_right₀ (by norm_num) (by omega)⟩

namespace BitfieldEncoding

variable {enc : BitfieldEncoding}

theorem le_of_signed (henc : enc.isSigned = true) : enc.bits ≤ 64 := by
  have hle := enc.le
  rwa [if_pos henc] at hle

theorem lo_of_signed (henc : enc.isSigned = true) : enc.lo = -2 ^ (enc.bits - 1) := by
  rw [lo, if_pos henc]

theorem hi_of_signed (henc : enc.isSigned = true) : enc.hi = 2 ^ (enc.bits - 1) - 1 := by
  rw [hi, if_pos henc]

end BitfieldEncoding

section signed

variable {enc : BitfieldEncoding} {v d : ℤ}

theorem signedBitfieldPlus_eq (henc : enc.isSigned = true) (hv : -2 ^ 63 ≤ v ∧ v < 2 ^ 63)
    (overflow : BitfieldOverflow) :
    signedBitfieldPlus (asU64 v) d enc.bits overflow =
      if enc.hi < v ∨ (enc.bits ≠ 64 ∧ asI64 (asU64 (enc.hi - v)) < d) ∨
          (0 ≤ v ∧ 0 ≤ d ∧ asI64 (asU64 (enc.hi - v)) < d) then
        overflowResult overflow (asU64 (enc.lo + (v + d - enc.lo) % 2 ^ enc.bits)) (asU64 enc.hi)
      else if v < enc.lo ∨ (enc.bits ≠ 64 ∧ d < asI64 (asU64 (enc.lo - v))) ∨
          (v < 0 ∧ d < 0 ∧ d < asI64 (asU64 (enc.lo - v))) then
        overflowResult overflow (asU64 (enc.lo + (v + d - enc.lo) % 2 ^ enc.bits)) (asU64 enc.lo)
      else (asU64 (v + d), false) := by
  have hlo := BitfieldEncoding.lo_of_signed henc
  have hhi := BitfieldEncoding.hi_of_signed henc
  have hmax : (if enc.bits = 64 then 2 ^ 63 - 1 else 2 ^ (enc.bits - 1) - 1 : ℤ) = enc.hi := by
    rw [hhi]
    split_ifs with hbits
    · rw [hbits]
    · rfl
  have hmin : -enc.hi - 1 = enc.lo := by omega
  have hdiff : asU64 (enc.hi - asU64 v) = asU64 (enc.hi - v) := by
    rw [asU64, asU64, asU64]
    omega
  have hwrap := wrappedSignedBitfieldPlus_eq enc.pos (BitfieldEncoding.le_of_signed henc) v d
  rw [← hlo] at hwrap
  unfold signedBitfieldPlus
  simp only [hmax, hmin, hdiff, hwrap, asI64_asU64 hv.1 hv.2]
  rfl

theorem signedBitfieldPlus_incr (henc : enc.isSigned = true) (hv : enc.lo ≤ v ∧ v ≤ enc.hi)
    (hd : -2 ^ 63 ≤ d ∧ d < 2 ^ 63) (overflow : BitfieldOverflow) :
    signedBitfieldPlus (asU64 v) d enc.bits overflow = enc.plusResult overflow (v + d) := by
  have hhalf := half_cases enc.pos (BitfieldEncoding.le_of_signed henc)
  have hlo := BitfieldEncoding.lo_of_signed henc
  have hhi := BitfieldEncoding.hi_of_signed henc
  rw [signedBitfieldPlus_eq henc (by omega)]
  by_cases hhigh : enc.hi < v + d
  · rw [if_pos, enc.plusResult_high hhigh (by omega)]
    simp only [asI64, asU64]
    omega
  · rw [if_neg]
    · by_cases hlow : v + d < enc.lo
      · rw [if_pos, enc.plusResult_low hlow]
        simp only [asI64, asU64]
        omega
      · rw [if_neg, enc.plusResult_inside ⟨by omega, by omega⟩]
        simp only [asI64, asU64]
        omega
    · simp only [asI64, asU64]
      omega

/-- The distance from a word up to the largest value does not fit the word it is taken in. -/
def DifferenceWraps (enc : BitfieldEncoding) (d : ℤ) : Prop := enc.bits ≠ 64 ∧ 2 ^ 63 ≤ enc.hi - d

instance : Decidable (DifferenceWraps enc d) := inferInstanceAs (Decidable (_ ∧ _))

/-- The sum that sets a field: a word far below the field counts as one above it. -/
theorem signedBitfieldPlus_set (henc : enc.isSigned = true) (hd : -2 ^ 63 ≤ d ∧ d < 2 ^ 63)
    (overflow : BitfieldOverflow) :
    signedBitfieldPlus (asU64 d) 0 enc.bits overflow =
      if DifferenceWraps enc d ∧ overflow = .sat then (asU64 enc.hi, true)
      else enc.plusResult overflow d := by
  have hhalf := half_cases enc.pos (BitfieldEncoding.le_of_signed henc)
  have hlo := BitfieldEncoding.lo_of_signed henc
  have hhi := BitfieldEncoding.hi_of_signed henc
  rw [signedBitfieldPlus_eq henc hd, add_zero]
  by_cases hwraps : DifferenceWraps enc d
  · have hlow : d < enc.lo := by
      unfold DifferenceWraps at hwraps
      omega
    have hbranch : enc.hi < d ∨ (enc.bits ≠ 64 ∧ asI64 (asU64 (enc.hi - d)) < 0) ∨
        (0 ≤ d ∧ 0 ≤ (0 : ℤ) ∧ asI64 (asU64 (enc.hi - d)) < 0) := by
      unfold DifferenceWraps at hwraps
      simp only [asI64, asU64]
      omega
    rw [if_pos hbranch, enc.plusResult_low hlow]
    cases overflow with
    | wrap => rw [if_neg (by simp), overflowResult, overflowResult]
    | sat => rw [if_pos ⟨hwraps, rfl⟩, overflowResult]
    | fail => rw [if_neg (by simp), overflowResult, overflowResult]
  · have hset : ¬(DifferenceWraps enc d ∧ overflow = .sat) := fun h => hwraps h.1
    rw [if_neg hset]
    unfold DifferenceWraps at hwraps
    by_cases hhigh : enc.hi < d
    · rw [if_pos (.inl hhigh), enc.plusResult_high hhigh (by omega)]
    · rw [if_neg]
      · by_cases hlow : d < enc.lo
        · rw [if_pos (.inl hlow), enc.plusResult_low hlow]
        · rw [if_neg, enc.plusResult_inside ⟨by omega, by omega⟩]
          simp only [asI64, asU64]
          omega
      · simp only [asI64, asU64]
        omega

end signed

section unsigned

variable {enc : BitfieldEncoding} {v : ℕ} {d : ℤ}

theorem BitfieldEncoding.le_of_unsigned (henc : enc.isSigned = false) : enc.bits ≤ 63 := by
  have hle := enc.le
  rwa [henc] at hle

theorem BitfieldEncoding.lo_of_unsigned (henc : enc.isSigned = false) : enc.lo = 0 := by
  rw [lo, henc]
  rfl

theorem BitfieldEncoding.hi_of_unsigned (henc : enc.isSigned = false) :
    enc.hi = 2 ^ enc.bits - 1 := by
  rw [hi, henc]
  rfl

theorem unsignedBitfieldPlus_eq (henc : enc.isSigned = false)
    (hv : (v : ℤ) ≤ enc.hi ∨ v < 2 ^ 64 ∧ d = 0) (hd : -2 ^ 63 ≤ d ∧ d < 2 ^ 63) (overflow : BitfieldOverflow) :
    unsignedBitfieldPlus v d enc.bits overflow = enc.plusResult overflow (v + d) := by
  have hle := BitfieldEncoding.le_of_unsigned henc
  have hlo := BitfieldEncoding.lo_of_unsigned henc
  have hhi := BitfieldEncoding.hi_of_unsigned henc
  have hpow : (2 : ℕ) ^ enc.bits ≤ 2 ^ 63 := Nat.pow_le_pow_right two_pos hle
  have hone := Nat.two_pow_pos enc.bits
  have hcast : ((2 ^ enc.bits : ℕ) : ℤ) = 2 ^ enc.bits := by
    push_cast
    rfl
  have hvalue : asU64 v = v := asU64_natCast (by omega)
  have hwrap := @wrappedUnsignedBitfieldPlus_eq enc.bits (by omega) v d
  rw [hvalue] at hwrap
  have hsplit : unsignedBitfieldPlus v d enc.bits overflow =
      if enc.hi < v + d then
        overflowResult overflow (asU64 (enc.lo + (v + d - enc.lo) % 2 ^ enc.bits)) (asU64 enc.hi)
      else if v + d < enc.lo then
        overflowResult overflow (asU64 (enc.lo + (v + d - enc.lo) % 2 ^ enc.bits)) (asU64 enc.lo)
      else (asU64 (v + d), false) := by
    have hmax : (if enc.bits = 64 then 2 ^ 64 - 1 else 2 ^ enc.bits - 1 : ℕ) = 2 ^ enc.bits - 1 := by
      rw [if_neg (by omega)]
    have hsum : (v + asU64 d) % 2 ^ 64 = asU64 (v + d) := by rw [← asU64_add, hvalue]
    have hhi' : asU64 enc.hi = 2 ^ enc.bits - 1 := by
      rw [asU64]
      omega
    unfold unsignedBitfieldPlus
    simp only [hmax, hwrap, hsum, hhi', hlo, sub_zero, zero_add]
    refine if_congr ?_ rfl (if_congr ?_ rfl rfl)
    · simp only [asI64, asU64]
      omega
    · simp only [asI64]
      omega
  rw [hsplit]
  split_ifs with hhigh hlow
  · rw [enc.plusResult_high hhigh (by omega)]
  · rw [enc.plusResult_low hlow]
  · rw [enc.plusResult_inside ⟨by omega, by omega⟩]

end unsigned

/-! ## The sum of an operation -/

namespace BitfieldEncoding

variable (enc : BitfieldEncoding)

def ofInt (x : ℤ) : BitfieldValue := if enc.isSigned then .signed x else .unsigned x.toNat

theorem le_word : enc.bits ≤ 64 := by
  have hle := enc.le
  split_ifs at hle <;> omega

variable {enc} {raw : ℕ}

theorem valueOf_range (hraw : raw < 2 ^ enc.bits) :
    enc.lo ≤ enc.valueOf raw ∧ enc.valueOf raw ≤ enc.hi := by
  have hhalf := pow_split enc.pos
  have hcast : ((2 ^ (enc.bits - 1) : ℕ) : ℤ) = 2 ^ (enc.bits - 1) := by
    push_cast
    rfl
  have hcast' : ((2 ^ enc.bits : ℕ) : ℤ) = 2 ^ enc.bits := by
    push_cast
    rfl
  rw [lo, hi, valueOf]
  cases hsigned : enc.isSigned with
  | true =>
    simp only [if_true, true_and]
    split_ifs <;> omega
  | false =>
    simp only [Bool.false_eq_true, false_and, if_false]
    omega

theorem limits_word : -2 ^ 63 ≤ enc.lo ∧ enc.lo ≤ enc.hi ∧ enc.hi < 2 ^ 63 ∧
    enc.hi - enc.lo = 2 ^ enc.bits - 1 := by
  cases hsigned : enc.isSigned with
  | true =>
    have hhalf := half_cases enc.pos (le_of_signed hsigned)
    have hdouble : (2 : ℤ) ^ enc.bits = 2 * 2 ^ (enc.bits - 1) := by exact_mod_cast pow_split enc.pos
    have hlo := lo_of_signed hsigned
    have hhi := hi_of_signed hsigned
    omega
  | false =>
    have hone : (1 : ℤ) ≤ 2 ^ enc.bits := one_le_pow₀ (by norm_num)
    have hpow : (2 : ℤ) ^ enc.bits ≤ 2 ^ 63 :=
      pow_le_pow_right₀ (by norm_num) (le_of_unsigned hsigned)
    have hlo := lo_of_unsigned hsigned
    have hhi := hi_of_unsigned hsigned
    omega

theorem settle_none_iff {overflow : BitfieldOverflow} {x : ℤ} :
    enc.settle overflow x = none ↔ overflow = .fail ∧ ¬(enc.lo ≤ x ∧ x ≤ enc.hi) := by
  unfold settle
  by_cases hx : enc.lo ≤ x ∧ x ≤ enc.hi
  · simp [hx]
  · rw [if_neg hx]
    cases overflow <;> simp [hx]

theorem settle_range {overflow : BitfieldOverflow} {x y : ℤ}
    (h : enc.settle overflow x = some y) : enc.lo ≤ y ∧ y ≤ enc.hi := by
  obtain ⟨-, hle, -, hwidth⟩ := enc.limits_word
  unfold settle at h
  by_cases hx : enc.lo ≤ x ∧ x ≤ enc.hi
  · rw [if_pos hx] at h
    exact Option.some.inj h ▸ hx
  · rw [if_neg hx] at h
    cases overflow with
    | wrap =>
      have hpos : (0 : ℤ) < 2 ^ enc.bits := by positivity
      have hmod := Int.emod_nonneg (x - enc.lo) hpos.ne'
      have hlt := Int.emod_lt_of_pos (x - enc.lo) hpos
      have hy := Option.some.inj h
      omega
    | sat =>
      have hy := Option.some.inj h
      split_ifs at hy <;> omega
    | fail => exact absurd h (by simp)

theorem valueOf_asU64 {x : ℤ} (hx : enc.lo ≤ x ∧ x ≤ enc.hi) :
    enc.valueOf (asU64 x % 2 ^ enc.bits) = x := by
  have hmod := asU64_mod enc.le_word x
  have hlt : asU64 x % 2 ^ enc.bits < 2 ^ enc.bits := Nat.mod_lt _ (Nat.two_pow_pos _)
  have hrange := valueOf_range hlt
  obtain ⟨-, -, -, hwidth⟩ := enc.limits_word
  have hcongr : enc.valueOf (asU64 x % 2 ^ enc.bits) % 2 ^ enc.bits = x % 2 ^ enc.bits := by
    rw [valueOf]
    split_ifs
    · rw [Int.sub_emod_right, hmod, Int.emod_emod_of_dvd _ dvd_rfl]
    · rw [hmod, Int.emod_emod_of_dvd _ dvd_rfl]
  have hread := @wrap_unique enc.lo _ _ _ hrange.1 (by omega) hcongr
  have hself := @wrap_unique enc.lo _ x _ hx.1 (by omega) (rfl : x % 2 ^ enc.bits = _)
  rw [← hread, hself]

theorem valueOf_shift (henc : enc.isSigned = true) (hraw : raw < 2 ^ enc.bits) :
    asI64 (raw * 2 ^ (64 - enc.bits)) >>> (64 - enc.bits) = enc.valueOf raw := by
  have hle := le_of_signed henc
  have hhalf := pow_split enc.pos
  have hpos : 0 < 2 ^ (64 - enc.bits) := Nat.two_pow_pos _
  have hword : 2 ^ enc.bits * 2 ^ (64 - enc.bits) = 2 ^ 64 := by
    rw [← pow_add, Nat.add_sub_cancel' hle]
  have hhalfWord : 2 ^ (enc.bits - 1) * 2 ^ (64 - enc.bits) = 2 ^ 63 := by
    rw [hhalf, mul_assoc] at hword
    omega
  have hlt : raw * 2 ^ (64 - enc.bits) < 2 ^ 64 := hword ▸ Nat.mul_lt_mul_of_pos_right hraw hpos
  have hne : (2 ^ (64 - enc.bits) : ℤ) ≠ 0 := by positivity
  rw [Int.shiftRight_eq_div_pow, asI64, Nat.mod_eq_of_lt hlt, valueOf]
  by_cases hneg : 2 ^ (enc.bits - 1) ≤ raw
  · have hge : 2 ^ 63 ≤ raw * 2 ^ (64 - enc.bits) :=
      hhalfWord ▸ Nat.mul_le_mul_right _ hneg
    have hfactor : ((raw * 2 ^ (64 - enc.bits) : ℕ) : ℤ) - 2 ^ 64 =
        ((raw : ℤ) - 2 ^ enc.bits) * 2 ^ (64 - enc.bits) := by
      have hcast : (2 : ℤ) ^ enc.bits * 2 ^ (64 - enc.bits) = 2 ^ 64 := by exact_mod_cast hword
      rw [sub_mul, hcast]
      push_cast
      rfl
    rw [if_neg hge.not_gt, if_pos ⟨henc, hneg⟩, hfactor]
    push_cast
    exact Int.mul_ediv_cancel _ hne
  · have hlt' : raw * 2 ^ (64 - enc.bits) < 2 ^ 63 :=
      hhalfWord ▸ Nat.mul_lt_mul_of_pos_right (not_le.mp hneg) hpos
    rw [if_pos hlt', if_neg (fun h => hneg h.2)]
    push_cast
    exact Int.mul_ediv_cancel _ hne

theorem toValue_asU64 {x : ℤ} (hx : enc.lo ≤ x ∧ x ≤ enc.hi) :
    enc.toValue (asU64 x) = enc.ofInt x := by
  obtain ⟨hlo, -, hhi, -⟩ := enc.limits_word
  rw [toValue, ofInt]
  cases hsigned : enc.isSigned with
  | true => rw [if_pos rfl, if_pos rfl, asI64_asU64 (by omega) (by omega)]
  | false =>
    have hnonneg := lo_of_unsigned hsigned
    have hcast : asU64 x = x.toNat := by
      rw [asU64]
      omega
    rw [if_neg (by simp), if_neg (by simp), hcast]

end BitfieldEncoding

namespace BitfieldOperation

variable (op : BitfieldOperation)

def input (v : ℤ) : ℤ :=
  match op.opType with
  | .get => v
  | .set => if op.encoding.isSigned then op.value.toInt else asU64 op.value.toInt
  | .incrBy => v + op.value.toInt

def output (v y : ℤ) : BitfieldValue :=
  op.encoding.ofInt (if op.opType = .set then v else y)

/-- A signed field is set with saturation to a value so low that the distance wraps. -/
def Missaturates : Prop :=
  op.opType = .set ∧ op.encoding.isSigned = true ∧ op.overflow = .sat ∧
    DifferenceWraps op.encoding op.value.toInt

instance : Decidable op.Missaturates := inferInstanceAs (Decidable (_ ∧ _ ∧ _ ∧ _))

end BitfieldOperation

theorem int64_range (x : Int64) : -2 ^ 63 ≤ x.toInt ∧ x.toInt < 2 ^ 63 :=
  ⟨x.le_toInt, x.toInt_lt⟩

theorem bitfieldPlus_eq {op : BitfieldOperation} (hop : op.opType ≠ .get) {v : ℤ}
    (hv : op.encoding.lo ≤ v ∧ v ≤ op.encoding.hi) (hmis : ¬op.Missaturates) :
    (if op.encoding.isSigned then
        signedBitfieldPlus (if op.opType = .set then asU64 op.value.toInt else asU64 v)
          (if op.opType = .set then 0 else op.value.toInt) op.encoding.bits op.overflow
      else
        unsignedBitfieldPlus (if op.opType = .set then asU64 op.value.toInt else asU64 v)
          (if op.opType = .set then 0 else op.value.toInt) op.encoding.bits op.overflow) =
      op.encoding.plusResult op.overflow (op.input v) := by
  have hvalue := int64_range op.value
  cases htype : op.opType with
  | get => exact absurd htype hop
  | set =>
    rw [if_pos rfl, if_pos rfl]
    unfold BitfieldOperation.input
    rw [htype]
    cases hsigned : op.encoding.isSigned with
    | true =>
      have hno : ¬(DifferenceWraps op.encoding op.value.toInt ∧ op.overflow = .sat) :=
        fun h => hmis ⟨htype, hsigned, h.2, h.1⟩
      rw [if_pos rfl, signedBitfieldPlus_set hsigned hvalue, if_neg hno]
      rfl
    | false =>
      rw [if_neg (by simp), unsignedBitfieldPlus_eq hsigned (.inr ⟨asU64_lt _, rfl⟩) (by omega)]
      simp
  | incrBy =>
    have hset : ¬(BitfieldOpType.incrBy = .set) := by simp
    rw [if_neg hset, if_neg hset]
    unfold BitfieldOperation.input
    rw [htype]
    cases hsigned : op.encoding.isSigned with
    | true => rw [if_pos rfl, signedBitfieldPlus_incr hsigned hv hvalue]
    | false =>
      have hlo := BitfieldEncoding.lo_of_unsigned hsigned
      have hword := op.encoding.limits_word
      have hcast : (asU64 v : ℤ) = v := by
        rw [asU64]
        omega
      rw [if_neg (by simp), unsignedBitfieldPlus_eq hsigned (.inl (by omega)) hvalue, hcast]

/-- The sum of a field that is set to its largest value instead of its smallest. -/
theorem signedBitfieldPlus_missaturates {op : BitfieldOperation} (hmis : op.Missaturates) :
    signedBitfieldPlus (asU64 op.value.toInt) 0 op.encoding.bits op.overflow =
      (asU64 op.encoding.hi, true) := by
  obtain ⟨-, hsigned, hsat, hwraps⟩ := hmis
  rw [signedBitfieldPlus_set hsigned (int64_range op.value), if_pos ⟨hwraps, hsat⟩]

theorem settle_of_missaturates {op : BitfieldOperation} (hmis : op.Missaturates) (v : ℤ) :
    op.encoding.settle op.overflow (op.input v) = some op.encoding.lo := by
  obtain ⟨htype, hsigned, hsat, hbits, hwraps⟩ := hmis
  have hlow : op.value.toInt < op.encoding.lo := by
    have hhalf := half_cases op.encoding.pos op.encoding.le_word
    have hlo := BitfieldEncoding.lo_of_signed hsigned
    have hhi := BitfieldEncoding.hi_of_signed hsigned
    omega
  unfold BitfieldOperation.input BitfieldEncoding.settle
  rw [htype, hsat]
  simp [hsigned, hlow, hlow.not_ge]

def BitfieldOperation.stored (op : BitfieldOperation) (v : ℤ) : Option ℤ :=
  if op.Missaturates then some op.encoding.hi
  else op.encoding.settle op.overflow (op.input v)

theorem stored_range {op : BitfieldOperation} {v y : ℤ} (h : op.stored v = some y) :
    op.encoding.lo ≤ y ∧ y ≤ op.encoding.hi := by
  rw [BitfieldOperation.stored] at h
  split_ifs at h
  · have hword := op.encoding.limits_word
    have hy := Option.some.inj h
    omega
  · exact BitfieldEncoding.settle_range h

theorem output_eq {op : BitfieldOperation} {v y : ℤ}
    (hv : op.encoding.lo ≤ v ∧ v ≤ op.encoding.hi) (hy : op.encoding.lo ≤ y ∧ y ≤ op.encoding.hi) :
    op.encoding.toValue (if op.opType = .set then asU64 v else asU64 y) = op.output v y := by
  rw [BitfieldOperation.output, ← apply_ite asU64, BitfieldEncoding.toValue_asU64]
  split_ifs
  · exact hv
  · exact hy

theorem bitfieldOpCalc_eq {op : BitfieldOperation} (hop : op.opType ≠ .get) {v : ℤ}
    (hv : op.encoding.lo ≤ v ∧ v ≤ op.encoding.hi) :
    bitfieldOpCalc op (asU64 v) =
      match op.stored v with
      | some y => (some (op.output v y), asU64 y, false)
      | none => (none, asU64 v, true) := by
  by_cases hmis : op.Missaturates
  · have hplus := signedBitfieldPlus_missaturates hmis
    have hword := op.encoding.limits_word
    have hout := output_eq hv ⟨hword.2.1, le_refl op.encoding.hi⟩
    rw [BitfieldOperation.stored, if_pos hmis]
    obtain ⟨htype, hsigned, hsat, -⟩ := hmis
    rw [htype, if_pos rfl] at hout
    rw [hsat] at hplus
    unfold bitfieldOpCalc
    simp [htype, hsat, hsigned, hplus, hout]
  · rw [BitfieldOperation.stored, if_neg hmis]
    unfold bitfieldOpCalc
    rw [if_neg hop]
    simp only [bitfieldPlus_eq hop hv hmis, BitfieldEncoding.plusResult]
    cases hsettle : op.encoding.settle op.overflow (op.input v) with
    | none =>
      have hfail := BitfieldEncoding.settle_none_iff.mp hsettle
      rw [if_pos ⟨hfail.1, decide_eq_true hfail.2⟩]
    | some y =>
      have hne : op.encoding.settle op.overflow (op.input v) ≠ none := by simp [hsettle]
      have hfail := mt BitfieldEncoding.settle_none_iff.mpr hne
      rw [if_neg (fun h => hfail ⟨h.1, of_decide_eq_true h.2⟩)]
      simp only [Option.getD_some, output_eq hv (BitfieldEncoding.settle_range hsettle)]

end Wedb.Bitfield
