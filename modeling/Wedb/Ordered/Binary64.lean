import Mathlib.Data.Int.Log
import Mathlib.Data.Rat.Floor
import Mathlib.Tactic
import Wedb.Ordered.ExactNum
import Wedb.Ordered.Float64

/-!
# Rounding to double precision

Positive rationals rounded to the nearest number with a 53-bit significand, ties
to even, which is what one operation on normal doubles computes. Rounding keeps
the order, so a chain of roundings, scalings and truncations is monotone.
-/

namespace Rounding

def roundEven (t : ℚ) : ℤ :=
  if 1 < 2 * (t - ⌊t⌋) ∨ 2 * (t - ⌊t⌋) = 1 ∧ ⌊t⌋ % 2 = 1 then ⌊t⌋ + 1 else ⌊t⌋

def ulp (t : ℚ) : ℚ := 2 ^ (Int.log 2 t - 52)

def roundDouble (t : ℚ) : ℚ := if t ≤ 0 then 0 else roundEven (t / ulp t) * ulp t

theorem floor_le_roundEven (t : ℚ) : ⌊t⌋ ≤ roundEven t := by
  unfold roundEven
  split_ifs <;> omega

theorem roundEven_le_floor_add_one (t : ℚ) : roundEven t ≤ ⌊t⌋ + 1 := by
  unfold roundEven
  split_ifs <;> omega

theorem roundEven_mono {a b : ℚ} (h : a ≤ b) : roundEven a ≤ roundEven b := by
  rcases (Int.floor_mono h).lt_or_eq with hlt | heq
  · exact (roundEven_le_floor_add_one a).trans
      ((Int.add_one_le_iff.mpr hlt).trans (floor_le_roundEven b))
  · by_cases hup : 1 < 2 * (a - ⌊a⌋) ∨ 2 * (a - ⌊a⌋) = 1 ∧ ⌊a⌋ % 2 = 1
    · have hb : 1 < 2 * (b - ⌊b⌋) ∨ 2 * (b - ⌊b⌋) = 1 ∧ ⌊b⌋ % 2 = 1 := by
        rw [← heq]
        rcases hup with hup | ⟨hhalf, hodd⟩
        · exact Or.inl (by linarith)
        · rcases h.lt_or_eq with hab | rfl
          · exact Or.inl (by linarith)
          · exact Or.inr ⟨hhalf, hodd⟩
      rw [roundEven, if_pos hup, roundEven, if_pos hb, heq]
    · rw [roundEven, if_neg hup, heq]
      exact floor_le_roundEven b

theorem roundEven_intCast (n : ℤ) : roundEven n = n := by
  simp [roundEven]

theorem ulp_pos (t : ℚ) : 0 < ulp t := zpow_pos (by norm_num) _

theorem roundDouble_nonneg (t : ℚ) : 0 ≤ roundDouble t := by
  unfold roundDouble
  split_ifs with h
  · exact le_rfl
  · have hdiv : 0 ≤ ⌊t / ulp t⌋ := Int.floor_nonneg.mpr (div_nonneg (not_le.mp h).le (ulp_pos t).le)
    have hround : (0 : ℚ) ≤ roundEven (t / ulp t) :=
      Int.cast_nonneg_iff.mpr (hdiv.trans (floor_le_roundEven _))
    exact mul_nonneg hround (ulp_pos t).le

theorem roundDouble_le_zpow {t : ℚ} (ht : 0 < t) :
    roundDouble t ≤ 2 ^ (Int.log 2 t + 1) := by
  have hlt : t < 2 ^ (Int.log 2 t + 1) := Int.lt_zpow_succ_log_self (by norm_num) t
  have hsplit : (2 : ℚ) ^ (Int.log 2 t + 1) = (2 ^ 53 : ℤ) * ulp t := by
    rw [ulp, show Int.log 2 t + 1 = 53 + (Int.log 2 t - 52) by ring, zpow_add₀ (by norm_num)]
    norm_num
  have hround : roundEven (t / ulp t) ≤ 2 ^ 53 := by
    have hle : t / ulp t ≤ (2 ^ 53 : ℤ) := by
      rw [div_le_iff₀ (ulp_pos t), ← hsplit]
      exact hlt.le
    simpa only [roundEven_intCast] using roundEven_mono hle
  rw [roundDouble, if_neg (not_le.mpr ht), hsplit]
  exact mul_le_mul_of_nonneg_right (by exact_mod_cast hround) (ulp_pos t).le

theorem zpow_le_roundDouble {t : ℚ} (ht : 0 < t) : 2 ^ Int.log 2 t ≤ roundDouble t := by
  have hle : 2 ^ Int.log 2 t ≤ t := Int.zpow_log_le_self (by norm_num) ht
  have hsplit : (2 : ℚ) ^ Int.log 2 t = (2 ^ 52 : ℤ) * ulp t := by
    rw [ulp, show Int.log 2 t = 52 + (Int.log 2 t - 52) by ring, zpow_add₀ (by norm_num)]
    norm_num
  have hround : 2 ^ 52 ≤ roundEven (t / ulp t) := by
    have hdiv : ((2 ^ 52 : ℤ) : ℚ) ≤ t / ulp t := by
      rw [le_div_iff₀ (ulp_pos t), ← hsplit]
      exact hle
    simpa only [roundEven_intCast] using roundEven_mono hdiv
  rw [roundDouble, if_neg (not_le.mpr ht), hsplit]
  exact mul_le_mul_of_nonneg_right (by exact_mod_cast hround) (ulp_pos t).le

theorem roundDouble_mono {a b : ℚ} (h : a ≤ b) : roundDouble a ≤ roundDouble b := by
  by_cases ha : a ≤ 0
  · rw [roundDouble, if_pos ha]
    exact roundDouble_nonneg b
  · have hapos := not_le.mp ha
    have hbpos := hapos.trans_le h
    rcases (Int.log_mono_right hapos h : Int.log 2 a ≤ Int.log 2 b).lt_or_eq with hlt | heq
    · calc roundDouble a ≤ 2 ^ (Int.log 2 a + 1) := roundDouble_le_zpow hapos
        _ ≤ 2 ^ Int.log 2 b := zpow_le_zpow_right₀ (by norm_num) hlt
        _ ≤ roundDouble b := zpow_le_roundDouble hbpos
    · have hulp : ulp a = ulp b := by rw [ulp, ulp, heq]
      rw [roundDouble, if_neg ha, roundDouble, if_neg (not_le.mpr hbpos), hulp]
      refine mul_le_mul_of_nonneg_right ?_ (ulp_pos b).le
      exact_mod_cast roundEven_mono (div_le_div_of_nonneg_right h (ulp_pos b).le)

/-- A rounding that keeps the order of what is not negative, and the integers of 53 bits. -/
structure Rounds (rd : ℚ → ℚ) : Prop where
  mono : ∀ {x y : ℚ}, 0 ≤ x → x ≤ y → rd x ≤ rd y
  natCast : ∀ {n : ℕ}, n < 2 ^ 53 → rd n = n

theorem rounds_id : Rounds id := ⟨fun _ h => h, fun _ => rfl⟩

end Rounding

/-!
## Arithmetic of doubles by value

A double is taken by the rational number that it stands for, without the sign of its zero.
Every operation gives the exact result rounded to 53 significant bits, ties to even, with
gradual underflow, and an infinity from the power of two on that has no double.
-/

namespace Binary64

def unitExponent (x : ℚ) : ℤ := max (Int.log 2 |x| - 52) (-1074)

def nearest (x : ℚ) : ℚ := Rounding.roundEven (x / 2 ^ unitExponent x) * 2 ^ unitExponent x

def signedInfinity (negative : Bool) : ExactNum ℚ := if negative then .negInf else .posInf

def ofRat (x : ℚ) : ExactNum ℚ :=
  if 2 ^ 1024 ≤ |nearest x| then signedInfinity (nearest x < 0) else .fin (nearest x)

def isNegative (x : ExactNum ℚ) : Bool := x.lt (.fin 0)

def add : ExactNum ℚ → ExactNum ℚ → ExactNum ℚ
  | .fin v, .fin w => ofRat (v + w)
  | x, y => x.add y

def mul : ExactNum ℚ → ExactNum ℚ → ExactNum ℚ
  | .fin v, .fin w => ofRat (v * w)
  | .nan, _ => .nan
  | _, .nan => .nan
  | x, y =>
    if x = .fin 0 ∨ y = .fin 0 then .nan else signedInfinity (isNegative x != isNegative y)

def sub : ExactNum ℚ → ExactNum ℚ → ExactNum ℚ
  | .fin v, .fin w => ofRat (v - w)
  | x, y => x.sub y

def div : ExactNum ℚ → ExactNum ℚ → ExactNum ℚ
  | .fin v, .fin w => if w = 0 then (ExactNum.fin v).div (.fin w) else ofRat (v / w)
  | x, y => x.div y

theorem nearest_of_eq_mul {x : ℚ} {m : ℤ} (h : x = m * 2 ^ unitExponent x) : nearest x = x := by
  have hpos : (0 : ℚ) < 2 ^ unitExponent x := zpow_pos (by norm_num) _
  have hdiv : x / 2 ^ unitExponent x = m := by rw [div_eq_iff hpos.ne', ← h]
  rw [nearest, hdiv, Rounding.roundEven_intCast, ← h]

theorem unitExponent_nonpos {n : ℤ} (h : |n| < 2 ^ 53) : unitExponent n ≤ 0 := by
  have hlog : Int.log 2 |(n : ℚ)| < 53 := by
    by_cases hzero : n = 0
    · simp [hzero]
    · have habs : (0 : ℚ) < |(n : ℚ)| := by positivity
      rw [← Int.lt_zpow_iff_log_lt (by norm_num) habs]
      exact_mod_cast h
  rw [unitExponent]
  omega

theorem nearest_intCast {n : ℤ} (h : |n| < 2 ^ 53) : nearest n = n := by
  refine @nearest_of_eq_mul _ (n * 2 ^ (-unitExponent n).toNat) ?_
  have hcancel : (2 : ℚ) ^ (-unitExponent n).toNat * 2 ^ unitExponent n = 1 := by
    rw [← zpow_natCast, Int.toNat_of_nonneg (by have := unitExponent_nonpos h; omega),
      ← zpow_add₀ (by norm_num), neg_add_cancel, zpow_zero]
  push_cast
  rw [mul_assoc, hcancel, mul_one]

theorem ofRat_intCast {n : ℤ} (h : |n| < 2 ^ 53) : ofRat n = .fin n := by
  have hlt : ¬(2 : ℚ) ^ 1024 ≤ |(n : ℚ)| := by
    rw [not_le]
    calc |(n : ℚ)| < 2 ^ 53 := by exact_mod_cast h
      _ ≤ 2 ^ 1024 := pow_le_pow_right₀ (by norm_num) (by norm_num)
  rw [ofRat, nearest_intCast h, if_neg hlt]

theorem lt_zpow_unitExponent {x : ℚ} (hx : 0 < x) : x < 2 ^ (unitExponent x + 53) := by
  have hlog : x < 2 ^ (Int.log 2 x + 1) := Int.lt_zpow_succ_log_self (by norm_num) x
  refine hlog.trans_le (zpow_le_zpow_right₀ (by norm_num) ?_)
  rw [unitExponent, abs_of_pos hx]
  omega

theorem nearest_le_zpow {x : ℚ} (hx : 0 < x) : nearest x ≤ 2 ^ (unitExponent x + 53) := by
  have hpos : (0 : ℚ) < 2 ^ unitExponent x := zpow_pos (by norm_num) _
  have hsplit : (2 : ℚ) ^ (unitExponent x + 53) = (2 ^ 53 : ℤ) * 2 ^ unitExponent x := by
    rw [add_comm, zpow_add₀ (by norm_num)]
    norm_num
  have hle : x / 2 ^ unitExponent x ≤ (2 ^ 53 : ℤ) := by
    rw [div_le_iff₀ hpos, ← hsplit]
    exact (lt_zpow_unitExponent hx).le
  have hround := Rounding.roundEven_mono hle
  rw [Rounding.roundEven_intCast] at hround
  rw [nearest, hsplit]
  exact mul_le_mul_of_nonneg_right (by exact_mod_cast hround) hpos.le

theorem zpow_le_nearest {x : ℚ} (hx : 0 < x) (hnormal : -1074 < unitExponent x) :
    2 ^ (unitExponent x + 52) ≤ nearest x := by
  have hpos : (0 : ℚ) < 2 ^ unitExponent x := zpow_pos (by norm_num) _
  have hlog : 2 ^ Int.log 2 x ≤ x := Int.zpow_log_le_self (by norm_num) hx
  have hunit : unitExponent x + 52 = Int.log 2 x := by
    rw [unitExponent, abs_of_pos hx] at hnormal ⊢
    omega
  have hsplit : (2 : ℚ) ^ (unitExponent x + 52) = (2 ^ 52 : ℤ) * 2 ^ unitExponent x := by
    rw [add_comm, zpow_add₀ (by norm_num)]
    norm_num
  have hle : ((2 ^ 52 : ℤ) : ℚ) ≤ x / 2 ^ unitExponent x := by
    rw [le_div_iff₀ hpos, ← hsplit, hunit]
    exact hlog
  have hround := Rounding.roundEven_mono hle
  rw [Rounding.roundEven_intCast] at hround
  rw [nearest, hsplit]
  exact mul_le_mul_of_nonneg_right (by exact_mod_cast hround) hpos.le

theorem nearest_pos {x : ℚ} (hx : 2 ^ (-1021 : ℤ) ≤ x) : 0 < nearest x := by
  have hpos : (0 : ℚ) < x := (zpow_pos (by norm_num) _).trans_le hx
  have hlog : -1021 ≤ Int.log 2 x := by
    have h := Int.log_mono_right (b := 2) (zpow_pos (by norm_num) _) hx
    have hone := Int.log_zpow (R := ℚ) (b := 2) (by norm_num) (-1021)
    rw [Nat.cast_ofNat] at hone
    rwa [hone] at h
  have hnormal : -1074 < unitExponent x := by
    rw [unitExponent, abs_of_pos hpos]
    omega
  exact (zpow_pos (by norm_num) _).trans_le (zpow_le_nearest hpos hnormal)

theorem nearest_zero : nearest 0 = 0 := by
  have h := @nearest_intCast 0 (by norm_num)
  rwa [Int.cast_zero] at h

theorem nearest_nonneg {x : ℚ} (hx : 0 ≤ x) : 0 ≤ nearest x := by
  have hpos : (0 : ℚ) < 2 ^ unitExponent x := zpow_pos (by norm_num) _
  have hle : ((0 : ℤ) : ℚ) ≤ x / 2 ^ unitExponent x := by
    rw [Int.cast_zero]
    exact div_nonneg hx hpos.le
  have hround := Rounding.roundEven_mono hle
  rw [Rounding.roundEven_intCast] at hround
  exact mul_nonneg (by exact_mod_cast hround) hpos.le

theorem nearest_mono {x y : ℚ} (hx : 0 ≤ x) (h : x ≤ y) : nearest x ≤ nearest y := by
  rcases hx.lt_or_eq with hxpos | hzero
  · have hypos := hxpos.trans_le h
    have hlog : Int.log 2 x ≤ Int.log 2 y := Int.log_mono_right hxpos h
    have hunit : unitExponent x ≤ unitExponent y := by
      rw [unitExponent, unitExponent, abs_of_pos hxpos, abs_of_pos hypos]
      omega
    rcases hunit.lt_or_eq with hlt | heq
    · have hnormal : -1074 < unitExponent y := by
        refine lt_of_le_of_lt ?_ hlt
        exact le_max_right _ _
      calc nearest x ≤ 2 ^ (unitExponent x + 53) := nearest_le_zpow hxpos
        _ ≤ 2 ^ (unitExponent y + 52) := zpow_le_zpow_right₀ (by norm_num) (by omega)
        _ ≤ nearest y := zpow_le_nearest hypos hnormal
    · have hpos : (0 : ℚ) < 2 ^ unitExponent y := zpow_pos (by norm_num) _
      rw [nearest, nearest, heq]
      refine mul_le_mul_of_nonneg_right ?_ hpos.le
      exact_mod_cast Rounding.roundEven_mono (div_le_div_of_nonneg_right h hpos.le)
  · rw [← hzero, nearest_zero]
    exact nearest_nonneg (hzero ▸ h)

theorem rounds_nearest : Rounding.Rounds nearest where
  mono := nearest_mono
  natCast := by
    intro n hn
    have h := @nearest_intCast n (by rw [Nat.abs_cast]; exact_mod_cast hn)
    rwa [Int.cast_natCast] at h

end Binary64

namespace F64

def value (a : F64) : ExactNum ℚ :=
  let exponent : ℕ := a.magnitude / 2 ^ 52
  let fraction : ℕ := a.magnitude % 2 ^ 52
  if a.isNan then .nan
  else if exponent = 2047 then Binary64.signedInfinity a.isNegative
  else
    let size : ℚ := if exponent = 0 then fraction * 2 ^ (-1074 : ℤ)
      else ((2 ^ 52 + fraction : ℕ) : ℚ) * 2 ^ ((exponent : ℤ) - 1075)
    .fin (if a.isNegative then -size else size)

def ofValue (x : ℚ) : F64 :=
  let significand : ℕ := (|x| / 2 ^ Binary64.unitExponent x).floor.toNat
  let size : ℕ := if significand < 2 ^ 52 then significand
    else (Binary64.unitExponent x + 1075).toNat * 2 ^ 52 + (significand - 2 ^ 52)
  ⟨UInt64.ofNat (if x < 0 then 2 ^ 63 + size else size)⟩

def ofExact : ExactNum ℚ → F64
  | .nan => ⟨0x7FF8000000000000⟩
  | .negInf => .negInfinity
  | .posInf => .infinity
  | .fin x => ofValue x

def toUInt64 (a : F64) : UInt64 :=
  match a.value with
  | .nan | .negInf => 0
  | .posInf => UInt64.ofNat (2 ^ 64 - 1)
  | .fin x => UInt64.ofNat (min ⌊x⌋₊ (2 ^ 64 - 1))

theorem isNan_ofValue {x : ℚ} (h : |x| < 2 ^ 1024) : (ofValue x).isNan = false := by
  have hpow : (0 : ℚ) < 2 ^ Binary64.unitExponent x := zpow_pos (by norm_num) _
  have hsig : (|x| / 2 ^ Binary64.unitExponent x).floor.toNat < 2 ^ 53 := by
    have hlt : |x| / 2 ^ Binary64.unitExponent x < (2 ^ 53 : ℤ) := by
      rcases (abs_nonneg x).eq_or_lt with hzero | hpos
      · rw [← hzero, zero_div]
        norm_num
      · have hbound := Binary64.lt_zpow_unitExponent hpos
        have hunit : Binary64.unitExponent |x| = Binary64.unitExponent x := by
          rw [Binary64.unitExponent, Binary64.unitExponent, abs_abs]
        rw [hunit, add_comm, zpow_add₀ (by norm_num)] at hbound
        rw [div_lt_iff₀ hpow]
        exact_mod_cast hbound
    have hfloor : (|x| / 2 ^ Binary64.unitExponent x).floor < 2 ^ 53 := Int.floor_lt.mpr hlt
    omega
  have hexp : Binary64.unitExponent x ≤ 971 := by
    rw [Binary64.unitExponent]
    rcases (abs_nonneg x).eq_or_lt with hzero | hpos
    · rw [← hzero, Int.log_zero_right]
      omega
    · have hlog : Int.log 2 |x| < 1024 := by
        rw [← Int.lt_zpow_iff_log_lt (by norm_num) hpos]
        exact_mod_cast h
      omega
  have hsize : ∀ size : ℕ, size ≤ 0x7FF0000000000000 → ∀ negative : Prop, [Decidable negative] →
      (F64.mk (UInt64.ofNat (if negative then 2 ^ 63 + size else size))).isNan = false := by
    intro size hle negative hdec
    rw [isNan, decide_eq_false_iff_not, magnitude]
    split_ifs
    · have hlt : 2 ^ 63 + size < 2 ^ 64 := by omega
      rw [UInt64.toNat_ofNat_of_lt' hlt]
      omega
    · have hlt : size < 2 ^ 64 := by omega
      rw [UInt64.toNat_ofNat_of_lt' hlt]
      omega
  rw [ofValue]
  refine hsize _ ?_ _
  split_ifs
  · omega
  · omega

theorem isNan_ofExact_ofRat (x : ℚ) : (ofExact (Binary64.ofRat x)).isNan = false := by
  rw [Binary64.ofRat]
  split_ifs with hlarge
  · rw [Binary64.signedInfinity]
    split_ifs
    · rfl
    · rfl
  · exact isNan_ofValue (not_le.mp hlarge)

theorem isNan_ofExact_div {x : ExactNum ℚ} {y : ℚ} (hx : x.isNan = false) (hy : 0 < y) :
    (ofExact (Binary64.div x (.fin y))).isNan = false := by
  cases x with
  | nan => cases hx
  | negInf =>
    have hdiv : Binary64.div .negInf (.fin y) = if y < 0 then .posInf else .negInf := rfl
    rw [hdiv, if_neg (not_lt.mpr hy.le)]
    rfl
  | fin v =>
    rw [Binary64.div, if_neg hy.ne']
    exact isNan_ofExact_ofRat _
  | posInf =>
    have hdiv : Binary64.div .posInf (.fin y) = if y < 0 then .negInf else .posInf := rfl
    rw [hdiv, if_neg (not_lt.mpr hy.le)]
    rfl

end F64
