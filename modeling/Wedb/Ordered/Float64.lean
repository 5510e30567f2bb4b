import Mathlib.Order.Basic
import Mathlib.Tactic.Ring
import Wedb.Ordered.ByteString

/-!
# Binary64 numbers

A number is its bit pattern: a sign bit above the magnitude of exponent and
fraction. Numbers compare as signed magnitudes, where the two zeros are equal and
what lies above infinity is not a number; the total order of bit patterns splits
each tie by putting the negative zero below the positive one.
-/

structure F64 where
  bits : UInt64
  deriving DecidableEq, Repr

namespace F64

def signMask : UInt64 := 0x8000000000000000

def zero : F64 := ⟨0⟩
def negZero : F64 := ⟨signMask⟩
def infinity : F64 := ⟨0x7FF0000000000000⟩
def negInfinity : F64 := ⟨0xFFF0000000000000⟩

def isNegative (a : F64) : Bool := decide (2 ^ 63 ≤ a.bits.toNat)

def magnitude (a : F64) : ℕ := a.bits.toNat % 2 ^ 63

def isNan (a : F64) : Bool := decide (0x7FF0000000000000 < a.magnitude)

def order (a : F64) : ℤ := if a.isNegative then -(a.magnitude : ℤ) else a.magnitude

def totalOrder (a : F64) : ℤ := if a.isNegative then -(a.magnitude : ℤ) - 1 else a.magnitude

def lt (a b : F64) : Bool := !a.isNan && !b.isNan && decide (a.order < b.order)

def le (a b : F64) : Bool := !a.isNan && !b.isNan && decide (a.order ≤ b.order)

def eq (a b : F64) : Bool := !a.isNan && !b.isNan && decide (a.order = b.order)

def add (a b : F64) : F64 :=
  ⟨UInt64.ofBitVec (Float.Model.UnpackedFloat.pack Float.Model.Format.binary64
    (Float.Model.UnpackedFloat.add Float.Model.Format.binary64
      (Float.Model.UnpackedFloat.unpack Float.Model.Format.binary64 a.bits.toBitVec)
      (Float.Model.UnpackedFloat.unpack Float.Model.Format.binary64 b.bits.toBitVec)))⟩

variable {a b : F64}

theorem lt_iff (ha : a.isNan = false) (hb : b.isNan = false) : a.lt b = true ↔ a.order < b.order := by
  simp [lt, ha, hb]

theorem le_iff (ha : a.isNan = false) (hb : b.isNan = false) : a.le b = true ↔ a.order ≤ b.order := by
  simp [le, ha, hb]

theorem eq_iff (ha : a.isNan = false) (hb : b.isNan = false) : a.eq b = true ↔ a.order = b.order := by
  simp [eq, ha, hb]

theorem eq_self (ha : a.isNan = false) : a.eq a = true := (eq_iff ha ha).mpr rfl

theorem lt_trans {c : F64} (hab : a.lt b = true) (hbc : b.lt c = true) : a.lt c = true := by
  simp only [lt, Bool.and_eq_true, Bool.not_eq_true', decide_eq_true_eq] at hab hbc ⊢
  exact ⟨⟨hab.1.1, hbc.1.2⟩, hab.2.trans hbc.2⟩

@[simp] theorem lt_irrefl (a : F64) : a.lt a = false := by simp [lt]

theorem magnitude_lt (a : F64) : a.magnitude < 2 ^ 63 := Nat.mod_lt _ (by decide)

theorem magnitude_of_isNegative (h : a.isNegative = true) :
    a.bits.toNat = 2 ^ 63 + a.magnitude := by
  rw [isNegative, decide_eq_true_eq] at h
  have hlt := a.bits.toNat_lt
  unfold magnitude
  omega

theorem magnitude_of_not_isNegative (h : ¬a.isNegative = true) : a.bits.toNat = a.magnitude := by
  rw [isNegative, decide_eq_true_eq, not_le] at h
  exact (Nat.mod_eq_of_lt h).symm

theorem ext_totalOrder (h : a.totalOrder = b.totalOrder) : a = b := by
  have hbits : a.bits.toNat = b.bits.toNat := by
    unfold totalOrder at h
    by_cases ha : a.isNegative = true <;> by_cases hb : b.isNegative = true
    · rw [if_pos ha, if_pos hb] at h
      rw [magnitude_of_isNegative ha, magnitude_of_isNegative hb]
      omega
    · rw [if_pos ha, if_neg hb] at h
      omega
    · rw [if_neg ha, if_pos hb] at h
      omega
    · rw [if_neg ha, if_neg hb] at h
      rw [magnitude_of_not_isNegative ha, magnitude_of_not_isNegative hb]
      omega
  cases a
  cases b
  exact congrArg F64.mk (UInt64.toNat_inj.mp hbits)

theorem totalOrder_lt_of_order_lt (h : a.order < b.order) : a.totalOrder < b.totalOrder := by
  unfold order at h
  unfold totalOrder
  by_cases ha : a.isNegative = true <;> by_cases hb : b.isNegative = true <;>
    simp only [ha, hb, if_true, if_false, Bool.false_eq_true] at h ⊢ <;> omega

theorem order_le_of_totalOrder_le (h : a.totalOrder ≤ b.totalOrder) : a.order ≤ b.order :=
  le_of_not_gt fun hlt => absurd (totalOrder_lt_of_order_lt hlt) (not_lt.mpr h)

theorem order_negZero : negZero.order = 0 := by decide

theorem order_zero : zero.order = 0 := by decide

theorem eq_or_zeros_of_order_eq (h : a.order = b.order) :
    a = b ∨ a = negZero ∧ b = zero ∨ a = zero ∧ b = negZero := by
  have hneg : ∀ {c : F64}, c.isNegative = true → c.magnitude = 0 → c = negZero := by
    intro c hc h0
    have hbits := magnitude_of_isNegative hc
    rw [h0] at hbits
    cases c
    exact congrArg F64.mk (UInt64.toNat_inj.mp hbits)
  have hpos : ∀ {c : F64}, ¬c.isNegative = true → c.magnitude = 0 → c = zero := by
    intro c hc h0
    have hbits := magnitude_of_not_isNegative hc
    rw [h0] at hbits
    cases c
    exact congrArg F64.mk (UInt64.toNat_inj.mp hbits)
  unfold order at h
  by_cases ha : a.isNegative = true <;> by_cases hb : b.isNegative = true
  · rw [if_pos ha, if_pos hb] at h
    refine Or.inl (ext_totalOrder ?_)
    rw [totalOrder, totalOrder, if_pos ha, if_pos hb]
    omega
  · rw [if_pos ha, if_neg hb] at h
    exact Or.inr (Or.inl ⟨hneg ha (by omega), hpos hb (by omega)⟩)
  · rw [if_neg ha, if_pos hb] at h
    exact Or.inr (Or.inr ⟨hpos ha (by omega), hneg hb (by omega)⟩)
  · rw [if_neg ha, if_neg hb] at h
    refine Or.inl (ext_totalOrder ?_)
    rw [totalOrder, totalOrder, if_neg ha, if_neg hb]
    omega

/-! ## Values -/

def unitsOf (m : ℕ) : ℕ :=
  if m / 2 ^ 52 = 0 then m % 2 ^ 52 else (2 ^ 52 + m % 2 ^ 52) * 2 ^ (m / 2 ^ 52 - 1)

/-- The value of a number in units of the least positive one; the infinities are beyond all
finite numbers. -/
def units (a : F64) : ℤ := if a.isNegative then -(unitsOf a.magnitude : ℤ) else unitsOf a.magnitude

theorem unitsOf_strictMono : StrictMono unitsOf := by
  refine strictMono_nat_of_lt_succ fun m => ?_
  have hsplit := Nat.div_add_mod m (2 ^ 52)
  have hfrac := Nat.mod_lt m (show 0 < 2 ^ 52 by decide)
  by_cases hcarry : m % 2 ^ 52 + 1 = 2 ^ 52
  · have hdiv : (m + 1) / 2 ^ 52 = m / 2 ^ 52 + 1 := by omega
    have hmod : (m + 1) % 2 ^ 52 = 0 := by omega
    rw [unitsOf, unitsOf, hdiv, hmod, if_neg (Nat.succ_ne_zero _), Nat.add_sub_cancel]
    by_cases hsub : m / 2 ^ 52 = 0
    · rw [if_pos hsub, hsub]
      omega
    · obtain ⟨e, he⟩ := Nat.exists_eq_succ_of_ne_zero hsub
      have hpos : 0 < 2 ^ e := Nat.two_pow_pos e
      rw [if_neg hsub, he, Nat.succ_eq_add_one, Nat.add_sub_cancel, pow_succ]
      have hlt : (2 ^ 52 + m % 2 ^ 52) * 2 ^ e < 2 ^ 53 * 2 ^ e :=
        Nat.mul_lt_mul_of_pos_right (by omega) hpos
      calc (2 ^ 52 + m % 2 ^ 52) * 2 ^ e < 2 ^ 53 * 2 ^ e := hlt
        _ = (2 ^ 52 + 0) * (2 ^ e * 2) := by ring
  · have hdiv : (m + 1) / 2 ^ 52 = m / 2 ^ 52 := by omega
    have hmod : (m + 1) % 2 ^ 52 = m % 2 ^ 52 + 1 := by omega
    rw [unitsOf, unitsOf, hdiv, hmod]
    by_cases hsub : m / 2 ^ 52 = 0
    · rw [if_pos hsub, if_pos hsub]
      omega
    · rw [if_neg hsub, if_neg hsub]
      exact Nat.mul_lt_mul_of_pos_right (by omega) (Nat.two_pow_pos _)

theorem order_lt_iff_units : a.order < b.order ↔ a.units < b.units := by
  have hzero : unitsOf 0 = 0 := by decide
  have hmono := unitsOf_strictMono.lt_iff_lt (a := a.magnitude) (b := b.magnitude)
  have hback := unitsOf_strictMono.lt_iff_lt (a := b.magnitude) (b := a.magnitude)
  have hposa := unitsOf_strictMono.lt_iff_lt (a := 0) (b := a.magnitude)
  have hposb := unitsOf_strictMono.lt_iff_lt (a := 0) (b := b.magnitude)
  rw [hzero] at hposa hposb
  rw [order, order, units, units]
  by_cases ha : a.isNegative = true <;> by_cases hb : b.isNegative = true <;>
    simp only [ha, hb, if_true, if_false, Bool.false_eq_true] <;> omega

/-- The total order of numbers: the order of values, with the negative zero below the positive
one. -/
def IsBelow (a b : F64) : Prop := a.units < b.units ∨ a = negZero ∧ b = zero

theorem isBelow_iff : a.IsBelow b ↔ a.totalOrder < b.totalOrder := by
  rw [IsBelow, ← order_lt_iff_units]
  constructor
  · rintro (h | ⟨rfl, rfl⟩)
    · exact totalOrder_lt_of_order_lt h
    · decide
  · intro h
    rcases (order_le_of_totalOrder_le h.le).lt_or_eq with hlt | heq
    · exact Or.inl hlt
    · rcases eq_or_zeros_of_order_eq heq with rfl | hzeros | ⟨rfl, rfl⟩
      · exact absurd h (Int.lt_irrefl _)
      · exact Or.inr hzeros
      · exact absurd h (by decide)

/-! ## The two zeros as bounds -/

def floorZero (a : F64) : F64 := if a.eq .zero then .negZero else a

def ceilZero (a : F64) : F64 := if a.eq .zero then .zero else a

theorem order_eq_zero_of_eq (h : a.eq .zero = true) : a.order = 0 := by
  simp only [eq, Bool.and_eq_true, decide_eq_true_eq] at h
  exact h.2

theorem eq_zero_of_order (ha : a.isNan = false) (h : a.order = 0) : a.eq .zero = true :=
  (eq_iff ha (by decide)).mpr h

theorem order_floorZero (a : F64) : a.floorZero.order = a.order := by
  rw [floorZero]
  split_ifs with h
  · rw [order_negZero, order_eq_zero_of_eq h]
  · rfl

theorem order_ceilZero (a : F64) : a.ceilZero.order = a.order := by
  rw [ceilZero]
  split_ifs with h
  · rw [order_zero, order_eq_zero_of_eq h]
  · rfl

theorem totalOrder_floorZero_le (ha : a.isNan = false) (h : a.order ≤ b.order) :
    a.floorZero.totalOrder ≤ b.totalOrder := by
  rcases h.lt_or_eq with hlt | heq
  · exact (totalOrder_lt_of_order_lt (by rwa [order_floorZero])).le
  · rw [← order_floorZero a] at heq
    rcases eq_or_zeros_of_order_eq heq with he | ⟨h1, h2⟩ | ⟨h1, -⟩
    · rw [he]
    · rw [h1, h2]
      decide
    · have hzero : a.order = 0 := by rw [← order_floorZero, h1, order_zero]
      rw [floorZero, if_pos (eq_zero_of_order ha hzero)] at h1
      cases h1

theorem totalOrder_le_ceilZero (hb : b.isNan = false) (h : a.order ≤ b.order) :
    a.totalOrder ≤ b.ceilZero.totalOrder := by
  rcases h.lt_or_eq with hlt | heq
  · exact (totalOrder_lt_of_order_lt (by rwa [order_ceilZero])).le
  · rw [← order_ceilZero b] at heq
    rcases eq_or_zeros_of_order_eq heq with he | ⟨h1, h2⟩ | ⟨-, h2⟩
    · rw [he]
    · rw [h1, h2]
      decide
    · have hzero : b.order = 0 := by rw [← order_ceilZero, h2, order_negZero]
      rw [ceilZero, if_pos (eq_zero_of_order hb hzero)] at h2
      cases h2

/-! ## Integers as doubles -/

def halfEven (n d : ℕ) : ℕ :=
  n / d + if d < 2 * (n % d) ∨ 2 * (n % d) = d ∧ n / d % 2 = 1 then 1 else 0

def significand (n e : ℕ) : ℕ := if e ≤ 52 then n * 2 ^ (52 - e) else halfEven n (2 ^ (e - 52))

/-- The bit pattern of an integer; a significand that is rounded up to 54 bits carries into the
exponent. -/
def placeOf (n : ℕ) : ℕ := if n = 0 then 0 else (1022 + n.log2) * 2 ^ 52 + significand n n.log2

def ofUInt64 (n : UInt64) : F64 := ⟨UInt64.ofNat (placeOf n.toNat)⟩

theorem halfEven_mono {m n : ℕ} (d : ℕ) (h : m ≤ n) : halfEven m d ≤ halfEven n d := by
  have hdiv : m / d ≤ n / d := Nat.div_le_div_right h
  rcases hdiv.lt_or_eq with hlt | heq
  · rw [halfEven, halfEven]
    split_ifs <;> omega
  · have hm := Nat.div_add_mod m d
    have hn := Nat.div_add_mod n d
    rw [heq] at hm
    rw [halfEven, halfEven, heq]
    split_ifs <;> omega

theorem halfEven_mul {d : ℕ} (hd : 0 < d) (q : ℕ) : halfEven (q * d) d = q := by
  rw [halfEven, Nat.mul_mod_left, Nat.mul_div_cancel _ hd, if_neg (by omega), add_zero]

theorem significand_mono {m n : ℕ} (e : ℕ) (h : m ≤ n) : significand m e ≤ significand n e := by
  rw [significand, significand]
  split_ifs
  · exact Nat.mul_le_mul_right _ h
  · exact halfEven_mono _ h

theorem significand_two_pow (e : ℕ) : significand (2 ^ e) e = 2 ^ 52 ∧
    significand (2 ^ (e + 1)) e = 2 ^ 53 := by
  rw [significand, significand]
  split_ifs with he
  · constructor
    · rw [← pow_add, Nat.add_sub_cancel' he]
    · rw [← pow_add, show e + 1 + (52 - e) = 53 by omega]
  · have hpos := Nat.two_pow_pos (e - 52)
    constructor
    · rw [show 2 ^ e = 2 ^ 52 * 2 ^ (e - 52) by rw [← pow_add, Nat.add_sub_cancel' (by omega)],
        halfEven_mul hpos]
    · rw [show 2 ^ (e + 1) = 2 ^ 53 * 2 ^ (e - 52) by rw [← pow_add]; congr 1; omega,
        halfEven_mul hpos]

theorem significand_bounds {n : ℕ} (hn : n ≠ 0) :
    2 ^ 52 ≤ significand n n.log2 ∧ significand n n.log2 ≤ 2 ^ 53 := by
  obtain ⟨hlow, hhigh⟩ := significand_two_pow n.log2
  constructor
  · rw [← hlow]
    exact significand_mono _ (Nat.log2_self_le hn)
  · rw [← hhigh]
    exact significand_mono _ Nat.lt_log2_self.le

theorem placeOf_mono {m n : ℕ} (h : m ≤ n) : placeOf m ≤ placeOf n := by
  by_cases hm : m = 0
  · rw [placeOf, if_pos hm]
    exact Nat.zero_le _
  · have hn : n ≠ 0 := by omega
    have hlog : m.log2 ≤ n.log2 := (Nat.le_log2 hn).mpr ((Nat.log2_self_le hm).trans h)
    rw [placeOf, if_neg hm, placeOf, if_neg hn]
    rcases hlog.lt_or_eq with hlt | heq
    · have hupper := (significand_bounds hm).2
      have hlower := (significand_bounds hn).1
      omega
    · rw [heq]
      exact Nat.add_le_add_left (significand_mono _ h) _

theorem placeOf_lt {m n : ℕ} (h : m < n) (hn : n ≤ 2 ^ 53) : placeOf m < placeOf n := by
  have hn0 : n ≠ 0 := by omega
  have hlower := (significand_bounds hn0).1
  by_cases hm : m = 0
  · rw [placeOf, if_pos hm, placeOf, if_neg hn0]
    omega
  · have hlog : m.log2 ≤ n.log2 := (Nat.le_log2 hn0).mpr ((Nat.log2_self_le hm).trans h.le)
    have hm52 : m.log2 ≤ 52 := by
      have hlt : m.log2 < 53 := (Nat.log2_lt hm).mpr (h.trans_le hn)
      omega
    rw [placeOf, if_neg hm, placeOf, if_neg hn0]
    rcases hlog.lt_or_eq with hlt | heq
    · have hexact : significand m m.log2 < 2 ^ 53 := by
        rw [significand, if_pos hm52, show (2 : ℕ) ^ 53 = 2 ^ (m.log2 + 1) * 2 ^ (52 - m.log2) by
          rw [← pow_add]; congr 1; omega]
        exact Nat.mul_lt_mul_of_pos_right Nat.lt_log2_self (Nat.two_pow_pos _)
      omega
    · rw [← heq, significand, significand, if_pos hm52, if_pos hm52]
      exact Nat.add_lt_add_left (Nat.mul_lt_mul_of_pos_right h (Nat.two_pow_pos _)) _

theorem placeOf_lt_infinity {n : ℕ} (hn : n < 2 ^ 64) : placeOf n < 0x7FF0000000000000 := by
  by_cases h0 : n = 0
  · rw [placeOf, if_pos h0]
    norm_num
  · have hlog : n.log2 < 64 := (Nat.log2_lt h0).mpr hn
    have hupper := (significand_bounds h0).2
    rw [placeOf, if_neg h0]
    omega

theorem toNat_ofUInt64 (n : UInt64) : (ofUInt64 n).bits.toNat = placeOf n.toNat := by
  have hlt := placeOf_lt_infinity n.toNat_lt
  exact UInt64.toNat_ofNat_of_lt' (hlt.trans (by norm_num))

theorem order_ofUInt64 (n : UInt64) :
    (ofUInt64 n).order = placeOf n.toNat ∧ (ofUInt64 n).isNan = false := by
  have hlt := placeOf_lt_infinity n.toNat_lt
  have hbits := toNat_ofUInt64 n
  have hneg : ¬(ofUInt64 n).isNegative = true := by
    rw [isNegative, decide_eq_true_eq, hbits]
    omega
  have hmag := magnitude_of_not_isNegative hneg
  constructor
  · rw [order, if_neg hneg, ← hmag, hbits]
  · rw [isNan, ← hmag, hbits]
    exact decide_eq_false (by omega)

end F64
