import Mathlib.Data.Prod.Lex
import Wedb.Ordered.Comparator
import Wedb.Ordered.Float64

/-!
# The order of scores

Two numbers do not compare if one of them is not a number. Named scores are ranked downwards,
and equal ones by their names; scores that do not compare count as equal.
-/

namespace F64

def partialCmp (x y : F64) : Option Ordering :=
  if x.isNan || y.isNan then none else some (linearCmp x.order y.order)

variable {x y : F64}

theorem partialCmp_swap (x y : F64) :
    (y.partialCmp x).getD .eq = ((x.partialCmp y).getD .eq).swap := by
  rw [partialCmp, partialCmp, Bool.or_comm]
  split_ifs
  · rfl
  · exact linearCmp_swap x.order y.order

theorem partialCmp_eq_lt : (x.partialCmp y).getD .eq = .lt ↔ x.lt y = true := by
  rw [partialCmp, lt]
  cases hx : x.isNan <;> cases hy : y.isNan <;> simp [linearCmp_eq_lt]

theorem isLE_partialCmp (hx : x.isNan = false) (hy : y.isNan = false) :
    ((x.partialCmp y).getD .eq).isLE = true ↔ x.order ≤ y.order := by
  rw [partialCmp, hx, hy]
  exact isLE_linearCmp

theorem partialCmp_ne_eq :
    (x.partialCmp y).getD .eq ≠ .eq ↔ x.lt y = true ∨ y.lt x = true := by
  have hlt := @partialCmp_eq_lt x y
  have hgt := @partialCmp_eq_lt y x
  rw [partialCmp_swap, Ordering.swap_eq_lt] at hgt
  rw [← hlt, ← hgt]
  cases (x.partialCmp y).getD .eq <;> simp

end F64

universe u

variable {κ : Type u} [LinearOrder κ]

def rankCmp (a b : F64 × κ) : Ordering :=
  ((b.1.partialCmp a.1).getD .eq).then (linearCmp a.2 b.2)

def rankKey (a : F64 × κ) : ℤᵒᵈ ×ₗ κ := toLex (OrderDual.toDual a.1.order, a.2)

variable {a b : F64 × κ}

theorem rankKey_lt_iff : rankKey a < rankKey b ↔
    b.1.order < a.1.order ∨ a.1.order = b.1.order ∧ a.2 < b.2 := by
  rw [rankKey, rankKey, Prod.Lex.toLex_lt_toLex, OrderDual.toDual_lt_toDual, OrderDual.toDual_inj]

theorem rankKey_inj : rankKey a = rankKey b ↔ a.1.order = b.1.order ∧ a.2 = b.2 := by
  rw [rankKey, rankKey, toLex_inj, Prod.mk.injEq, OrderDual.toDual_inj]

theorem rankCmp_eq (ha : a.1.isNan = false) (hb : b.1.isNan = false) :
    rankCmp a b = linearCmp (rankKey a) (rankKey b) := by
  have hcmp : b.1.partialCmp a.1 = some (compareOfLessAndEq b.1.order a.1.order) := by
    rw [F64.partialCmp, ha, hb]
    rfl
  rw [rankCmp, hcmp, Option.getD_some]
  simp only [linearCmp, compareOfLessAndEq, rankKey_lt_iff, rankKey_inj]
  rcases lt_trichotomy b.1.order a.1.order with h | h | h
  · simp [h]
  · simp [h]
  · simp [h.not_gt, h.ne, h.ne']

theorem rankCmp_of_isNan (h : a.1.isNan = true ∨ b.1.isNan = true) :
    rankCmp a b = linearCmp a.2 b.2 := by
  have hcmp : b.1.partialCmp a.1 = none := by
    rw [F64.partialCmp]
    rcases h with h | h <;> simp [h]
  rw [rankCmp, hcmp]
  rfl
