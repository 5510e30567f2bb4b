import Mathlib.Data.UInt
import Mathlib.Tactic

/-!
# Saturating 64-bit arithmetic

Addition that stops at the greatest word and subtraction that stops at zero.
Away from the ends both are the operations on naturals. A word read as a signed
number is itself below the sign bit.
-/

namespace UInt64

def maxVal : UInt64 := 0xFFFFFFFFFFFFFFFF

def satAdd (a b : UInt64) : UInt64 := if a.toNat + b.toNat < 2 ^ 64 then a + b else maxVal

def satSub (a b : UInt64) : UInt64 := if b ≤ a then a - b else 0

def satMul (a b : UInt64) : UInt64 := if a.toNat * b.toNat < 2 ^ 64 then a * b else maxVal

def asI64 (a : UInt64) : ℤ := if a.toNat < 2 ^ 63 then a.toNat else a.toNat - 2 ^ 64

theorem asI64_of_lt {a : UInt64} (h : a.toNat < 2 ^ 63) : a.asI64 = a.toNat := if_pos h

theorem ofInt_natCast (n : ℕ) : UInt64.ofInt (n : ℤ) = UInt64.ofNat n := by
  have h : ((n : ℤ) % 2 ^ 64).toNat = n % 2 ^ 64 := by omega
  rw [UInt64.ofInt, h, UInt64.ofNat_mod_size]

theorem toNat_satAdd {a b : UInt64} (h : a.toNat + b.toNat < 2 ^ 64) :
    (satAdd a b).toNat = a.toNat + b.toNat := by
  rw [satAdd, if_pos h, UInt64.toNat_add, Nat.mod_eq_of_lt h]

theorem toNat_satAdd_eq_min (a b : UInt64) :
    (satAdd a b).toNat = min (a.toNat + b.toNat) (2 ^ 64 - 1) := by
  have ha := a.toNat_lt
  rw [satAdd]
  by_cases h : a.toNat + b.toNat < 2 ^ 64
  · rw [if_pos h, UInt64.toNat_add, Nat.mod_eq_of_lt h]
    omega
  · rw [if_neg h]
    show 2 ^ 64 - 1 = _
    omega

theorem toNat_satMul_eq_min (a b : UInt64) :
    (a.satMul b).toNat = min (a.toNat * b.toNat) (2 ^ 64 - 1) := by
  rw [satMul]
  by_cases h : a.toNat * b.toNat < 2 ^ 64
  · rw [if_pos h, UInt64.toNat_mul, Nat.mod_eq_of_lt h]
    omega
  · rw [if_neg h]
    show 2 ^ 64 - 1 = _
    omega

theorem satAdd_one_ne_zero (a : UInt64) : a.satAdd 1 ≠ 0 := by
  intro h
  have hnat := toNat_satAdd_eq_min a 1
  rw [h] at hnat
  change 0 = min (a.toNat + 1) (2 ^ 64 - 1) at hnat
  omega

theorem toNat_satSub (a b : UInt64) : (satSub a b).toNat = a.toNat - b.toNat := by
  unfold satSub
  split_ifs with h
  · rw [UInt64.toNat_sub_of_le a b h]
  · have hlt : a.toNat < b.toNat := by
      rw [UInt64.le_iff_toNat_le] at h
      omega
    rw [Nat.sub_eq_zero_of_le hlt.le]
    rfl

theorem toNat_satSub_ofNat {a : UInt64} {n : ℕ} (hn : n < 2 ^ 64) :
    (a.satSub (UInt64.ofNat n)).toNat = a.toNat - n := by
  rw [toNat_satSub, UInt64.toNat_ofNat_of_lt' hn]

theorem toNat_maxVal : maxVal.toNat = 2 ^ 64 - 1 := rfl

end UInt64

def usizeMax : ℕ := 2 ^ 64 - 1
