import Mathlib.Data.Nat.Bitwise
import Mathlib.Tactic
import Wedb.Ordered.ByteString

/-!
# Bits of a byte string

A byte string read from the low bit of its first byte on, with zeros after its
end. A field of a fixed width packed into the string is known by its bits.
-/

section

namespace BitStream

def bit (bytes : List UInt8) (n : ℕ) : Bool := (bytes.getD (n / 8) 0).toNat.testBit (n % 8)

variable {bytes : List UInt8} {n k j : ℕ}

theorem testBit_byte (b : UInt8) (hj : 8 ≤ j) : b.toNat.testBit j = false :=
  Nat.testBit_lt_two_pow (b.toNat_lt.trans_le (Nat.pow_le_pow_right two_pos hj))

theorem testBit_shift (bytes : List UInt8) (byte : ℕ) (hk : k < 16) :
    bit bytes (8 * byte + k) = ((bytes.getD byte 0).toNat.testBit k ||
      (decide (8 ≤ k) && (bytes.getD (byte + 1) 0).toNat.testBit (k - 8))) := by
  rw [bit]
  by_cases h8 : 8 ≤ k
  · have hdiv : (8 * byte + k) / 8 = byte + 1 := by omega
    have hmod : (8 * byte + k) % 8 = k - 8 := by omega
    rw [hdiv, hmod, testBit_byte _ h8]
    simp [h8]
  · have hdiv : (8 * byte + k) / 8 = byte := by omega
    have hmod : (8 * byte + k) % 8 = k := by omega
    rw [hdiv, hmod]
    simp [h8]

theorem bit_append_left {a b : List UInt8} (h : n < 8 * a.length) : bit (a ++ b) n = bit a n := by
  rw [bit, bit, List.getD_append _ _ _ _ (by omega)]

theorem bit_append_right {a b : List UInt8} (h : 8 * a.length ≤ n) :
    bit (a ++ b) n = bit b (n - 8 * a.length) := by
  have hdiv : (n - 8 * a.length) / 8 = n / 8 - a.length := by omega
  have hmod : (n - 8 * a.length) % 8 = n % 8 := by omega
  rw [bit, bit, List.getD_append_right _ _ _ _ (by omega), hdiv, hmod]

theorem bit_set (bytes : List UInt8) {byte : ℕ} (hb : byte < bytes.length) (v : UInt8) (n : ℕ) :
    bit (bytes.set byte v) n = if n / 8 = byte then v.toNat.testBit (n % 8) else bit bytes n := by
  rw [bit, bit]
  split_ifs with h
  · rw [h, List.getD_eq_getElem?_getD, List.getElem?_set_self hb, Option.getD_some]
  · rw [List.getD_eq_getElem?_getD, List.getElem?_set_ne (Ne.symm h), ← List.getD_eq_getElem?_getD]

theorem eq_of_bits {w a b : ℕ} (ha : a < 2 ^ w) (hb : b < 2 ^ w)
    (h : ∀ j < w, a.testBit j = b.testBit j) : a = b := by
  refine Nat.eq_of_testBit_eq fun j => ?_
  by_cases hj : j < w
  · exact h j hj
  · have hw : 2 ^ w ≤ 2 ^ j := Nat.pow_le_pow_right two_pos (not_lt.mp hj)
    rw [Nat.testBit_lt_two_pow (ha.trans_le hw), Nat.testBit_lt_two_pow (hb.trans_le hw)]

end BitStream

end

/-!
## Bits from the greatest on

The low bits of a number as a list that starts with the greatest of them, the number that
such a list writes, and the bits of a byte string. A width splits where its bits do, and
reading off a number of bits in front is the converse of writing them.
-/

section

namespace MsbBits

def bits : ℕ → ℕ → List Bool
  | 0, _ => []
  | n + 1, v => v.testBit n :: bits n v

def value : List Bool → ℕ
  | [] => 0
  | b :: l => b.toNat * 2 ^ l.length + value l

def takeBits (n : ℕ) (l : List Bool) : Option (ℕ × List Bool) :=
  if n ≤ l.length then some (value (l.take n), l.drop n) else none

def ofBytes (bytes : List UInt8) : List Bool := bytes.flatMap fun b => bits 8 b.toNat

variable {n k a b v w : ℕ} {l m rest : List Bool}

@[simp] theorem bits_length (n v : ℕ) : (bits n v).length = n := by
  induction n with
  | zero => rfl
  | succ n ih => rw [bits, List.length_cons, ih]

theorem bits_congr (h : ∀ i < n, v.testBit i = w.testBit i) : bits n v = bits n w := by
  induction n with
  | zero => rfl
  | succ n ih =>
    rw [bits, bits, h n (Nat.lt_succ_self n), ih fun i hi => h i (Nat.lt_succ_of_lt hi)]

theorem bits_add (a b v : ℕ) : bits (a + b) v = bits a (v / 2 ^ b) ++ bits b v := by
  induction a with
  | zero => rw [Nat.zero_add, bits, List.nil_append]
  | succ a ih =>
    rw [Nat.succ_add, bits, bits, ih, List.cons_append, Nat.testBit_div_two_pow]

theorem bits_mod (n v : ℕ) : bits n (v % 2 ^ n) = bits n v :=
  bits_congr fun i hi => by rw [Nat.testBit_mod_two_pow, decide_eq_true hi, Bool.true_and]

theorem bits_mul_add (a n q v : ℕ) : bits (a + n) (2 ^ n * q + v % 2 ^ n) = bits a q ++ bits n v := by
  have hlt : v % 2 ^ n < 2 ^ n := Nat.mod_lt _ (Nat.two_pow_pos n)
  have hdiv : (2 ^ n * q + v % 2 ^ n) / 2 ^ n = q := by
    rw [Nat.mul_add_div (Nat.two_pow_pos n), Nat.div_eq_of_lt hlt, Nat.add_zero]
  have hmod : (2 ^ n * q + v % 2 ^ n) % 2 ^ n = v % 2 ^ n := by
    rw [Nat.mul_add_mod, Nat.mod_mod]
  rw [bits_add, hdiv, ← bits_mod n (2 ^ n * q + v % 2 ^ n), hmod, bits_mod]

theorem value_append (l m : List Bool) : value (l ++ m) = value l * 2 ^ m.length + value m := by
  induction l with
  | nil => simp [value]
  | cons b l ih =>
    rw [List.cons_append, value, value, ih, List.length_append, pow_add]
    ring

theorem value_bits (n v : ℕ) : value (bits n v) = v % 2 ^ n := by
  induction n with
  | zero => rw [bits, value, pow_zero, Nat.mod_one]
  | succ n ih =>
    rw [bits, value, bits_length, ih, Nat.toNat_testBit, Nat.mod_pow_succ, Nat.add_comm, Nat.mul_comm]

/-! ## Reading in front -/

theorem takeBits_bits (n v : ℕ) (rest : List Bool) :
    takeBits n (bits n v ++ rest) = some (v % 2 ^ n, rest) := by
  rw [takeBits, if_pos (by simp), List.take_left' (bits_length n v), List.drop_left' (bits_length n v),
    value_bits]

theorem takeBits_of_length_lt (h : l.length < n) : takeBits n l = none := by
  rw [takeBits, if_neg (not_le.mpr h)]

theorem takeBits_append (l m : List Bool) (n : ℕ) : takeBits (l.length + n) (l ++ m) =
    (takeBits n m).map fun x => (value l * 2 ^ n + x.1, x.2) := by
  by_cases h : n ≤ m.length
  · have hlen : (m.take n).length = n := List.length_take_of_le h
    rw [takeBits, takeBits, if_pos (by simpa using h), if_pos h, List.take_length_add_append,
      List.drop_length_add_append, value_append, hlen]
    rfl
  · rw [takeBits, takeBits, if_neg (by simpa using h), if_neg h]
    rfl

theorem takeBits_extend {x : ℕ} (h : takeBits n l = some (x, rest)) (m : List Bool) :
    takeBits n (l ++ m) = some (x, rest ++ m) := by
  rw [takeBits] at h
  split_ifs at h with hn
  obtain ⟨rfl, rfl⟩ := Prod.mk.inj (Option.some.inj h)
  rw [takeBits, if_pos (hn.trans (by simp)), List.take_append_of_le_length hn,
    List.drop_append_of_le_length hn]

/-! ## Byte strings -/

@[simp] theorem ofBytes_length (bytes : List UInt8) : (ofBytes bytes).length = 8 * bytes.length := by
  induction bytes with
  | nil => rfl
  | cons b bytes ih =>
    rw [ofBytes, List.flatMap_cons, ← ofBytes, List.length_append, ih, bits_length, List.length_cons]
    ring

theorem ofBytes_append (bs cs : List UInt8) : ofBytes (bs ++ cs) = ofBytes bs ++ ofBytes cs :=
  List.flatMap_append

theorem ofBytes_cons (c : UInt8) (cs : List UInt8) : ofBytes (c :: cs) = bits 8 c.toNat ++ ofBytes cs :=
  List.flatMap_cons

theorem value_ofBytes (bytes : List UInt8) : value (ofBytes bytes) = beNat bytes := by
  induction bytes with
  | nil => rfl
  | cons b bytes ih =>
    have hpow : 2 ^ (8 * bytes.length) = 256 ^ bytes.length := pow_mul 2 8 bytes.length
    rw [ofBytes_cons, value_append, ih, ofBytes_length, value_bits, Nat.mod_eq_of_lt b.toNat_lt, hpow,
      beNat]

end MsbBits

end
