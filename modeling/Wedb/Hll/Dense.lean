import Wedb.Ordered.BitStream

/-!
# Dense registers

Registers of six bits are packed into bytes from the low bit on, four to three
bytes. Reading a register takes its bits, and writing one changes no other bit.
-/

namespace Wedb

open BitStream

def hllRegisters : ℕ := 16384
def hllDenseSize : ℕ := 12288
def hllRegisterCountPow : ℕ := 14
def hllHashBitCount : ℕ := 50
def hllRegisterBits : ℕ := 6
def hllRegisterMax : ℕ := 63

def trailingZeros (x : ℕ) : ℕ := ((List.range 64).find? fun j => x.testBit j).getD 64

def extractDenseHllResult (hash : UInt64) : ℕ × UInt8 :=
  let index := hash.toNat % 2 ^ hllRegisterCountPow
  let shifted := hash.toNat / 2 ^ hllRegisterCountPow ||| 2 ^ hllHashBitCount
  (index, UInt8.ofNat (trailingZeros shifted + 1))

def hllDenseGetRegister (registers : Bytes) (registerIndex : ℕ) : UInt8 :=
  let bit := registerIndex * hllRegisterBits
  let byte := bit / 8
  let fb := bit % 8
  let fb8 := 8 - fb
  let b0 := (registers.getD byte 0).toNat
  let b1 := if fb > 8 - hllRegisterBits then (registers.getD (byte + 1) 0).toNat else 0
  UInt8.ofNat ((b0 >>> fb ||| b1 <<< fb8) &&& hllRegisterMax)

def setRegisterLow (fb v b0 : ℕ) : UInt8 :=
  UInt8.ofNat ((b0 &&& (0xFFFF ^^^ hllRegisterMax <<< fb) ||| v <<< fb) &&& 0xFF)

def setRegisterHigh (fb8 v b1 : ℕ) : UInt8 :=
  UInt8.ofNat ((b1 &&& (0xFFFF ^^^ hllRegisterMax >>> fb8) ||| v >>> fb8) &&& 0xFF)

def hllDenseSetRegister (registers : Bytes) (registerIndex : ℕ) (val : UInt8) : Bytes :=
  let bit := registerIndex * hllRegisterBits
  let byte := bit / 8
  let fb := bit % 8
  let fb8 := 8 - fb
  let v := val.toNat &&& hllRegisterMax
  let registers :=
    if byte < registers.length then
      registers.set byte (setRegisterLow fb v (registers.getD byte 0).toNat)
    else registers
  if fb > 8 - hllRegisterBits ∧ byte + 1 < registers.length then
    registers.set (byte + 1) (setRegisterHigh fb8 v (registers.getD (byte + 1) 0).toNat)
  else registers

section
variable {registers : Bytes} {i j k : ℕ} {v : UInt8}

/-! ## Reading -/

theorem testBit_and_registerMax (x j : ℕ) :
    (x &&& hllRegisterMax).testBit j = (x.testBit j && decide (j < 6)) := by
  rw [Nat.testBit_and, show hllRegisterMax = 2 ^ 6 - 1 from rfl, Nat.testBit_two_pow_sub_one]

theorem and_registerMax_lt (x : ℕ) : x &&& hllRegisterMax < 2 ^ 6 :=
  Nat.and_lt_two_pow x (by decide)

theorem hllDenseGetRegister_lt (registers : Bytes) (i : ℕ) :
    (hllDenseGetRegister registers i).toNat < 2 ^ 6 := by
  rw [hllDenseGetRegister, UInt8.toNat_ofNat']
  exact (Nat.mod_le _ _).trans_lt (and_registerMax_lt _)

theorem hllDenseGetRegister_eq (registers : Bytes) (i : ℕ) :
    hllDenseGetRegister registers i = UInt8.ofNat (((registers.getD (i * 6 / 8) 0).toNat >>> (i * 6 % 8)
      ||| (if i * 6 % 8 > 2 then (registers.getD (i * 6 / 8 + 1) 0).toNat else 0) <<<
        (8 - i * 6 % 8)) &&& hllRegisterMax) := rfl

theorem testBit_getRegister (hj : j < 6) :
    (hllDenseGetRegister registers i).toNat.testBit j = bit registers (6 * i + j) := by
  have hsplit : 6 * i + j = 8 * (i * 6 / 8) + (i * 6 % 8 + j) := by omega
  rw [hsplit, testBit_shift registers _ (by omega)]
  rw [hllDenseGetRegister_eq, UInt8.toNat_ofNat_of_lt' ((and_registerMax_lt _).trans (by decide)), testBit_and_registerMax,
    Nat.testBit_or, Nat.testBit_shiftRight, Nat.testBit_shiftLeft]
  by_cases h8 : 8 ≤ i * 6 % 8 + j
  · have hge : 8 - i * 6 % 8 ≤ j := by omega
    have hsub : j - (8 - i * 6 % 8) = i * 6 % 8 + j - 8 := by omega
    rw [if_pos (by omega), hsub]
    simp [h8, hge, hj]
  · have hlt : ¬8 - i * 6 % 8 ≤ j := by omega
    simp [h8, hlt, hj]

theorem hllDenseGetRegister_eq_of_bits (hv : v.toNat < 2 ^ 6)
    (h : ∀ j < 6, bit registers (6 * i + j) = v.toNat.testBit j) :
    hllDenseGetRegister registers i = v := by
  refine UInt8.toNat_inj.mp (eq_of_bits (hllDenseGetRegister_lt registers i) hv fun j hj => ?_)
  rw [testBit_getRegister hj, h j hj]

/-! ## Writing -/

theorem and_byte_lt (x : ℕ) : x &&& 0xFF < 2 ^ 8 := Nat.and_lt_two_pow x (by decide)

theorem testBit_setRegisterLow {fb v b0 : ℕ} (hv : v < 2 ^ 6) (hk : k < 8) :
    (setRegisterLow fb v b0).toNat.testBit k =
      if fb ≤ k ∧ k < fb + 6 then v.testBit (k - fb) else b0.testBit k := by
  have hmask : (0xFFFF : ℕ) = 2 ^ 16 - 1 := rfl
  have hbyte : (0xFF : ℕ) = 2 ^ 8 - 1 := rfl
  have hmax : hllRegisterMax = 2 ^ 6 - 1 := rfl
  have h16 : k < 16 := by omega
  rw [setRegisterLow, UInt8.toNat_ofNat_of_lt' (and_byte_lt _), hbyte, hmask,
    hmax]
  simp only [Nat.testBit_and, Nat.testBit_or, Nat.testBit_xor, Nat.testBit_shiftLeft,
    Nat.testBit_two_pow_sub_one, hk, h16, decide_true, Bool.and_true, Bool.true_xor]
  by_cases hfb : fb ≤ k
  · by_cases h6 : k < fb + 6
    · have hlt : k - fb < 6 := by omega
      simp [hfb, h6, hlt]
    · have hlt : ¬k - fb < 6 := by omega
      have hzero : v.testBit (k - fb) = false :=
        Nat.testBit_lt_two_pow (hv.trans_le (Nat.pow_le_pow_right two_pos (not_lt.mp hlt)))
      simp [hfb, h6, hlt, hzero]
  · simp [hfb]

theorem testBit_setRegisterHigh {fb8 v b1 : ℕ} (hv : v < 2 ^ 6) (hk : k < 8) :
    (setRegisterHigh fb8 v b1).toNat.testBit k =
      if fb8 + k < 6 then v.testBit (fb8 + k) else b1.testBit k := by
  have hmask : (0xFFFF : ℕ) = 2 ^ 16 - 1 := rfl
  have hbyte : (0xFF : ℕ) = 2 ^ 8 - 1 := rfl
  have hmax : hllRegisterMax = 2 ^ 6 - 1 := rfl
  have h16 : k < 16 := by omega
  rw [setRegisterHigh, UInt8.toNat_ofNat_of_lt' (and_byte_lt _), hbyte, hmask,
    hmax]
  simp only [Nat.testBit_and, Nat.testBit_or, Nat.testBit_xor, Nat.testBit_shiftRight,
    Nat.testBit_two_pow_sub_one, hk, h16, decide_true, Bool.and_true, Bool.true_xor]
  by_cases h6 : fb8 + k < 6
  · simp [h6]
  · have hzero : v.testBit (fb8 + k) = false :=
      Nat.testBit_lt_two_pow (hv.trans_le (Nat.pow_le_pow_right two_pos (not_lt.mp h6)))
    simp [h6, hzero]

@[simp] theorem hllDenseSetRegister_length (registers : Bytes) (i : ℕ) (v : UInt8) :
    (hllDenseSetRegister registers i v).length = registers.length := by
  simp only [hllDenseSetRegister]
  split_ifs <;> simp

theorem hllDenseSetRegister_eq (hbyte : i * 6 / 8 < registers.length) :
    hllDenseSetRegister registers i v =
      if i * 6 % 8 > 2 ∧ i * 6 / 8 + 1 < registers.length then
        (registers.set (i * 6 / 8) (setRegisterLow (i * 6 % 8) (v.toNat &&& hllRegisterMax)
          (registers.getD (i * 6 / 8) 0).toNat)).set (i * 6 / 8 + 1)
          (setRegisterHigh (8 - i * 6 % 8) (v.toNat &&& hllRegisterMax)
            (registers.getD (i * 6 / 8 + 1) 0).toNat)
      else registers.set (i * 6 / 8) (setRegisterLow (i * 6 % 8) (v.toNat &&& hllRegisterMax)
        (registers.getD (i * 6 / 8) 0).toNat) := by
  have hget : (registers.set (i * 6 / 8) (setRegisterLow (i * 6 % 8) (v.toNat &&& hllRegisterMax)
      (registers.getD (i * 6 / 8) 0).toNat)).getD (i * 6 / 8 + 1) 0 =
      registers.getD (i * 6 / 8 + 1) 0 := by
    rw [List.getD_eq_getElem?_getD, List.getElem?_set_ne (Nat.succ_ne_self _).symm,
      ← List.getD_eq_getElem?_getD]
  rw [hllDenseSetRegister]
  simp only [show hllRegisterBits = 6 from rfl, hbyte, if_true, List.length_set, hget]

theorem bit_setRegister (hlen : 6 * i + 6 ≤ 8 * registers.length) (n : ℕ) :
    bit (hllDenseSetRegister registers i v) n =
      if 6 * i ≤ n ∧ n < 6 * i + 6 then v.toNat.testBit (n - 6 * i) else bit registers n := by
  have hv : v.toNat &&& hllRegisterMax < 2 ^ 6 := and_registerMax_lt _
  have hvbit : ∀ j < 6, (v.toNat &&& hllRegisterMax).testBit j = v.toNat.testBit j := by
    intro j hj
    rw [testBit_and_registerMax, decide_eq_true hj, Bool.and_true]
  have hn : n % 8 < 8 := Nat.mod_lt _ (by decide)
  have hlow : i * 6 / 8 < registers.length := by omega
  have hfirst : bit (registers.set (i * 6 / 8) (setRegisterLow (i * 6 % 8)
      (v.toNat &&& hllRegisterMax) (registers.getD (i * 6 / 8) 0).toNat)) n =
      if n / 8 = i * 6 / 8 ∧ 6 * i ≤ n ∧ n < 6 * i + 6 then v.toNat.testBit (n - 6 * i)
      else bit registers n := by
    rw [bit_set _ hlow, testBit_setRegisterLow hv hn]
    by_cases hbyte : n / 8 = i * 6 / 8
    · rw [if_pos hbyte]
      by_cases hin : 6 * i ≤ n ∧ n < 6 * i + 6
      · rw [if_pos (by omega), if_pos ⟨hbyte, hin⟩, hvbit _ (by omega)]
        congr 1
        omega
      · rw [if_neg (by omega), if_neg (fun h => hin h.2), ← hbyte]
        rfl
    · rw [if_neg hbyte, if_neg (fun h => hbyte h.1)]
  rw [hllDenseSetRegister_eq hlow]
  by_cases hsecond : i * 6 % 8 > 2 ∧ i * 6 / 8 + 1 < registers.length
  · rw [if_pos hsecond, bit_set _ (by rw [List.length_set]; exact hsecond.2)]
    by_cases hbyte : n / 8 = i * 6 / 8 + 1
    · rw [if_pos hbyte, testBit_setRegisterHigh hv hn]
      by_cases hin : 6 * i ≤ n ∧ n < 6 * i + 6
      · rw [if_pos (by omega), if_pos hin, hvbit _ (by omega)]
        congr 1
        omega
      · rw [if_neg (by omega), if_neg hin, ← hbyte]
        rfl
    · rw [if_neg hbyte, hfirst]
      by_cases hin : 6 * i ≤ n ∧ n < 6 * i + 6
      · rw [if_pos hin, if_pos ⟨by omega, hin⟩]
      · rw [if_neg hin, if_neg (fun h => hin h.2)]
  · rw [if_neg hsecond, hfirst]
    by_cases hin : 6 * i ≤ n ∧ n < 6 * i + 6
    · rw [if_pos hin, if_pos ⟨by omega, hin⟩]
    · rw [if_neg hin, if_neg (fun h => hin h.2)]

theorem getRegister_setRegister_masked (hlen : 6 * i + 6 ≤ 8 * registers.length) :
    hllDenseGetRegister (hllDenseSetRegister registers i v) i = v &&& 0x3F := by
  have hmask : (v &&& 0x3F).toNat = v.toNat &&& hllRegisterMax := UInt8.toNat_and v 0x3F
  refine hllDenseGetRegister_eq_of_bits (hmask ▸ and_registerMax_lt _) fun j hj => ?_
  rw [bit_setRegister hlen, if_pos (by omega), Nat.add_sub_cancel_left, hmask,
    testBit_and_registerMax, decide_eq_true hj, Bool.and_true]

theorem getRegister_setRegister_self (hlen : 6 * i + 6 ≤ 8 * registers.length)
    (hv : v.toNat < 2 ^ 6) : hllDenseGetRegister (hllDenseSetRegister registers i v) i = v := by
  refine hllDenseGetRegister_eq_of_bits hv fun j hj => ?_
  rw [bit_setRegister hlen, if_pos (by omega), Nat.add_sub_cancel_left]

theorem getRegister_setRegister_of_ne (hlen : 6 * i + 6 ≤ 8 * registers.length) (h : k ≠ i) :
    hllDenseGetRegister (hllDenseSetRegister registers i v) k = hllDenseGetRegister registers k := by
  refine hllDenseGetRegister_eq_of_bits (hllDenseGetRegister_lt registers k) fun j hj => ?_
  rw [bit_setRegister hlen, if_neg (by omega), testBit_getRegister hj]

end

end Wedb
