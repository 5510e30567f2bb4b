import Mathlib.Data.Nat.Bitwise
import Wedb.Ordered.BitStream
import Wedb.Meta.KeyMeta

/-!
# Bit streams of timestamps

A writer fills a byte from its greatest bit on and passes it on when it is full; a field
that does not fit into what is left of the byte is split. A reader walks the bytes the same
way. Both are known by their bits: what a writer holds, and what a reader has left.
-/

namespace Wedb

open MsbBits (bits value ofBytes takeBits)

theorem no_bits_lt : 0 < 8 := by decide

structure BitWriter where
  buf : Bytes := []
  currentByte : UInt8 := 0
  bitCount : ℕ := 0
  small : bitCount < 8 := by exact no_bits_lt

namespace BitWriter

def fill (buf : Bytes) (currentByte : UInt8) (bitCount : ℕ) (h : bitCount ≤ 8) : BitWriter :=
  if h8 : bitCount = 8 then { buf := buf ++ [currentByte] }
  else { buf, currentByte, bitCount, small := lt_of_le_of_ne h h8 }

def writeBit (w : BitWriter) (bit : Bool) : BitWriter :=
  let currentByte := if bit then w.currentByte ||| (1 <<< UInt8.ofNat (7 - w.bitCount)) else w.currentByte
  fill w.buf currentByte (w.bitCount + 1) w.small

def writeBits (w : BitWriter) (val : UInt64) (numBits : ℕ) : BitWriter :=
  if numBits = 0 then w
  else if h : numBits ≤ 8 - w.bitCount then
    let shift := 8 - w.bitCount - numBits
    let mask : UInt64 := if numBits = 64 then 0xFFFFFFFFFFFFFFFF else (1 <<< UInt64.ofNat numBits) - 1
    fill w.buf (w.currentByte ||| ((val &&& mask).toUInt8 <<< UInt8.ofNat shift)) (w.bitCount + numBits)
      (by have := w.small; omega)
  else
    let spaceInByte := 8 - w.bitCount
    let shift := numBits - spaceInByte
    let chunk := (val >>> UInt64.ofNat shift) &&& ((1 <<< UInt64.ofNat spaceInByte) - 1)
    writeBits { buf := w.buf ++ [w.currentByte ||| chunk.toUInt8] } val (numBits - spaceInByte)
termination_by numBits
decreasing_by
  have := w.small
  omega

def finish (w : BitWriter) : Bytes :=
  if 0 < w.bitCount then w.buf ++ [w.currentByte] else w.buf

def written (w : BitWriter) : List Bool :=
  ofBytes w.buf ++ bits w.bitCount (w.currentByte.toNat / 2 ^ (8 - w.bitCount))

/-- Nothing is set behind the bits written. -/
def Clean (w : BitWriter) : Prop := w.currentByte.toNat % 2 ^ (8 - w.bitCount) = 0

end BitWriter

structure BitReader (data : Bytes) where
  byteOffset : ℕ := 0
  bitOffset : ℕ := 0
  small : bitOffset < 8 := by exact no_bits_lt

namespace BitReader

variable {data : Bytes}

def advance (byteOffset bitOffset : ℕ) (h : bitOffset ≤ 8) : BitReader data :=
  if h8 : bitOffset = 8 then { byteOffset := byteOffset + 1 }
  else { byteOffset, bitOffset, small := lt_of_le_of_ne h h8 }

def readBit (r : BitReader data) : Option (Bool × BitReader data) :=
  if data.length ≤ r.byteOffset then none
  else
    let b := data.getD r.byteOffset 0
    some (b &&& (1 <<< UInt8.ofNat (7 - r.bitOffset)) != 0,
      advance r.byteOffset (r.bitOffset + 1) r.small)

def byteMask (numBits : ℕ) : UInt8 := ((1 <<< UInt16.ofNat numBits) - 1 : UInt16).toUInt8

def readLoop (r : BitReader data) (numBits : ℕ) (result : UInt64) : Option (UInt64 × BitReader data) :=
  if numBits = 0 then some (result, r)
  else if data.length ≤ r.byteOffset then none
  else
    let b := data.getD r.byteOffset 0
    if h : numBits ≤ 8 - r.bitOffset then
      let chunk := (b >>> UInt8.ofNat (8 - r.bitOffset - numBits)) &&& byteMask numBits
      some ((result <<< UInt64.ofNat numBits) ||| chunk.toUInt64,
        advance r.byteOffset (r.bitOffset + numBits) (by have := r.small; omega))
    else
      let spaceInByte := 8 - r.bitOffset
      let chunk := b &&& byteMask spaceInByte
      readLoop { byteOffset := r.byteOffset + 1 } (numBits - spaceInByte)
        ((result <<< UInt64.ofNat spaceInByte) ||| chunk.toUInt64)
termination_by numBits
decreasing_by
  have := r.small
  omega

def readBits (r : BitReader data) (numBits : ℕ) : Option (UInt64 × BitReader data) :=
  readLoop r numBits 0

def left (r : BitReader data) : List Bool := (ofBytes data).drop (8 * r.byteOffset + r.bitOffset)

end BitReader

/-! ## Masks -/

theorem toNat_mask_u64 {n : ℕ} (h : n ≤ 8) : ((1 : UInt64) <<< UInt64.ofNat n - 1).toNat = 2 ^ n - 1 := by
  interval_cases n <;> decide

theorem toNat_byteMask {n : ℕ} (h : n ≤ 8) : (BitReader.byteMask n).toNat = 2 ^ n - 1 := by
  interval_cases n <;> decide

theorem toNat_lowBits_u64 (val : UInt64) {n : ℕ} (h : n ≤ 8) :
    (val &&& ((1 : UInt64) <<< UInt64.ofNat n - 1)).toUInt8.toNat = val.toNat % 2 ^ n := by
  have hpow : 2 ^ n ≤ 2 ^ 8 := Nat.pow_le_pow_right two_pos h
  have hlt : val.toNat % 2 ^ n < 2 ^ 8 := (Nat.mod_lt _ (Nat.two_pow_pos n)).trans_le hpow
  rw [UInt64.toNat_toUInt8, UInt64.toNat_and, toNat_mask_u64 h, Nat.and_two_pow_sub_one_eq_mod,
    Nat.mod_eq_of_lt hlt]

theorem toNat_or_of_clean {c x : UInt8} {n : ℕ} (hc : c.toNat % 2 ^ n = 0) (hx : x.toNat < 2 ^ n) :
    (c ||| x).toNat = 2 ^ n * (c.toNat / 2 ^ n) + x.toNat := by
  rw [UInt8.toNat_or, Nat.two_pow_add_eq_or_of_lt hx, Nat.mul_div_cancel' (Nat.dvd_of_mod_eq_zero hc)]

namespace BitWriter

variable {w : BitWriter} {buf : Bytes} {c : UInt8} {n : ℕ}

theorem fill_written (h : n ≤ 8) :
    (fill buf c n h).written = ofBytes buf ++ bits n (c.toNat / 2 ^ (8 - n)) := by
  rw [fill]
  split_ifs with h8
  · subst h8
    simp [written, bits, ofBytes]
  · rfl

theorem fill_clean (h : n ≤ 8) (hc : c.toNat % 2 ^ (8 - n) = 0) : (fill buf c n h).Clean := by
  rw [fill]
  split_ifs with h8
  · rfl
  · exact hc

theorem fill_or (hw : w.Clean) {x : UInt8} {v : ℕ} (h : w.bitCount + n ≤ 8)
    (hx : x.toNat = v % 2 ^ n * 2 ^ (8 - w.bitCount - n)) :
    (fill w.buf (w.currentByte ||| x) (w.bitCount + n) h).written = w.written ++ bits n v ∧
      (fill w.buf (w.currentByte ||| x) (w.bitCount + n) h).Clean := by
  have hpow : 2 ^ (8 - w.bitCount) = 2 ^ n * 2 ^ (8 - (w.bitCount + n)) := by
    rw [← pow_add]
    congr 1
    omega
  have hshift : 8 - w.bitCount - n = 8 - (w.bitCount + n) := by omega
  have hpos : 0 < 2 ^ (8 - (w.bitCount + n)) := Nat.two_pow_pos _
  rw [hshift] at hx
  have hlt : x.toNat < 2 ^ (8 - w.bitCount) := by
    rw [hx, hpow]
    exact Nat.mul_lt_mul_of_pos_right (Nat.mod_lt _ (Nat.two_pow_pos n)) hpos
  have hor := toNat_or_of_clean hw hlt
  have hbyte : (w.currentByte ||| x).toNat =
      (2 ^ n * (w.currentByte.toNat / 2 ^ (8 - w.bitCount)) + v % 2 ^ n) *
        2 ^ (8 - (w.bitCount + n)) := by
    rw [hor, hx]
    generalize w.currentByte.toNat / 2 ^ (8 - w.bitCount) = q
    rw [hpow]
    ring
  refine ⟨?_, fill_clean h ?_⟩
  · rw [fill_written, hbyte, Nat.mul_div_cancel _ hpos, MsbBits.bits_mul_add, written, List.append_assoc]
  · rw [hbyte, Nat.mul_mod_left]

theorem writeBit_spec (hw : w.Clean) (bit : Bool) :
    (w.writeBit bit).written = w.written ++ [bit] ∧ (w.writeBit bit).Clean := by
  have hsmall : w.bitCount + 1 ≤ 8 := w.small
  have hseven : 8 - w.bitCount - 1 = 7 - w.bitCount := by omega
  have hbits : bits 1 bit.toNat = [bit] := by cases bit <;> rfl
  rw [← hbits]
  cases bit with
  | true =>
    refine fill_or hw hsmall ?_
    have hmod : (UInt8.ofNat (7 - w.bitCount)).toNat % 8 = 7 - w.bitCount := by
      rw [UInt8.toNat_ofNat', Nat.mod_eq_of_lt (show 7 - w.bitCount < 2 ^ 8 by omega)]
      omega
    have hlt : 1 * 2 ^ (7 - w.bitCount) < 2 ^ 8 := by
      rw [one_mul]
      exact Nat.pow_lt_pow_right (by omega) (by omega)
    rw [UInt8.toNat_shiftLeft, hmod, hseven, Nat.shiftLeft_eq]
    exact Nat.mod_eq_of_lt hlt
  | false =>
    have hor := fill_or (v := false.toNat) (n := 1) hw hsmall (x := 0) (by simp)
    rw [UInt8.or_zero] at hor
    exact hor

theorem toNat_shifted {val : UInt64} {mask : UInt64} {shift : ℕ}
    (hval : (val &&& mask).toUInt8.toNat = val.toNat % 2 ^ n) (h : n + shift ≤ 8) (hn : 0 < n) :
    ((val &&& mask).toUInt8 <<< UInt8.ofNat shift).toNat = val.toNat % 2 ^ n * 2 ^ shift := by
  have hmod : (UInt8.ofNat shift).toNat % 8 = shift := by
    rw [UInt8.toNat_ofNat', Nat.mod_eq_of_lt (show shift < 2 ^ 8 by omega)]
    omega
  have hlt : val.toNat % 2 ^ n * 2 ^ shift < 2 ^ 8 := by
    calc val.toNat % 2 ^ n * 2 ^ shift < 2 ^ n * 2 ^ shift :=
          Nat.mul_lt_mul_of_pos_right (Nat.mod_lt _ (Nat.two_pow_pos n)) (Nat.two_pow_pos _)
      _ = 2 ^ (n + shift) := (pow_add 2 n shift).symm
      _ ≤ 2 ^ 8 := Nat.pow_le_pow_right two_pos h
  rw [UInt8.toNat_shiftLeft, hmod, hval, Nat.shiftLeft_eq, Nat.mod_eq_of_lt hlt]

theorem writeBits_spec (hw : w.Clean) (val : UInt64) (hn : n ≤ 64) :
    (w.writeBits val n).written = w.written ++ bits n val.toNat ∧ (w.writeBits val n).Clean := by
  induction n using Nat.strong_induction_on generalizing w with
  | h n ih =>
    have hsmall := w.small
    rw [writeBits]
    by_cases hzero : n = 0
    · subst hzero
      rw [if_pos rfl, bits, List.append_nil]
      exact ⟨rfl, hw⟩
    · rw [if_neg hzero]
      by_cases hfits : n ≤ 8 - w.bitCount
      · rw [dif_pos hfits]
        have hmask : ¬n = 64 := by omega
        simp only [if_neg hmask]
        exact fill_or hw _ (toNat_shifted (toNat_lowBits_u64 val (by omega)) (by omega)
          (Nat.pos_of_ne_zero hzero))
      · rw [dif_neg hfits]
        have hshift : (UInt64.ofNat (n - (8 - w.bitCount))).toNat % 64 = n - (8 - w.bitCount) := by
          rw [UInt64.toNat_ofNat', Nat.mod_eq_of_lt (show n - (8 - w.bitCount) < 2 ^ 64 by omega)]
          omega
        have hval : (val >>> UInt64.ofNat (n - (8 - w.bitCount))).toNat =
            val.toNat / 2 ^ (n - (8 - w.bitCount)) := by
          rw [UInt64.toNat_shiftRight, hshift, Nat.shiftRight_eq_div_pow]
        have hchunk := toNat_lowBits_u64 (val >>> UInt64.ofNat (n - (8 - w.bitCount)))
          (n := 8 - w.bitCount) (by omega)
        rw [hval] at hchunk
        have hfull : w.bitCount + (8 - w.bitCount) = 8 := by omega
        have hor := toNat_or_of_clean hw (hchunk.trans_lt (Nat.mod_lt _ (Nat.two_pow_pos _)))
        have hpush : MsbBits.ofBytes (w.buf ++ [w.currentByte |||
            ((val >>> UInt64.ofNat (n - (8 - w.bitCount))) &&&
              (1 <<< UInt64.ofNat (8 - w.bitCount) - 1)).toUInt8]) =
            w.written ++ bits (8 - w.bitCount) (val.toNat / 2 ^ (n - (8 - w.bitCount))) := by
          have hbyte := MsbBits.bits_mul_add w.bitCount (8 - w.bitCount)
            (w.currentByte.toNat / 2 ^ (8 - w.bitCount)) (val.toNat / 2 ^ (n - (8 - w.bitCount)))
          rw [hfull] at hbyte
          rw [MsbBits.ofBytes_append, MsbBits.ofBytes_cons, hor, hchunk, hbyte, written]
          simp [ofBytes]
        have hrest := ih (n - (8 - w.bitCount)) (by omega) (w := { buf := w.buf ++ [w.currentByte |||
            ((val >>> UInt64.ofNat (n - (8 - w.bitCount))) &&&
              (1 <<< UInt64.ofNat (8 - w.bitCount) - 1)).toUInt8] }) rfl (by omega)
        refine ⟨?_, hrest.2⟩
        have hsplit := MsbBits.bits_add (8 - w.bitCount) (n - (8 - w.bitCount)) val.toNat
        rw [Nat.add_sub_cancel' (by omega)] at hsplit
        rw [hrest.1, hsplit, written, hpush]
        simp [bits]

theorem finish_spec (w : BitWriter) (hw : w.Clean) :
    ∃ pad : List Bool, pad.length < 8 ∧ ofBytes w.finish = w.written ++ pad := by
  rw [finish]
  split_ifs with hpos
  · refine ⟨bits (8 - w.bitCount) 0, by rw [MsbBits.bits_length]; omega, ?_⟩
    have hbyte := MsbBits.bits_mul_add w.bitCount (8 - w.bitCount)
      (w.currentByte.toNat / 2 ^ (8 - w.bitCount)) 0
    have hsmall := w.small
    rw [Nat.add_sub_cancel' hsmall.le, Nat.zero_mod, Nat.add_zero,
      Nat.mul_div_cancel' (Nat.dvd_of_mod_eq_zero hw)] at hbyte
    rw [MsbBits.ofBytes_append, MsbBits.ofBytes_cons, hbyte, written]
    simp [ofBytes]
  · have hzero : w.bitCount = 0 := Nat.eq_zero_of_not_pos hpos
    exact ⟨[], by simp, by simp [written, hzero, bits]⟩

end BitWriter

namespace BitReader

variable {data : Bytes} {r : BitReader data} {n : ℕ}

theorem advance_left {k o : ℕ} (h : o ≤ 8) :
    (advance k o h : BitReader data).left = (ofBytes data).drop (8 * k + o) := by
  rw [advance]
  split_ifs with h8
  · subst h8
    rfl
  · rfl

theorem left_eq_nil (h : data.length ≤ r.byteOffset) : r.left = [] := by
  rw [left, List.drop_eq_nil_iff, MsbBits.ofBytes_length]
  omega

theorem left_eq_append (h : ¬data.length ≤ r.byteOffset) :
    r.left = bits (8 - r.bitOffset) (data.getD r.byteOffset 0).toNat ++
      (ofBytes data).drop (8 * (r.byteOffset + 1)) := by
  have hlt := not_le.mp h
  have hsplit : ofBytes data = ofBytes (data.take r.byteOffset) ++
      (bits 8 (data.getD r.byteOffset 0).toNat ++ ofBytes (data.drop (r.byteOffset + 1))) := by
    rw [← MsbBits.ofBytes_cons, ← MsbBits.ofBytes_append, List.getD_eq_getElem?_getD,
      List.getElem?_eq_getElem hlt, Option.getD_some, List.getElem_cons_drop, List.take_append_drop]
  have hfront : (ofBytes (data.take r.byteOffset)).length = 8 * r.byteOffset := by
    rw [MsbBits.ofBytes_length, List.length_take_of_le hlt.le]
  have hbyte := MsbBits.bits_add r.bitOffset (8 - r.bitOffset) (data.getD r.byteOffset 0).toNat
  rw [Nat.add_sub_cancel' r.small.le] at hbyte
  have hrest : (ofBytes data).drop (8 * (r.byteOffset + 1)) = ofBytes (data.drop (r.byteOffset + 1)) := by
    rw [hsplit, ← List.append_assoc]
    exact List.drop_left' (by rw [List.length_append, hfront, MsbBits.bits_length]; ring)
  rw [left, hrest, hsplit, ← hfront, List.drop_length_add_append, hbyte, List.append_assoc,
    List.drop_left' (MsbBits.bits_length _ _)]

theorem and_bit_ne_zero (b : UInt8) {k : ℕ} (hk : k < 8) :
    (b &&& (1 <<< UInt8.ofNat k) != 0) = b.toNat.testBit k := by
  have hone : ((1 : UInt8) <<< UInt8.ofNat k).toNat = 2 ^ k := by
    interval_cases k <;> decide
  have hand : (b &&& (1 <<< UInt8.ofNat k)).toNat = (b.toNat.testBit k).toNat * 2 ^ k := by
    rw [UInt8.toNat_and, hone, Nat.and_two_pow]
  have hzero : b &&& (1 <<< UInt8.ofNat k) = 0 ↔ (b.toNat.testBit k).toNat * 2 ^ k = 0 := by
    rw [← hand]
    exact UInt8.toNat_inj.symm
  cases hbit : b.toNat.testBit k with
  | true =>
    rw [hbit] at hzero
    exact bne_iff_ne.mpr fun h => by simpa using hzero.mp h
  | false =>
    rw [hbit] at hzero
    simpa using hzero.mpr (by simp)

theorem readBit_spec (r : BitReader data) : (r.readBit.map fun x => (x.1, x.2.left)) =
    match r.left with
    | [] => none
    | b :: l => some (b, l) := by
  rw [readBit]
  split_ifs with hend
  · rw [left_eq_nil hend]
    rfl
  · have hsmall := r.small
    have hone : 8 - r.bitOffset = 7 - r.bitOffset + 1 := by omega
    have hleft := left_eq_append hend
    rw [hone, bits, List.cons_append] at hleft
    have hrest : (advance r.byteOffset (r.bitOffset + 1) r.small : BitReader data).left =
        bits (7 - r.bitOffset) (data.getD r.byteOffset 0).toNat ++
          (ofBytes data).drop (8 * (r.byteOffset + 1)) := by
      rw [advance_left, ← Nat.add_assoc, ← List.drop_drop, ← left, hleft, List.drop_one, List.tail_cons]
    have hbit := and_bit_ne_zero (data.getD r.byteOffset 0) (k := 7 - r.bitOffset) (by omega)
    rw [hleft]
    simp only [Option.map_some, hrest, hbit]

theorem toNat_chunk (b : UInt8) (shift : ℕ) (h : shift + n ≤ 8) (hn : 0 < n) :
    ((b >>> UInt8.ofNat shift) &&& byteMask n).toNat = b.toNat / 2 ^ shift % 2 ^ n := by
  have hmod : (UInt8.ofNat shift).toNat % 8 = shift := by
    rw [UInt8.toNat_ofNat', Nat.mod_eq_of_lt (show shift < 2 ^ 8 by omega)]
    omega
  rw [UInt8.toNat_and, toNat_byteMask (by omega), Nat.and_two_pow_sub_one_eq_mod,
    UInt8.toNat_shiftRight, hmod, Nat.shiftRight_eq_div_pow]

theorem toNat_shift_or {result : UInt64} {x : UInt8} (hx : x.toNat < 2 ^ n) (hn : n < 64)
    (hresult : result.toNat < 2 ^ (64 - n)) :
    ((result <<< UInt64.ofNat n) ||| x.toUInt64).toNat = result.toNat * 2 ^ n + x.toNat := by
  have hmod : (UInt64.ofNat n).toNat % 64 = n := by
    rw [UInt64.toNat_ofNat', Nat.mod_eq_of_lt (show n < 2 ^ 64 by omega)]
    omega
  have hlt : result.toNat * 2 ^ n < 2 ^ 64 := by
    calc result.toNat * 2 ^ n < 2 ^ (64 - n) * 2 ^ n :=
          Nat.mul_lt_mul_of_pos_right hresult (Nat.two_pow_pos n)
      _ = 2 ^ 64 := by rw [← pow_add, Nat.sub_add_cancel hn.le]
  have hshift : (result <<< UInt64.ofNat n).toNat = 2 ^ n * result.toNat := by
    rw [UInt64.toNat_shiftLeft, hmod, Nat.shiftLeft_eq, Nat.mod_eq_of_lt hlt, Nat.mul_comm]
  rw [UInt64.toNat_or, hshift, UInt8.toNat_toUInt64, ← Nat.two_pow_add_eq_or_of_lt hx, Nat.mul_comm]

theorem readLoop_spec {result : UInt64} (hn : n ≤ 64) (hresult : result.toNat < 2 ^ (64 - n))
    (hpos : 0 < n) : ((r.readLoop n result).map fun x => (x.1.toNat, x.2.left)) =
      (takeBits n r.left).map fun x => (result.toNat * 2 ^ n + x.1, x.2) := by
  induction n using Nat.strong_induction_on generalizing r result with
  | h n ih =>
    have hsmall := r.small
    rw [readLoop, if_neg hpos.ne']
    by_cases hend : data.length ≤ r.byteOffset
    · rw [if_pos hend, left_eq_nil hend, MsbBits.takeBits_of_length_lt (by simpa using hpos)]
      rfl
    · rw [if_neg hend, left_eq_append hend]
      by_cases hfits : n ≤ 8 - r.bitOffset
      · have hspace : 8 - r.bitOffset = n + (8 - r.bitOffset - n) := by omega
        have hsplit := MsbBits.bits_add n (8 - r.bitOffset - n) (data.getD r.byteOffset 0).toNat
        rw [← hspace] at hsplit
        have hchunk := toNat_chunk (data.getD r.byteOffset 0) (n := n) (8 - r.bitOffset - n)
          (by omega) hpos
        have hvalue := toNat_shift_or (hchunk.trans_lt (Nat.mod_lt _ (Nat.two_pow_pos n))) (by omega)
          hresult
        have hrest : (advance r.byteOffset (r.bitOffset + n) (by omega) : BitReader data).left =
            bits (8 - r.bitOffset - n) (data.getD r.byteOffset 0).toNat ++
              (ofBytes data).drop (8 * (r.byteOffset + 1)) := by
          rw [advance_left, ← Nat.add_assoc, ← List.drop_drop, ← left, left_eq_append hend, hsplit,
            List.append_assoc, List.drop_left' (MsbBits.bits_length _ _)]
        rw [dif_pos hfits, hsplit, List.append_assoc, MsbBits.takeBits_bits]
        simp only [Option.map_some, hvalue, hchunk, hrest]
      · have hspace : 0 < 8 - r.bitOffset := by omega
        have hchunk := toNat_chunk (data.getD r.byteOffset 0) (n := 8 - r.bitOffset) 0
          (by omega) hspace
        have hshift : data.getD r.byteOffset 0 >>> UInt8.ofNat 0 = data.getD r.byteOffset 0 :=
          UInt8.shiftRight_zero
        rw [hshift, pow_zero, Nat.div_one] at hchunk
        have hlt := hchunk.trans_lt (Nat.mod_lt _ (Nat.two_pow_pos _))
        have hwide : result.toNat < 2 ^ (64 - (8 - r.bitOffset)) :=
          hresult.trans_le (Nat.pow_le_pow_right two_pos (by omega))
        have hvalue := toNat_shift_or hlt (by omega) hwide
        have hpow : 2 ^ (64 - (n - (8 - r.bitOffset))) = 2 ^ (64 - n) * 2 ^ (8 - r.bitOffset) := by
          rw [← pow_add]
          congr 1
          omega
        have hnext : (result.toNat * 2 ^ (8 - r.bitOffset) +
            (data.getD r.byteOffset 0 &&& byteMask (8 - r.bitOffset)).toNat) <
            2 ^ (64 - (n - (8 - r.bitOffset))) := by
          rw [hpow]
          calc _ < (result.toNat + 1) * 2 ^ (8 - r.bitOffset) := by rw [Nat.succ_mul]; omega
            _ ≤ 2 ^ (64 - n) * 2 ^ (8 - r.bitOffset) := Nat.mul_le_mul_right _ hresult
        rw [← hvalue] at hnext
        have hrec := ih (n - (8 - r.bitOffset)) (by omega) (r := { byteOffset := r.byteOffset + 1 })
          (by omega) hnext (by omega)
        have htake := MsbBits.takeBits_append
          (bits (8 - r.bitOffset) (data.getD r.byteOffset 0).toNat)
          ((ofBytes data).drop (8 * (r.byteOffset + 1))) (n - (8 - r.bitOffset))
        rw [MsbBits.bits_length, Nat.add_sub_cancel' (by omega)] at htake
        rw [dif_neg hfits, htake]
        refine hrec.trans ?_
        have hsum : (result.toNat * 2 ^ (8 - r.bitOffset) + (data.getD r.byteOffset 0).toNat %
            2 ^ (8 - r.bitOffset)) * 2 ^ (n - (8 - r.bitOffset)) = result.toNat * 2 ^ n +
            (data.getD r.byteOffset 0).toNat % 2 ^ (8 - r.bitOffset) * 2 ^ (n - (8 - r.bitOffset)) := by
          have hn' : 2 ^ n = 2 ^ (8 - r.bitOffset) * 2 ^ (n - (8 - r.bitOffset)) := by
            rw [← pow_add, Nat.add_sub_cancel' (by omega)]
          rw [hn']
          ring
        rw [Option.map_map, hvalue, hchunk, MsbBits.value_bits, hsum]
        simp only [Function.comp_def, Nat.add_assoc]
        rfl

theorem readBits_spec (r : BitReader data) (hn : n ≤ 64) :
    ((r.readBits n).map fun x => (x.1.toNat, x.2.left)) = takeBits n r.left := by
  rcases Nat.eq_zero_or_pos n with rfl | hpos
  · rw [readBits, readLoop, if_pos rfl]
    rfl
  · have hloop := @readLoop_spec data r n 0 hn (Nat.two_pow_pos _) hpos
    rw [readBits, hloop]
    simp

end BitReader

end Wedb
