import Wedb.Alp.Kernel

/-!
# The bits of a byte memory

A memory of bytes is one little-endian stream of bits: bit `j` lies in byte `j / 8`. A store
replaces the bits of its bytes and no others, and a load is the number of its bits.
-/

section

namespace Wedb.Alp

def bitAt (mem : Memory) (j : ℕ) : Bool := (mem (j / 8)).toNat.testBit (j % 8)

def store (mem : Memory) (off bytes v : ℕ) : Memory := fun i =>
  if off ≤ i ∧ i < off + bytes then UInt8.ofNat (v >>> (8 * (i - off))) else mem i

/-- The bits from `start` on are those of a number. -/
def HoldsBits (mem : Memory) (start width v : ℕ) : Prop :=
  ∀ b < width, bitAt mem (start + b) = v.testBit b

/-- The fields of one width from `start` on are the values. -/
def HoldsFields (mem : Memory) (start width count : ℕ) (val : ℕ → ℕ) : Prop :=
  ∀ k < count, HoldsBits mem (start + k * width) width (val k)

/-- Nothing below a bit has changed. -/
def SameBelow (mem mem' : Memory) (limit : ℕ) : Prop := ∀ j < limit, bitAt mem' j = bitAt mem j

variable {mem mem' mem'' : Memory} {off bytes start width count limit v : ℕ} {val : ℕ → ℕ}

theorem bitAt_store (j : ℕ) : bitAt (store mem off bytes v) j =
    if 8 * off ≤ j ∧ j < 8 * (off + bytes) then v.testBit (j - 8 * off) else bitAt mem j := by
  have hin : off ≤ j / 8 ∧ j / 8 < off + bytes ↔ 8 * off ≤ j ∧ j < 8 * (off + bytes) := by omega
  rw [bitAt, store]
  by_cases hj : 8 * off ≤ j ∧ j < 8 * (off + bytes)
  · have hsub : 8 * (j / 8 - off) + j % 8 = j - 8 * off := by omega
    rw [if_pos (hin.mpr hj), if_pos hj, UInt8.toNat_ofNat', Nat.testBit_mod_two_pow,
      Nat.testBit_shiftRight, hsub, decide_eq_true (Nat.mod_lt j (by decide)), Bool.true_and]
  · rw [if_neg (fun h => hj (hin.mp h)), if_neg hj, bitAt]

theorem testBit_fromLe (mem : Memory) (off bytes j : ℕ) :
    (fromLe mem off bytes).testBit j = (decide (j < 8 * bytes) && bitAt mem (8 * off + j)) := by
  induction bytes generalizing off j with
  | zero => simp [fromLe]
  | succ bytes ih =>
    have hbyte : (mem off).toNat < 2 ^ 8 := (mem off).toNat_lt
    have hsum : fromLe mem off (bytes + 1) =
        2 ^ 8 * fromLe mem (off + 1) bytes + (mem off).toNat := by
      rw [fromLe]
      ring
    rw [hsum, Nat.testBit_two_pow_mul_add _ hbyte]
    by_cases hj : j < 8
    · have hdiv : (8 * off + j) / 8 = off := by omega
      have hmod : (8 * off + j) % 8 = j := by omega
      rw [if_pos hj, bitAt, hdiv, hmod, decide_eq_true (by omega), Bool.true_and]
    · have hnext : 8 * (off + 1) + (j - 8) = 8 * off + j := by omega
      rw [if_neg hj, ih, hnext]
      congr 1
      exact decide_eq_decide.mpr (by omega)

theorem fromLe_lt (mem : Memory) (off bytes : ℕ) : fromLe mem off bytes < 2 ^ (8 * bytes) := by
  apply Nat.lt_pow_two_of_testBit
  intro j hj
  rw [testBit_fromLe, decide_eq_false (by omega), Bool.false_and]

/-! ## Stores -/

theorem SameBelow.refl : SameBelow mem mem limit := fun _ _ => rfl

theorem SameBelow.trans (hfirst : SameBelow mem mem' limit)
    (hsecond : SameBelow mem' mem'' limit) : SameBelow mem mem'' limit :=
  fun j hj => (hsecond j hj).trans (hfirst j hj)

theorem SameBelow.mono {low : ℕ} (h : SameBelow mem mem' limit) (hle : low ≤ limit) :
    SameBelow mem mem' low :=
  fun j hj => h j (hj.trans_le hle)

theorem sameBelow_store (hle : limit ≤ 8 * off) :
    SameBelow mem (store mem off bytes v) limit := by
  intro j hj
  rw [bitAt_store, if_neg (by omega)]

theorem HoldsBits.of_sameBelow (limit : ℕ) (h : HoldsBits mem start width v)
    (hsame : SameBelow mem mem' limit) (hle : start + width ≤ limit) :
    HoldsBits mem' start width v :=
  fun b hb => (hsame (start + b) (by omega)).trans (h b hb)

theorem holdsBits_store (hwidth : width ≤ 8 * bytes) :
    HoldsBits (store mem off bytes v) (8 * off) width v := by
  intro b hb
  rw [bitAt_store, if_pos (by omega), Nat.add_sub_cancel_left]

theorem HoldsFields.of_sameBelow (limit : ℕ) (h : HoldsFields mem start width count val)
    (hsame : SameBelow mem mem' limit) (hle : start + count * width ≤ limit) :
    HoldsFields mem' start width count val := by
  intro k hk
  have hend : (k + 1) * width ≤ count * width := Nat.mul_le_mul_right width hk
  rw [add_one_mul] at hend
  exact (h k hk).of_sameBelow limit hsame (by omega)

theorem holdsFields_zero : HoldsFields mem start width 0 val := fun k hk => absurd hk (by omega)

theorem HoldsFields.succ (h : HoldsFields mem start width count val)
    (hlast : HoldsBits mem (start + count * width) width (val count)) :
    HoldsFields mem start width (count + 1) val := by
  intro k hk
  rcases Nat.lt_succ_iff_lt_or_eq.mp hk with hlt | rfl
  · exact h k hlt
  · exact hlast

theorem HoldsFields.append (count more : ℕ) (h : HoldsFields mem start width count val)
    (hmore : HoldsFields mem (start + count * width) width more fun k => val (count + k)) :
    HoldsFields mem start width (count + more) val := by
  intro k hk
  by_cases hlt : k < count
  · exact h k hlt
  · have hpos := hmore (k - count) (by omega)
    have hstart : start + count * width + (k - count) * width = start + k * width := by
      rw [add_assoc, ← add_mul, Nat.add_sub_cancel' (by omega)]
    have hval : count + (k - count) = k := by omega
    rw [hstart] at hpos
    simp only [hval] at hpos
    exact hpos

/-! ## Fields joined in one number -/

def joined (width : ℕ) (val : ℕ → ℕ) : ℕ → ℕ
  | 0 => 0
  | count + 1 => joined width val count ||| val count <<< (count * width)

theorem testBit_eq_false_of_fits {b : ℕ} (hfits : v < 2 ^ width) (hb : width ≤ b) :
    v.testBit b = false :=
  Nat.testBit_lt_two_pow (hfits.trans_le (Nat.pow_le_pow_right (by decide) hb))

theorem joined_lt (hfits : ∀ k < count, val k < 2 ^ width) :
    joined width val count < 2 ^ (count * width) := by
  induction count with
  | zero => simp [joined]
  | succ count ih =>
    have hinit := ih fun k hk => hfits k (by omega)
    have hlast := hfits count (by omega)
    rw [joined, add_one_mul]
    apply Nat.or_lt_two_pow
    · exact hinit.trans_le (Nat.pow_le_pow_right (by decide) (by omega))
    · rw [Nat.shiftLeft_eq, pow_add, mul_comm]
      exact Nat.mul_lt_mul_of_pos_left hlast (by positivity)

theorem testBit_joined (hfits : ∀ k < count, val k < 2 ^ width) {k b : ℕ} (hk : k < count)
    (hb : b < width) : (joined width val count).testBit (k * width + b) = (val k).testBit b := by
  induction count with
  | zero => omega
  | succ count ih =>
    have hinit : ∀ k < count, val k < 2 ^ width := fun k hk => hfits k (by omega)
    rw [joined, Nat.testBit_or, Nat.testBit_shiftLeft]
    rcases Nat.lt_succ_iff_lt_or_eq.mp hk with hlt | rfl
    · have hend : (k + 1) * width ≤ count * width := Nat.mul_le_mul_right width hlt
      rw [add_one_mul] at hend
      rw [ih hinit hlt, decide_eq_false (by omega), Bool.false_and, Bool.or_false]
    · rw [testBit_eq_false_of_fits (joined_lt hinit) (by omega), Bool.false_or,
        decide_eq_true (by omega), Bool.true_and, Nat.add_sub_cancel_left]

theorem HoldsBits.fields (h : HoldsBits mem start (count * width) (joined width val count))
    (hfits : ∀ k < count, val k < 2 ^ width) : HoldsFields mem start width count val := by
  intro k hk b hb
  have hend : (k + 1) * width ≤ count * width := Nat.mul_le_mul_right width hk
  rw [add_one_mul] at hend
  rw [add_assoc, h (k * width + b) (by omega), testBit_joined hfits hk hb]

end Wedb.Alp

end

/-!
## The packers

Integers are packed through stores into the spare room of the output, eight at a time for the
narrow widths, and through an accumulator of 128 bits for what is left. A store may be wider
than its field; what it leaves behind the field is replaced by the stores after it.
-/

section

namespace Wedb.Alp

def word (width count : ℕ) (o : ℕ → ℕ) : ℕ := asU64 (joined width o count)

section Pack

variable (w : ℕ) (o : ℕ → ℕ)

/-! ## Eight integers -/

def packBytes (perByte : ℕ) (mem : Memory) (p : ℕ) : Memory :=
  store mem p w
    (joined 8 (fun i => joined w (fun k => o (perByte * i + k) % 2 ^ 8 &&& bitMask w) perByte) w)

def packWord (bytes : ℕ) (mem : Memory) (p : ℕ) : Memory := store mem p bytes (word w 8 o)

def packHalves (highBytes : ℕ) (mem : Memory) (p : ℕ) : Memory :=
  let w0 := word w 4 o
  let w1 := word w 4 fun k => o (4 + k)
  let low := w0 ||| asU64 (w1 <<< (4 * w))
  let high := w1 >>> (64 - 4 * w)
  store (store mem p 8 low) (p + 8) highBytes high

def packTwoWords (mem : Memory) (p : ℕ) : Memory :=
  let w0 := word w 4 o
  let w1 := word w 4 fun k => o (4 + k)
  store (store mem p 8 w0) (p + w / 2) 8 w1

def pack8Unrolled (mem : Memory) (p : ℕ) : Memory :=
  match w with
  | 1 => packBytes 1 o 8 mem p
  | 2 => packBytes 2 o 4 mem p
  | 3 => packWord 3 o 4 mem p
  | 4 => packBytes 4 o 2 mem p
  | 5 => packWord 5 o 8 mem p
  | 6 => packWord 6 o 8 mem p
  | 7 => packWord 7 o 8 mem p
  | 8 => packWord 8 o 8 mem p
  | 9 => packHalves 9 o 1 mem p
  | 10 => packTwoWords 10 o mem p
  | 11 => packHalves 11 o 4 mem p
  | 12 => packTwoWords 12 o mem p
  | 13 => packHalves 13 o 8 mem p
  | 14 => packTwoWords 14 o mem p
  | 15 => packHalves 15 o 8 mem p
  | 16 => packTwoWords 16 o mem p
  | _ => mem

def packPairs (mem : Memory) (p : ℕ) : Memory :=
  let pair := fun i => word w 2 fun k => o (2 * i + k)
  let step := w / 4
  store (store (store (store mem p 8 (pair 0)) (p + step) 8 (pair 1)) (p + 2 * step) 8 (pair 2))
    (p + 3 * step) 8 (pair 3)

def packW24 (mem : Memory) (p : ℕ) : Memory :=
  let w0 := o 0 ||| asU64 (o 1 <<< 24) ||| asU64 (o 2 <<< 48)
  let w1 := o 2 >>> 16 ||| asU64 (o 3 <<< 8) ||| asU64 (o 4 <<< 32) ||| asU64 (o 5 <<< 56)
  let w2 := o 5 >>> 8 ||| asU64 (o 6 <<< 16) ||| asU64 (o 7 <<< 40)
  store (store (store mem p 8 w0) (p + 8) 8 w1) (p + 16) 8 w2

def storeAt (v b : ℕ) (mem : Memory) (p : ℕ) : Memory :=
  let byteIdx := b / 8
  let shift := b % 8
  if shift = 0 then store mem (p + byteIdx) 8 v
  else store mem (p + byteIdx) 8 (asU64 (v <<< shift) ||| (mem (p + byteIdx)).toNat)

def writePair (pair w2 b : ℕ) (mem : Memory) (p : ℕ) : Memory :=
  let shift := b % 8
  if shift ≠ 0 ∧ 64 < w2 + shift then
    store (storeAt pair b mem p) (p + b / 8 + 8) 1 (pair >>> (64 - shift))
  else storeAt pair b mem p

def pack8W17ToW32 (mem : Memory) (p : ℕ) : Memory :=
  let pair := fun i => word w 2 fun k => o (2 * i + k)
  let mem := writePair (pair 0) (w * 2) 0 mem p
  let mem := writePair (pair 1) (w * 2) (w * 2) mem p
  let mem := writePair (pair 2) (w * 2) (w * 4) mem p
  writePair (pair 3) (w * 2) (w * 6) mem p

def pack8W33ToW48 (mem : Memory) (p : ℕ) : Memory :=
  (List.range 8).foldl (fun mem i => storeAt (o i) (i * w) mem p) mem

def packChunk8 (mem : Memory) (p : ℕ) : Memory :=
  if 1 ≤ w ∧ w ≤ 16 then pack8Unrolled w o mem p
  else if w = 20 then packPairs 20 o mem p
  else if w = 24 then packW24 o mem p
  else if w = 28 then packPairs 28 o mem p
  else if w = 32 then packPairs 32 o mem p
  else if 17 ≤ w ∧ w ≤ 31 then pack8W17ToW32 w o mem p
  else pack8W33ToW48 w o mem p

def packChunks (mem : Memory) : ℕ → Memory
  | 0 => mem
  | chunks + 1 => packChunk8 w (fun k => o (8 * chunks + k)) (packChunks mem chunks) (w * chunks)

/-! ## The accumulator -/

structure Pending where
  mem : Memory
  dstPtr : ℕ
  acc : ℕ
  bits : ℕ

def asU128 (n : ℕ) : ℕ := n % 2 ^ 128

def Pending.word (s : Pending) : Pending :=
  ⟨store s.mem s.dstPtr 8 (asU64 s.acc), s.dstPtr + 8, s.acc >>> 64, s.bits - 64⟩

def pushBitsToStream (s : Pending) (val : ℕ) : Pending :=
  let s := { s with acc := s.acc ||| asU128 (val <<< s.bits), bits := s.bits + w }
  if 64 ≤ s.bits then s.word else s

def flushRemainingBits (acc bits dstPtr : ℕ) (mem : Memory) : Memory :=
  if 0 < bits then
    flushRemainingBits (acc >>> 8) (bits - 8) (dstPtr + 1) (store mem dstPtr 1 acc)
  else mem
termination_by bits

def Pending.flush (s : Pending) : Memory := flushRemainingBits s.acc s.bits s.dstPtr s.mem

def packStream (mem : Memory) : ℕ → Pending
  | 0 => ⟨mem, 0, 0, 0⟩
  | count + 1 => pushBitsToStream w (packStream mem count) (o count)

def Pending.words (s : Pending) : Pending :=
  if 64 ≤ s.bits then s.word.words else s
termination_by s.bits
decreasing_by simp only [Pending.word]; omega

def packRemPending (mem : Memory) (p : ℕ) : ℕ → Pending
  | 0 => ⟨mem, p, 0, 0⟩
  | count + 1 =>
    let s := packRemPending mem p count
    Pending.words
      { s with acc := s.acc ||| asU128 ((o count &&& bitMask w) <<< s.bits), bits := s.bits + w }

def packRem (count : ℕ) (mem : Memory) (p : ℕ) : Memory := (packRemPending w o mem p count).flush

/-! ## One integer at a time -/

def packStrided (stride : ℕ) (mem : Memory) : ℕ → Memory
  | 0 => mem
  | count + 1 => store (packStrided stride mem count) (stride * count) 8 (o count)

def pack52Pairs (mem : Memory) : ℕ → Memory
  | 0 => mem
  | pairs + 1 =>
    let v0 := o (2 * pairs)
    let v1 := o (2 * pairs + 1)
    let w0 := v0 ||| asU64 (v1 <<< 52)
    let w1 := v1 >>> 12
    store (store (pack52Pairs mem pairs) (13 * pairs) 8 w0) (13 * pairs + 8) 8 w1

def pack52 (count : ℕ) (mem : Memory) : Memory :=
  if count % 2 = 1 then
    store (pack52Pairs o mem (count / 2)) (13 * (count / 2)) 7 (o (count - 1))
  else pack52Pairs o mem (count / 2)

def packNarrow (masked : ℕ → ℕ) (count : ℕ) (mem : Memory) : Memory :=
  let mem := packChunks w masked mem (count / 8)
  if 0 < count % 8 then
    packRem w (fun k => o (count / 8 * 8 + k)) (count % 8) mem (w * (count / 8))
  else mem

end Pack

/-! ## The packers -/

def setLen (dst : List UInt8) (mem : Memory) (totalBytes : ℕ) : List UInt8 :=
  dst ++ (List.range totalBytes).map mem

/-- The spare room of the output holds any bytes before the call. -/
def bitpackU64 (spare : Memory) (values : List ℕ) (w : ℕ) (dst : List UInt8) : List UInt8 :=
  let count := values.length
  let value := fun i => values.getD i 0
  let masked := fun i => value i &&& bitMask w
  if count = 0 ∨ w = 0 then dst
  else
    let mem :=
      if w ≤ 48 then packNarrow w value masked count spare
      else if w = 56 then packStrided value 7 spare count
      else if w = 52 then pack52 value count spare
      else if w = 64 then packStrided value 8 spare count
      else (packStream w masked spare count).flush
    setLen dst mem (packedByteSize count w)

section Ints

variable {m : ℕ}

def intDiffToU64 (val base : BitVec m) : ℕ := (val - base).toNat

def u64ToIntAdd (offset : ℕ) (base : BitVec m) : BitVec m := BitVec.ofNat m offset + base

def bitpackEncoded (spare : Memory) (encodedInts : List (BitVec m)) (base : BitVec m) (w : ℕ)
    (dst : List UInt8) : List UInt8 :=
  let count := encodedInts.length
  let offset := fun i => intDiffToU64 (encodedInts.getD i 0) base
  if count = 0 ∨ w = 0 then dst
  else
    let mem :=
      if w ≤ 48 then packNarrow w offset offset count spare
      else if w = 56 then packStrided offset 7 spare count
      else if w = 52 then pack52 offset count spare
      else if w = 64 then packStrided offset 8 spare count
      else (packStream w offset spare count).flush
    setLen dst mem (packedByteSize count w)

def deltaOffset (rawInts : List (BitVec m)) (minDelta : BitVec m) (i : ℕ) : ℕ :=
  intDiffToU64 (rawInts.getD (i + 1) 0 - rawInts.getD i 0) minDelta

def bitpackFusedDelta (spare : Memory) (rawInts : List (BitVec m)) (minDelta : BitVec m) (w : ℕ)
    (dst : List UInt8) : List UInt8 :=
  let deltasLen := rawInts.length - 1
  let offset := deltaOffset rawInts minDelta
  if rawInts.length ≤ 1 ∨ w = 0 then dst
  else
    let mem :=
      if w ≤ 48 then packNarrow w offset offset deltasLen spare
      else if w = 64 then packStrided offset 8 spare deltasLen
      else (packStream w offset spare deltasLen).flush
    setLen dst mem (packedByteSize deltasLen w)

end Ints

end Wedb.Alp

end
