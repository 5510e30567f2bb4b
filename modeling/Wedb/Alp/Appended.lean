import Wedb.Alp.Packed

/-!
# What a packer appends

The accumulator holds the end of the stream that has not been stored. With it the packers of
every width append the fields of their integers in as many bytes as these need.
-/

namespace Wedb.Alp

variable {mem mem' : Memory} {w count start : ℕ} {o : ℕ → ℕ} {s : Pending}

/-! ## The accumulator -/

def Pending.bit (s : Pending) (j : ℕ) : Bool :=
  if j < 8 * s.dstPtr then bitAt s.mem j else s.acc.testBit (j - 8 * s.dstPtr)

def Pending.position (s : Pending) : ℕ := 8 * s.dstPtr + s.bits

/-- The accumulator holds only bits that are counted. -/
def Pending.Tight (s : Pending) : Prop := s.acc < 2 ^ s.bits

theorem Pending.bit_word (j : ℕ) : s.word.bit j = s.bit j := by
  rw [Pending.bit, Pending.bit, Pending.word]
  simp only [bitAt_store]
  by_cases hstored : j < 8 * s.dstPtr
  · rw [if_pos (by omega), if_neg (by omega), if_pos hstored]
  · rw [if_neg hstored]
    split_ifs with hnow hin
    · rw [testBit_asU64, decide_eq_true (by omega), Bool.true_and]
    · omega
    · rw [Nat.testBit_shiftRight]
      congr 1
      omega

theorem Pending.position_word (h : 64 ≤ s.bits) : s.word.position = s.position := by
  rw [Pending.position, Pending.position, Pending.word]
  simp only
  omega

theorem Pending.Tight.word (h : s.Tight) (hbits : 64 ≤ s.bits) : s.word.Tight := by
  rw [Pending.Tight, Pending.word]
  simp only
  rw [Nat.shiftRight_eq_div_pow, Nat.div_lt_iff_lt_mul (by positivity), ← pow_add,
    Nat.sub_add_cancel hbits]
  exact h

/-- The stream after `count` integers from bit `start` on. -/
structure Pending.Stream (s : Pending) (mem : Memory) (start w count : ℕ) (o : ℕ → ℕ) :
    Prop where
  tight : s.Tight
  bits_lt : s.bits < 64
  position : s.position = start + count * w
  same : ∀ j < start, s.bit j = bitAt mem j
  fields : ∀ k < count, ∀ b < w, s.bit (start + k * w + b) = (o k).testBit b

theorem Pending.stream_zero (p : ℕ) : Pending.Stream ⟨mem, p, 0, 0⟩ mem (8 * p) w 0 o :=
  ⟨by simp [Pending.Tight], by simp, by simp [Pending.position],
    fun j hj => by simp [Pending.bit, hj], fun k hk => by omega⟩

theorem pushBitsToStream_stream (h : s.Stream mem start w count o) (hw : w ≤ 64)
    (hfits : o count < 2 ^ w) :
    (pushBitsToStream w s (o count)).Stream mem start w (count + 1) o := by
  obtain ⟨htight, hbits, hpos, hsame, hfields⟩ := h
  have hshift : o count <<< s.bits < 2 ^ (s.bits + w) := by
    rw [Nat.shiftLeft_eq, pow_add, mul_comm]
    exact Nat.mul_lt_mul_of_pos_left hfits (by positivity)
  have hfull : asU128 (o count <<< s.bits) = o count <<< s.bits :=
    Nat.mod_eq_of_lt (hshift.trans_le (Nat.pow_le_pow_right (by decide) (by omega)))
  have hpushed : pushBitsToStream w s (o count) =
      if 64 ≤ s.bits + w then
        Pending.word ⟨s.mem, s.dstPtr, s.acc ||| o count <<< s.bits, s.bits + w⟩
      else ⟨s.mem, s.dstPtr, s.acc ||| o count <<< s.bits, s.bits + w⟩ := by
    rw [pushBitsToStream, hfull]
  have hor : s.acc ||| o count <<< s.bits < 2 ^ (s.bits + w) :=
    Nat.or_lt_two_pow (htight.trans_le (Nat.pow_le_pow_right (by decide) (by omega))) hshift
  have hbit : ∀ j < s.position + w,
      Pending.bit ⟨s.mem, s.dstPtr, s.acc ||| o count <<< s.bits, s.bits + w⟩ j =
        if j < s.position then s.bit j else (o count).testBit (j - s.position) := by
    intro j hj
    rw [Pending.position] at hj ⊢
    rw [Pending.bit, Pending.bit]
    simp only
    split_ifs with hstored hlt
    · rfl
    · omega
    · rw [Nat.testBit_or, Nat.testBit_shiftLeft, decide_eq_false (by omega), Bool.false_and,
        Bool.or_false]
    · have hidx : j - 8 * s.dstPtr - s.bits = j - (8 * s.dstPtr + s.bits) := by omega
      rw [Nat.testBit_or, Nat.testBit_shiftLeft, testBit_eq_false_of_fits htight (by omega),
        Bool.false_or, decide_eq_true (by omega), Bool.true_and, hidx]
  have hend : start + count * w + w = start + (count + 1) * w := by
    rw [add_one_mul, add_assoc]
  have hstream : ∀ s' : Pending, s'.Tight → s'.bits < 64 → s'.position = s.position + w →
      (∀ j < s.position + w, s'.bit j =
        if j < s.position then s.bit j else (o count).testBit (j - s.position)) →
      s'.Stream mem start w (count + 1) o := by
    intro s' htight' hbits' hpos' hbit'
    refine ⟨htight', hbits', by omega, ?_, ?_⟩
    · intro j hj
      rw [hbit' j (by omega), if_pos (by omega), hsame j hj]
    · intro k hk b hb
      rcases Nat.lt_succ_iff_lt_or_eq.mp hk with hlt | rfl
      · have hnext : (k + 1) * w ≤ count * w := Nat.mul_le_mul_right w hlt
        rw [add_one_mul] at hnext
        rw [hbit' _ (by omega), if_pos (by omega), hfields k hlt b hb]
      · rw [hbit' _ (by omega), if_neg (by omega), hpos, Nat.add_sub_cancel_left]
  rw [hpushed]
  split_ifs with hfullWord
  · refine hstream _ (Pending.Tight.word hor hfullWord) ?_ ?_ ?_
    · rw [Pending.word]
      simp only
      omega
    · rw [Pending.position_word hfullWord, Pending.position, Pending.position]
      simp only
      omega
    · intro j hj
      rw [Pending.bit_word, hbit j hj]
  · refine hstream _ hor ?_ ?_ hbit
    · simp only
      omega
    · rw [Pending.position, Pending.position]
      simp only
      omega

theorem packStream_stream (hw : w ≤ 64) (hfits : ∀ k < count, o k < 2 ^ w) :
    (packStream w o mem count).Stream mem 0 w count o := by
  induction count with
  | zero => exact Pending.stream_zero 0
  | succ count ih =>
    exact pushBitsToStream_stream (ih fun k hk => hfits k (by omega)) hw (hfits count (by omega))

theorem Pending.words_of_lt (h : s.bits < 128) : s.words = if 64 ≤ s.bits then s.word else s := by
  rw [Pending.words]
  split_ifs with hfull
  · rw [Pending.words, if_neg]
    rw [Pending.word]
    simp only
    omega
  · rfl

theorem packRemPending_stream (p : ℕ) (hw : w ≤ 64) (hfits : ∀ k < count, o k < 2 ^ w) :
    (packRemPending w o mem p count).Stream mem (8 * p) w count o := by
  induction count with
  | zero => exact Pending.stream_zero p
  | succ count ih =>
    have hinit := ih fun k hk => hfits k (by omega)
    have hlast := hfits count (by omega)
    have hbits := hinit.bits_lt
    have hstep : packRemPending w o mem p (count + 1) =
        pushBitsToStream w (packRemPending w o mem p count) (o count) := by
      rw [packRemPending, Pending.words_of_lt (by simp only; omega), masked_eq hlast,
        pushBitsToStream]
    rw [hstep]
    exact pushBitsToStream_stream hinit hw hlast

theorem bitAt_flush (s : Pending) {j : ℕ} (hj : j < s.position) :
    bitAt s.flush j = s.bit j := by
  obtain ⟨mem, p, acc, bits⟩ := s
  rw [Pending.position] at hj
  rw [Pending.flush, Pending.bit]
  simp only at hj ⊢
  induction bits using Nat.strong_induction_on generalizing mem p acc with
  | _ bits ih =>
    rw [flushRemainingBits]
    by_cases hleft : 0 < bits
    · rw [if_pos hleft]
      by_cases hmore : 8 < bits
      · rw [ih (bits - 8) (by omega) _ _ _ (by omega), bitAt_store, Nat.testBit_shiftRight]
        split_ifs <;> first | omega | rfl | (congr 1; omega)
      · have hdone : bits - 8 = 0 := by omega
        rw [hdone, flushRemainingBits, if_neg (by decide), bitAt_store]
        split_ifs <;> first | omega | rfl
    · rw [if_neg hleft, if_pos (by omega)]

theorem Pending.Stream.flush_fields (h : s.Stream mem start w count o) :
    SameBelow mem s.flush start ∧ HoldsFields s.flush start w count o := by
  have hpos := h.position
  constructor
  · intro j hj
    rw [bitAt_flush s (by omega), h.same j hj]
  · intro k hk b hb
    have hnext : (k + 1) * w ≤ count * w := Nat.mul_le_mul_right w hk
    rw [add_one_mul] at hnext
    rw [bitAt_flush s (by omega), h.fields k hk b hb]

/-! ## One width -/

theorem packNarrow_fields {masked : ℕ → ℕ} (hmasked : ∀ k < count, masked k = o k)
    (hfits : ∀ k < count, o k < 2 ^ w) (hpos : 1 ≤ w) (hw : w ≤ 48) :
    HoldsFields (packNarrow w o masked count mem) 0 w count o := by
  have hchunks : HoldsFields (packChunks w masked mem (count / 8)) 0 w (8 * (count / 8)) o := by
    have hmask : HoldsFields (packChunks w masked mem (count / 8)) 0 w (8 * (count / 8)) masked :=
      packChunks_fields _ (fun k hk => by rw [hmasked k (by omega)]; exact hfits k (by omega))
        hpos hw
    intro k hk
    exact hmasked k (by omega) ▸ hmask k hk
  have hsplit : 8 * (count / 8) + count % 8 = count := Nat.div_add_mod count 8
  rw [packNarrow]
  split_ifs with hrem
  · have hstream := @packRemPending_stream (packChunks w masked mem (count / 8)) w (count % 8)
      (fun k => o (count / 8 * 8 + k)) (w * (count / 8)) (by omega)
      (fun k hk => hfits _ (by omega))
    obtain ⟨hsame, hfields⟩ := hstream.flush_fields
    have hstart : 8 * (w * (count / 8)) = 0 + 8 * (count / 8) * w := by ring
    rw [hstart] at hfields hsame
    have hall := HoldsFields.append (8 * (count / 8)) (count % 8)
      (hchunks.of_sameBelow _ hsame le_rfl) (by rw [mul_comm 8]; exact mul_comm 8 _ ▸ hfields)
    rw [hsplit] at hall
    exact hall
  · have hwhole : 8 * (count / 8) = count := by omega
    rw [hwhole] at hchunks
    exact hchunks

theorem packStrided_fields {stride : ℕ} (hstride : 8 * stride = w) (hw : w ≤ 64) :
    HoldsFields (packStrided o stride mem count) 0 w count o := by
  induction count with
  | zero => exact holdsFields_zero
  | succ count ih =>
    have hstart : 8 * (stride * count) = 0 + count * w := by
      rw [← hstride]
      ring
    rw [packStrided]
    refine HoldsFields.succ (ih.of_sameBelow _ (sameBelow_store hstart.ge) le_rfl) ?_
    exact hstart ▸ holdsBits_store (by omega)

theorem pack52Pairs_fields {pairs : ℕ} (hfits : ∀ k < 2 * pairs, o k < 2 ^ 52) :
    HoldsFields (pack52Pairs o mem pairs) 0 52 (2 * pairs) o := by
  induction pairs with
  | zero => exact holdsFields_zero
  | succ pairs ih =>
    have hfirst := hfits (2 * pairs) (by omega)
    have hinit := ih fun k hk => hfits k (by omega)
    rw [pack52Pairs, mul_add_one]
    have hbit : ∀ j < 104, bitAt (store (store (pack52Pairs o mem pairs) (13 * pairs) 8
        (o (2 * pairs) ||| asU64 (o (2 * pairs + 1) <<< 52))) (13 * pairs + 8) 8
        (o (2 * pairs + 1) >>> 12)) (8 * (13 * pairs) + j) =
        ((o (2 * pairs)).testBit j ||
          (decide (52 ≤ j) && (o (2 * pairs + 1)).testBit (j - 52))) := by
      intro j hj
      rw [bitAt_store]
      by_cases hlow : j < 64
      · rw [if_neg (by omega), bitAt_store, if_pos (by omega), Nat.add_sub_cancel_left,
          Nat.testBit_or, testBit_asU64, Nat.testBit_shiftLeft, decide_eq_true hlow,
          Bool.true_and]
      · have hidx : 12 + (8 * (13 * pairs) + j - 8 * (13 * pairs + 8)) = j - 52 := by omega
        rw [if_pos (by omega), Nat.testBit_shiftRight, hidx,
          testBit_eq_false_of_fits hfirst (by omega), decide_eq_true (by omega : 52 ≤ j),
          Bool.true_and, Bool.false_or]
    refine HoldsFields.append (2 * pairs) 2 ?_ ?_
    · refine hinit.of_sameBelow (8 * (13 * pairs)) ?_ (by omega)
      exact (sameBelow_store le_rfl).trans (sameBelow_store (by omega))
    · intro k hk b hb
      have hpos : 0 + 2 * pairs * 52 + k * 52 + b = 8 * (13 * pairs) + (k * 52 + b) := by ring
      rw [hpos, hbit _ (by omega)]
      interval_cases k
      · rw [decide_eq_false (by omega), Bool.false_and, Bool.or_false]
        congr 1
        omega
      · rw [testBit_eq_false_of_fits hfirst (by omega), Bool.false_or, decide_eq_true (by omega),
          Bool.true_and]
        congr 1
        omega

theorem pack52_fields (hfits : ∀ k < count, o k < 2 ^ 52) :
    HoldsFields (pack52 o count mem) 0 52 count o := by
  have hpairs := @pack52Pairs_fields mem o (count / 2) fun k hk => hfits k (by omega)
  rw [pack52]
  split_ifs with hodd
  · have hcount : 2 * (count / 2) + 1 = count := by omega
    have hlast : count - 1 = 2 * (count / 2) := by omega
    have hall : HoldsFields (store (pack52Pairs o mem (count / 2)) (13 * (count / 2)) 7
        (o (count - 1))) 0 52 (2 * (count / 2) + 1) o := by
      refine HoldsFields.succ (hpairs.of_sameBelow _ (sameBelow_store ?_) le_rfl) ?_
      · omega
      · have hstart : 0 + 2 * (count / 2) * 52 = 8 * (13 * (count / 2)) := by ring
        rw [hstart, hlast]
        exact holdsBits_store (by decide)
    rw [hcount] at hall
    exact hall
  · have hcount : 2 * (count / 2) = count := by omega
    rw [hcount] at hpairs
    exact hpairs

end Wedb.Alp
