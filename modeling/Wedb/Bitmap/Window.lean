import Wedb.Bitmap.Arithmetic

/-!
# The window of a field

Bits are numbered from the greatest of the first byte on. A field is read off the window as
the number that its bits write, and a value that is set changes these bits alone.
-/

namespace Wedb.Bitfield

def fieldOf (bit : ℕ → Bool) (start : ℕ) : ℕ → ℕ
  | 0 => 0
  | n + 1 => 2 * fieldOf bit start n + (bit (start + n)).toNat

section fieldOf

variable {bit bit' : ℕ → Bool} {start : ℕ}

theorem fieldOf_lt (n : ℕ) : fieldOf bit start n < 2 ^ n := by
  induction n with
  | zero => simp [fieldOf]
  | succ n ih =>
    have hbit := Bool.toNat_le (bit (start + n))
    rw [fieldOf, pow_succ]
    omega

theorem fieldOf_testBit (n i : ℕ) :
    (fieldOf bit start n).testBit i = (decide (i < n) && bit (start + n - 1 - i)) := by
  induction n generalizing i with
  | zero => simp [fieldOf]
  | succ n ih =>
    have hbit := Bool.toNat_le (bit (start + n))
    cases i with
    | zero =>
      rw [fieldOf, Nat.testBit_zero]
      cases hb : bit (start + n) <;> simp [hb, Nat.add_mod]
    | succ i =>
      have hdiv : (2 * fieldOf bit start n + (bit (start + n)).toNat) / 2 = fieldOf bit start n := by
        omega
      rw [fieldOf, Nat.testBit_succ, hdiv, ih,
        (by omega : start + (n + 1) - 1 - (i + 1) = start + n - 1 - i)]
      simp

theorem fieldOf_congr {n : ℕ} (h : ∀ i < n, bit (start + i) = bit' (start + i)) :
    fieldOf bit start n = fieldOf bit' start n := by
  induction n with
  | zero => rfl
  | succ n ih => rw [fieldOf, fieldOf, h n (Nat.lt_succ_self n), ih fun i hi => h i (by omega)]

theorem fieldOf_shift (first n : ℕ) :
    fieldOf (fun j => bit (first + j)) start n = fieldOf bit (first + start) n := by
  induction n with
  | zero => rfl
  | succ n ih => rw [fieldOf, fieldOf, ih, Nat.add_assoc]

end fieldOf

theorem testBit_beNat (bs : Bytes) {j : ℕ} (hj : j < 8 * bs.length) :
    (beNat bs).testBit (8 * bs.length - 1 - j) = (bs.getD (j / 8) 0).toNat.testBit (7 - j % 8) := by
  induction bs generalizing j with
  | nil => simp at hj
  | cons b bs ih =>
    have hpow : 256 ^ bs.length = 2 ^ (8 * bs.length) := (pow_mul 2 8 bs.length).symm
    have hrest : beNat bs < 2 ^ (8 * bs.length) := hpow ▸ beNat_lt bs
    rw [List.length_cons] at hj ⊢
    rw [beNat, hpow, Nat.mul_comm, Nat.testBit_two_pow_mul_add _ hrest]
    by_cases hfirst : j < 8
    · rw [if_neg (by omega), Nat.div_eq_of_lt hfirst, Nat.mod_eq_of_lt hfirst, List.getD_cons_zero,
        (by omega : 8 * (bs.length + 1) - 1 - j - 8 * bs.length = 7 - j)]
    · have hdiv : j / 8 = (j - 8) / 8 + 1 := by omega
      have hmod : j % 8 = (j - 8) % 8 := by omega
      rw [if_pos (by omega), hdiv, hmod, List.getD_cons_succ, ← ih (by omega),
        (by omega : 8 * (bs.length + 1) - 1 - j = 8 * bs.length - 1 - (j - 8))]

namespace ArrayBitfieldBitmap

variable {view : ArrayBitfieldBitmap} {o n : ℕ}

def bit (view : ArrayBitfieldBitmap) (j : ℕ) : Bool :=
  (view.buf.getD (j / 8) 0).toNat.testBit (7 - j % 8)

theorem bit_eq (view : ArrayBitfieldBitmap) {j : ℕ} (hj : j < 72) :
    view.bit j = (beNat view.buf).testBit (71 - j) := by
  have hbit := testBit_beNat view.buf (j := j) (by rw [view.size_eq]; omega)
  rw [view.size_eq] at hbit
  exact hbit.symm

theorem bitMask_testBit (bits i : ℕ) : (bitMask bits).testBit i = decide (i < bits) := by
  rw [bitMask]
  split_ifs with hbits
  · rw [hbits, Nat.testBit_two_pow_sub_one]
  · rw [Nat.testBit_two_pow_sub_one]

theorem not_outside (hview : view.byteOffset = o / 8) (hpos : 1 ≤ n) (hle : n ≤ 64) :
    ¬view.Outside o n := by
  unfold Outside
  omega

theorem shift_eq (hview : view.byteOffset = o / 8) : view.shift o n = 72 - o % 8 - n := by
  rw [shift, hview]
  omega

theorem readRawBitfield_eq (hview : view.byteOffset = o / 8) (hpos : 1 ≤ n) (hle : n ≤ 64) :
    view.readRawBitfield o n = .ok (fieldOf view.bit (o % 8) n) := by
  rw [readRawBitfield, if_neg (not_outside hview hpos hle), shift_eq hview]
  refine congrArg Except.ok (Nat.eq_of_testBit_eq fun i => ?_)
  rw [Nat.testBit_and, bitMask_testBit, Nat.testBit_mod_two_pow, Nat.testBit_shiftRight,
    fieldOf_testBit]
  by_cases hi : i < n
  · have hin : i < 64 := by omega
    rw [view.bit_eq (by omega), (by omega : 71 - (o % 8 + n - 1 - i) = 72 - o % 8 - n + i)]
    simp [hi, hin]
  · simp [hi]

theorem setBitfield_spec (hview : view.byteOffset = o / 8) (hpos : 1 ≤ n) (hle : n ≤ 64)
    (value : ℕ) :
    ∃ view', view.setBitfield o n value = .ok view' ∧ view'.byteOffset = view.byteOffset ∧
      ∀ j < 72, view'.bit j =
        if o % 8 ≤ j ∧ j < o % 8 + n then value.testBit (o % 8 + n - 1 - j) else view.bit j := by
  rw [setBitfield, if_neg (not_outside hview hpos hle), shift_eq hview]
  refine ⟨_, rfl, rfl, fun j hj => ?_⟩
  have hmask : bitMask n <<< (72 - o % 8 - n) < 2 ^ 128 := by
    have hbound : bitMask n < 2 ^ n := by
      refine Nat.lt_pow_two_of_testBit _ fun i hi => ?_
      rw [bitMask_testBit, decide_eq_false (not_lt.mpr hi)]
    rw [Nat.shiftLeft_eq]
    calc bitMask n * 2 ^ (72 - o % 8 - n) < 2 ^ n * 2 ^ (72 - o % 8 - n) :=
          Nat.mul_lt_mul_of_pos_right hbound (Nat.two_pow_pos _)
      _ = 2 ^ (72 - o % 8) := by rw [← pow_add, Nat.add_sub_cancel' (by omega)]
      _ ≤ 2 ^ 128 := Nat.pow_le_pow_right two_pos (by omega)
  have hcompl : 2 ^ 128 - 1 - bitMask n <<< (72 - o % 8 - n) =
      2 ^ 128 - (bitMask n <<< (72 - o % 8 - n) + 1) := by omega
  have hlow : decide (71 - j < 72) = true := decide_eq_true (by omega)
  have hword : decide (71 - j < 128) = true := decide_eq_true (by omega)
  rw [bit_eq _ hj, bit_eq _ hj, beNat_beBytes_mod, (by rfl : 256 ^ 9 = 2 ^ 72),
    Nat.testBit_mod_two_pow, hlow, Bool.true_and, Nat.testBit_or, Nat.testBit_and, hcompl,
    Nat.testBit_two_pow_sub_succ hmask, hword, Bool.true_and, Nat.testBit_shiftLeft,
    Nat.testBit_shiftLeft, Nat.testBit_and, bitMask_testBit]
  split_ifs with hin
  · have hge : 72 - o % 8 - n ≤ 71 - j := by omega
    have hlt : 71 - j - (72 - o % 8 - n) < n := by omega
    rw [(by omega : o % 8 + n - 1 - j = 71 - j - (72 - o % 8 - n))]
    simp [hge, hlt]
  · by_cases hge : 72 - o % 8 - n ≤ 71 - j
    · have hlt : ¬71 - j - (72 - o % 8 - n) < n := by omega
      simp [hge, hlt]
    · simp [hge]

/-- The word of the value of a field, as both kinds of fields are read. -/
theorem oldRaw_eq (op : BitfieldOperation) (hview : view.byteOffset = op.offset / 8) :
    (if op.encoding.isSigned then
        (view.getSignedBitfield op.offset op.encoding.bits).map asU64
      else view.getUnsignedBitfield op.offset op.encoding.bits) =
      .ok (asU64 (op.encoding.valueOf (fieldOf view.bit (op.offset % 8) op.encoding.bits))) := by
  have hread := readRawBitfield_eq hview op.encoding.pos op.encoding.le_word
  have hlt := @fieldOf_lt view.bit (op.offset % 8) op.encoding.bits
  have hpos := op.encoding.pos
  have hle := op.encoding.le_word
  cases hsigned : op.encoding.isSigned with
  | true =>
    rw [if_pos rfl, getSignedBitfield, if_neg (by omega), hread]
    exact congrArg (fun x => Except.ok (asU64 x)) (BitfieldEncoding.valueOf_shift hsigned hlt)
  | false =>
    have hle' := BitfieldEncoding.le_of_unsigned hsigned
    have hword := pow_le_word hle
    rw [if_neg (by simp), getUnsignedBitfield, if_neg (by omega), hread,
      BitfieldEncoding.valueOf, hsigned, if_neg (by simp), asU64_natCast (by omega)]

variable {op : BitfieldOperation} {v : ℤ}

theorem applyOp_stored (hop : op.opType ≠ .get) (hview : view.byteOffset = op.offset / 8)
    (hv : v = op.encoding.valueOf (fieldOf view.bit (op.offset % 8) op.encoding.bits)) {y : ℤ}
    (hy : op.stored v = some y) :
    ∃ view', view.applyOp op false = .ok (some (op.output v y), view') ∧
      view'.byteOffset = view.byteOffset ∧
      ∀ j < 72, view'.bit j =
        if op.offset % 8 ≤ j ∧ j < op.offset % 8 + op.encoding.bits then
          (asU64 y).testBit (op.offset % 8 + op.encoding.bits - 1 - j)
        else view.bit j := by
  have hrange : op.encoding.lo ≤ v ∧ v ≤ op.encoding.hi :=
    hv ▸ BitfieldEncoding.valueOf_range (fieldOf_lt op.encoding.bits)
  obtain ⟨view', hset, hoffset, hbits⟩ :=
    setBitfield_spec hview op.encoding.pos op.encoding.le_word (asU64 y)
  refine ⟨view', ?_, hoffset, hbits⟩
  unfold applyOp
  simp only [oldRaw_eq op hview, ← hv, Except.bind, bitfieldOpCalc_eq hop hrange, hy]
  rw [if_pos ⟨hop, by simp⟩, hset]
  rfl

theorem applyOp_failed (hop : op.opType ≠ .get) (hview : view.byteOffset = op.offset / 8)
    (hv : v = op.encoding.valueOf (fieldOf view.bit (op.offset % 8) op.encoding.bits))
    (hnone : op.stored v = none) : view.applyOp op false = .ok (none, view) := by
  have hrange : op.encoding.lo ≤ v ∧ v ≤ op.encoding.hi :=
    hv ▸ BitfieldEncoding.valueOf_range (fieldOf_lt op.encoding.bits)
  unfold applyOp
  simp only [oldRaw_eq op hview, ← hv, Except.bind, bitfieldOpCalc_eq hop hrange, hnone]
  rw [if_neg (by simp)]

theorem applyOp_get (hop : op.opType = .get) (hview : view.byteOffset = op.offset / 8)
    (hv : v = op.encoding.valueOf (fieldOf view.bit (op.offset % 8) op.encoding.bits)) :
    view.applyOp op false = .ok (some (op.output v v), view) := by
  have hrange : op.encoding.lo ≤ v ∧ v ≤ op.encoding.hi :=
    hv ▸ BitfieldEncoding.valueOf_range (fieldOf_lt op.encoding.bits)
  unfold applyOp bitfieldOpCalc
  simp only [oldRaw_eq op hview, ← hv, Except.bind]
  rw [if_pos hop, if_neg (fun h => h.1 hop), ← output_eq hrange hrange, ite_self]

end ArrayBitfieldBitmap

end Wedb.Bitfield
