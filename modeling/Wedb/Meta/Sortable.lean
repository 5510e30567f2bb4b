import Mathlib.Data.Nat.Bitwise
import Wedb.Meta.KeyMeta
import Wedb.Ordered.Float64

/-!
# Sortable scores

A score is stored as the eight big-endian bytes of a word whose order is the total
order of bit patterns: negative numbers are complemented, the others get the sign
bit set.
-/

namespace Wedb

def encodeSortableF64U64 (val : F64) : UInt64 :=
  if val.bits &&& F64.signMask ≠ 0 then ~~~val.bits else val.bits ^^^ F64.signMask

def decodeSortableF64U64 (sortable : UInt64) : F64 :=
  ⟨if sortable &&& F64.signMask ≠ 0 then sortable ^^^ F64.signMask else ~~~sortable⟩

def encodeSortableF64 (val : F64) : Bytes := (encodeSortableF64U64 val).toBeBytes

def decodeSortableF64 (bytes : Bytes) : F64 := decodeSortableF64U64 (.fromBeBytes bytes)

def decodeSortableF64Slice (bytes : Bytes) : Option F64 :=
  if bytes.length ≥ 8 then some (decodeSortableF64 (bytes.take 8)) else none

theorem and_signMask_eq_zero (w : UInt64) : w &&& F64.signMask = 0 ↔ w.toNat < 2 ^ 63 := by
  have hmask : F64.signMask.toNat = 2 ^ 63 := rfl
  have hlt := w.toNat_lt
  rw [← UInt64.toNat_inj, UInt64.toNat_and, hmask, Nat.and_two_pow, UInt64.toNat_zero,
    Nat.testBit_eq_decide_div_mod_eq]
  simp
  omega

theorem toNat_xor_signMask (w : UInt64) :
    (w ^^^ F64.signMask).toNat = (w.toNat + 2 ^ 63) % 2 ^ 64 := by
  have hlt := w.toNat_lt
  have hnat : (w ^^^ F64.signMask).toNat = w.toNat ^^^ 2 ^ 63 := UInt64.toNat_xor w F64.signMask
  have hdiv : (w.toNat ^^^ 2 ^ 63) / 2 ^ 63 = w.toNat / 2 ^ 63 ^^^ 1 := by
    rw [Nat.xor_div_two_pow, Nat.div_self (by decide)]
  have hmod : (w.toNat ^^^ 2 ^ 63) % 2 ^ 63 = w.toNat % 2 ^ 63 := by
    rw [Nat.xor_mod_two_pow, Nat.mod_self, Nat.xor_zero]
  rw [hnat, ← Nat.div_add_mod (w.toNat ^^^ 2 ^ 63) (2 ^ 63), hdiv, hmod]
  by_cases h : w.toNat < 2 ^ 63
  · rw [Nat.div_eq_of_lt h, Nat.zero_xor]
    omega
  · have hone : w.toNat / 2 ^ 63 = 1 := by omega
    rw [hone, Nat.xor_self]
    omega

theorem toNat_encodeSortableF64U64 (a : F64) :
    ((encodeSortableF64U64 a).toNat : ℤ) = a.totalOrder + 2 ^ 63 := by
  have hmag := a.magnitude_lt
  rw [encodeSortableF64U64, F64.totalOrder]
  by_cases ha : a.isNegative = true
  · have hbits := F64.magnitude_of_isNegative ha
    have hne : a.bits &&& F64.signMask ≠ 0 := fun h => by
      rw [and_signMask_eq_zero] at h
      omega
    rw [if_pos hne, if_pos ha, UInt64.toNat_not, UInt64.size]
    omega
  · have hbits := F64.magnitude_of_not_isNegative ha
    have heq : ¬a.bits &&& F64.signMask ≠ 0 := not_not.mpr ((and_signMask_eq_zero _).mpr (by omega))
    rw [if_neg heq, if_neg ha, toNat_xor_signMask]
    omega

theorem encodeSortableF64U64_lt_iff {a b : F64} :
    encodeSortableF64U64 a < encodeSortableF64U64 b ↔ a.totalOrder < b.totalOrder := by
  have ha := toNat_encodeSortableF64U64 a
  have hb := toNat_encodeSortableF64U64 b
  rw [UInt64.lt_iff_toNat_lt]
  omega

theorem decodeSortableF64U64_encode (a : F64) :
    decodeSortableF64U64 (encodeSortableF64U64 a) = a := by
  have hlt := a.bits.toNat_lt
  have henc : encodeSortableF64U64 a &&& F64.signMask ≠ 0 ↔ ¬a.bits &&& F64.signMask ≠ 0 := by
    rw [ne_eq, ne_eq, and_signMask_eq_zero, and_signMask_eq_zero, encodeSortableF64U64]
    by_cases h : a.bits &&& F64.signMask = 0
    · have hpos := (and_signMask_eq_zero _).mp h
      rw [if_neg (not_not.mpr h), toNat_xor_signMask]
      omega
    · have hneg := (and_signMask_eq_zero _).not.mp h
      rw [if_pos h, UInt64.toNat_not, UInt64.size]
      omega
  rw [decodeSortableF64U64]
  refine congrArg F64.mk ?_
  by_cases h : a.bits &&& F64.signMask ≠ 0
  · rw [if_neg fun he => henc.mp he h, encodeSortableF64U64, if_pos h, UInt64.not_not]
  · rw [if_pos (henc.mpr h), encodeSortableF64U64, if_neg h, UInt64.xor_assoc, UInt64.xor_self,
      UInt64.xor_zero]

@[simp] theorem encodeSortableF64_length (a : F64) : (encodeSortableF64 a).length = 8 := by
  simp [encodeSortableF64]

theorem encodeSortableF64_lt_iff {a b : F64} :
    encodeSortableF64 a < encodeSortableF64 b ↔ a.totalOrder < b.totalOrder := by
  rw [encodeSortableF64, encodeSortableF64, UInt64.toBeBytes_lt_iff, encodeSortableF64U64_lt_iff]

theorem encodeSortableF64_append_lt_iff {a b : F64} {s t : Bytes} :
    encodeSortableF64 a ++ s < encodeSortableF64 b ++ t ↔
      a.totalOrder < b.totalOrder ∨ a = b ∧ s < t := by
  have hlt : ∀ {c d : F64} (u v : Bytes), c.totalOrder < d.totalOrder →
      encodeSortableF64 c ++ u < encodeSortableF64 d ++ v := by
    intro c d u v h
    refine Bytes.append_lt_append_of_lt (encodeSortableF64_lt_iff.mpr h) (fun hp => ?_) u v
    have heq := hp.eq_of_length (by simp)
    exact absurd heq (encodeSortableF64_lt_iff.mpr h).ne
  rcases lt_trichotomy a.totalOrder b.totalOrder with h | h | h
  · exact iff_of_true (hlt s t h) (Or.inl h)
  · have hab := F64.ext_totalOrder h
    subst hab
    rw [Bytes.append_lt_append_iff]
    simp
  · refine iff_of_false (hlt t s h).not_gt ?_
    rintro (hab | ⟨rfl, -⟩)
    · exact absurd hab h.not_gt
    · exact absurd h (lt_irrefl _)

theorem decodeSortableF64_encode (a : F64) : decodeSortableF64 (encodeSortableF64 a) = a := by
  rw [decodeSortableF64, encodeSortableF64, UInt64.fromBeBytes_toBeBytes, decodeSortableF64U64_encode]

theorem encodeSortableF64_injective : Function.Injective encodeSortableF64 := fun a b h => by
  rw [← decodeSortableF64_encode a, h, decodeSortableF64_encode]

theorem encodeSortableF64_delimited : Delimited encodeSortableF64 :=
  .of_length encodeSortableF64_injective fun a b => by simp

/-- What indexes rely on: nothing is lost, and encoded numbers compare as the numbers do, with
the negative zero below the positive one. -/
structure SortableEmbeds : Prop where
  undone : ∀ bits : UInt64, (decodeSortableF64U64 (encodeSortableF64U64 ⟨bits⟩)).bits = bits
  words : ∀ x y : F64, x.isNan = false → y.isNan = false →
    (encodeSortableF64U64 x < encodeSortableF64U64 y ↔ x.IsBelow y)
  numbers : ∀ x y : F64, x.lt y = true → encodeSortableF64U64 x < encodeSortableF64U64 y
  bytes : ∀ x y : F64, x.isNan = false → y.isNan = false →
    (encodeSortableF64 x < encodeSortableF64 y ↔ x.IsBelow y)

theorem sortableEmbeds : SortableEmbeds where
  undone bits := congrArg F64.bits (decodeSortableF64U64_encode ⟨bits⟩)
  words x y _ _ := by
    rw [encodeSortableF64U64_lt_iff, F64.isBelow_iff]
  numbers x y h := by
    simp only [F64.lt, Bool.and_eq_true, decide_eq_true_eq] at h
    exact encodeSortableF64U64_lt_iff.mpr (F64.totalOrder_lt_of_order_lt h.2)
  bytes x y _ _ := by
    rw [encodeSortableF64_lt_iff, F64.isBelow_iff]

theorem decodeSortableF64Slice_append (a : F64) (member : Bytes) :
    decodeSortableF64Slice (encodeSortableF64 a ++ member) = some a := by
  have htake : (encodeSortableF64 a ++ member).take 8 = encodeSortableF64 a := by
    rw [← encodeSortableF64_length a, List.take_left]
  rw [decodeSortableF64Slice, if_pos (by simp), htake, decodeSortableF64_encode]

theorem decodeSortableF64Slice_encode (a : F64) :
    decodeSortableF64Slice (encodeSortableF64 a) = some a := by
  simpa using decodeSortableF64Slice_append a []

end Wedb
