import Mathlib.Data.List.Basic
import Mathlib.Data.List.Infix

/-!
# Buffers of fixed length

A string is written over a buffer at a position, or fails to fit. A buffer that is
written front to back holds what has been written so far, and anything behind it.
-/

universe u
variable {α : Type u}

def writeAt (buf : List α) (start : ℕ) (s : List α) : Option (List α) :=
  if start + s.length ≤ buf.length then
    some (buf.take start ++ s ++ buf.drop (start + s.length))
  else none

def writeAll (buf : List α) (start : ℕ) : List (List α) → Option (List α)
  | [] => some buf
  | s :: parts => do
    let buf ← writeAt buf start s
    writeAll buf (start + s.length) parts

/-- A buffer of `cap` items that begins with what has been written. -/
structure Filled (cap : ℕ) (buf written : List α) : Prop where
  length : buf.length = cap
  front : written <+: buf

namespace Filled
variable {cap start : ℕ} {buf written s : List α}

theorem empty (h : buf.length = cap) : Filled cap buf [] := ⟨h, List.nil_prefix⟩

theorem take (h : Filled cap buf written) : buf.take written.length = written :=
  (List.prefix_iff_eq_take.mp h.front).symm

theorem length_le (h : Filled cap buf written) : written.length ≤ cap :=
  h.length ▸ h.front.length_le

variable (start s) in
theorem write (h : Filled cap buf written) (hstart : start = written.length)
    (hroom : start + s.length ≤ cap) :
    ∃ buf', writeAt buf start s = some buf' ∧ Filled cap buf' (written ++ s) := by
  have hfit : start + s.length ≤ buf.length := h.length ▸ hroom
  refine ⟨_, if_pos hfit, ⟨?_, ?_⟩⟩
  · have hlen := h.length
    rw [List.length_append, List.length_append, List.length_take, List.length_drop]
    omega
  · rw [hstart, h.take]
    exact List.prefix_append _ _

theorem writeParts {parts : List (List α)} (h : Filled cap buf written)
    (hstart : start = written.length) (hroom : start + parts.flatten.length ≤ cap) :
    ∃ buf', writeAll buf start parts = some buf' ∧ Filled cap buf' (written ++ parts.flatten) := by
  induction parts generalizing buf start written with
  | nil => exact ⟨buf, rfl, by rwa [List.flatten_nil, List.append_nil]⟩
  | cons s parts ih =>
    rw [List.flatten_cons, List.length_append] at hroom
    obtain ⟨buf₁, hwrite, h₁⟩ := h.write start s hstart (by omega)
    have hnext : start + s.length = (written ++ s).length := by
      rw [List.length_append, hstart]
    obtain ⟨buf₂, hrest, h₂⟩ := ih h₁ hnext (by omega)
    refine ⟨buf₂, ?_, ?_⟩
    · rw [writeAll, hwrite]
      exact hrest
    · rwa [List.append_assoc, ← List.flatten_cons] at h₂

end Filled

/-! ## Overwriting -/

def overwrite (z : α) (p : List α) (offset : ℕ) (v : List α) : List α :=
  p.take offset ++ List.replicate (offset - p.length) z ++ v ++ p.drop (offset + v.length)

section
variable {z : α} {front p v : List α} {n offset : ℕ}

theorem overwrite_length (z : α) (p : List α) (offset : ℕ) (v : List α) :
    (overwrite z p offset v).length = max p.length (offset + v.length) := by
  simp only [overwrite, List.length_append, List.length_take, List.length_replicate,
    List.length_drop]
  omega

theorem overwrite_self_length (z : α) (p v : List α) : overwrite z p p.length v = p ++ v := by
  rw [overwrite, List.take_length, Nat.sub_self, List.replicate_zero, List.append_nil,
    List.drop_of_length_le (Nat.le_add_right _ _), List.append_nil]

variable (z front v) in
theorem writeAt_padding (h : v.length ≤ n) :
    writeAt (front ++ List.replicate n z) front.length v =
      some (front ++ v ++ List.replicate (n - v.length) z) := by
  rw [writeAt, if_pos (by rw [List.length_append, List.length_replicate]; omega), List.take_left,
    List.drop_append, List.drop_of_length_le (Nat.le_add_right _ _), List.nil_append,
    Nat.add_sub_cancel_left, List.drop_replicate]

variable (z front p v n offset) in
theorem writeAt_overwrite (h : offset + v.length ≤ p.length + n) :
    ∃ buf, writeAt (front ++ p ++ List.replicate n z) (front.length + offset) v = some buf ∧
      buf.take (front.length + max p.length (offset + v.length)) =
        front ++ overwrite z p offset v := by
  have hroom : front.length + offset + v.length ≤ (front ++ p ++ List.replicate n z).length := by
    simp only [List.length_append, List.length_replicate]
    omega
  refine ⟨_, if_pos hroom, ?_⟩
  have htake : (front ++ p ++ List.replicate n z).take (front.length + offset) =
      front ++ (p.take offset ++ List.replicate (offset - p.length) z) := by
    rw [List.append_assoc, List.take_length_add_append, List.take_append, List.take_replicate,
      Nat.min_eq_left (by omega)]
  have hdrop : (front ++ p ++ List.replicate n z).drop (front.length + offset + v.length) =
      p.drop (offset + v.length) ++ List.replicate (n - (offset + v.length - p.length)) z := by
    rw [List.append_assoc, Nat.add_assoc, List.drop_length_add_append, List.drop_append,
      List.drop_replicate]
  have hfull : (front ++ overwrite z p offset v).length =
      front.length + max p.length (offset + v.length) := by
    rw [List.length_append, overwrite_length]
  rw [htake, hdrop, ← hfull]
  have hpadded : ((front ++ overwrite z p offset v) ++
      List.replicate (n - (offset + v.length - p.length)) z).take
        (front ++ overwrite z p offset v).length = front ++ overwrite z p offset v :=
    List.take_left
  refine (congrArg (List.take _) ?_).trans hpadded
  simp only [overwrite, List.append_assoc]

end

/-! ## Positions -/

theorem filter_zipIdx_between (l : List α) (k a b : ℕ) :
    ((l.zipIdx k).filter fun x => decide (a ≤ x.2 ∧ x.2 ≤ b)).map Prod.fst =
      (l.drop (a - k)).take (b + 1 - max a k) := by
  induction l generalizing k with
  | nil => rw [List.drop_nil, List.take_nil]; rfl
  | cons x l ih =>
    rw [List.zipIdx_cons, List.filter_cons]
    by_cases hin : a ≤ k ∧ k ≤ b
    · have hdrop : a - k = 0 := by omega
      have hdrop' : a - (k + 1) = 0 := by omega
      have htake : b + 1 - max a k = b + 1 - max a (k + 1) + 1 := by omega
      rw [if_pos (decide_eq_true hin), List.map_cons, ih, hdrop, hdrop', htake, List.drop_zero,
        List.drop_zero, List.take_succ_cons]
    · rw [if_neg (by rw [decide_eq_false hin]; decide), ih]
      by_cases hlow : a ≤ k
      · have htake : b + 1 - max a k = 0 := by omega
        have htake' : b + 1 - max a (k + 1) = 0 := by omega
        rw [htake, htake', List.take_zero, List.take_zero]
      · have hdrop : a - k = a - (k + 1) + 1 := by omega
        have hmax : max a k = max a (k + 1) := by omega
        rw [hdrop, hmax, List.drop_succ_cons]
