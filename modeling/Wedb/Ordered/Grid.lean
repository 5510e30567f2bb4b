import Mathlib.Tactic

/-!
# Cells of a grid

A line of cells of one width from an offset on, where what lies before the offset is one
cell that starts at zero. Every point has the start of its cell; starts after the offset
are a width apart.
-/

namespace Grid

variable {d a s t u : ℕ}

def IsStart (d a s : ℕ) : Prop := s = 0 ∨ ∃ k, s = a + k * d

def start (d a t : ℕ) : ℕ := if t < a then 0 else (t - a) / d * d + a

theorem isStart_start (d a t : ℕ) : IsStart d a (start d a t) := by
  rw [start]
  split_ifs
  · exact .inl rfl
  · exact .inr ⟨(t - a) / d, Nat.add_comm _ _⟩

theorem start_le (d a t : ℕ) : start d a t ≤ t := by
  rw [start]
  split_ifs with h
  · exact Nat.zero_le t
  · have hdiv := Nat.div_mul_le_self (t - a) d
    omega

theorem IsStart.le_start (hs : IsStart d a s) (hd : 0 < d) (hst : s ≤ t) : s ≤ start d a t := by
  rcases hs with rfl | ⟨k, rfl⟩
  · exact Nat.zero_le _
  · have hk : k ≤ (t - a) / d := (Nat.le_div_iff_mul_le hd).mpr (by omega)
    have hmul := Nat.mul_le_mul_right d hk
    rw [start, if_neg (by omega)]
    omega

theorem start_mono (hd : 0 < d) (hst : s ≤ t) : start d a s ≤ start d a t :=
  (isStart_start d a s).le_start hd ((start_le d a s).trans hst)

theorem IsStart.add (hs : IsStart d a s) (ha : a ≤ s) : IsStart d a (s + d) := by
  rcases hs with rfl | ⟨k, rfl⟩
  · exact .inr ⟨1, by omega⟩
  · exact .inr ⟨k + 1, by rw [Nat.succ_mul]; omega⟩

theorem IsStart.add_le (hs : IsStart d a s) (ht : IsStart d a t) (ha : a ≤ s) (hst : s < t) :
    s + d ≤ t := by
  obtain ⟨k, rfl⟩ : ∃ k, s = a + k * d := by
    rcases hs with rfl | hs
    · exact ⟨0, by omega⟩
    · exact hs
  obtain ⟨l, rfl⟩ : ∃ l, t = a + l * d := by
    rcases ht with rfl | ht
    · omega
    · exact ht
  have hkl : k < l := by
    by_contra hle
    exact absurd (Nat.mul_le_mul_right d (not_lt.mp hle)) (by omega)
  have hmul := Nat.mul_le_mul_right d hkl
  rw [Nat.succ_mul] at hmul
  omega

theorem not_isStart_width (ha : 0 < a) (had : a < d) : ¬IsStart d a d := by
  rintro (rfl | ⟨k, hk⟩)
  · omega
  · rcases Nat.eq_zero_or_pos k with rfl | hpos
    · omega
    · have hmul := Nat.mul_le_mul_right d hpos
      omega

theorem le_of_start_ne_zero (h : start d a t ≠ 0) : a ≤ start d a t := by
  rw [start] at h ⊢
  split_ifs at h ⊢
  · exact absurd rfl h
  · exact Nat.le_add_left a _

/-- The first start after a point. -/
def IsNext (d a t n : ℕ) : Prop := IsStart d a n ∧ t < n ∧ ∀ s, IsStart d a s → t < s → n ≤ s

theorem IsNext.unique {m n : ℕ} (hm : IsNext d a t m) (hn : IsNext d a t n) : m = n :=
  le_antisymm (hm.2.2 n hn.1 hn.2.1) (hn.2.2 m hm.1 hm.2.1)

theorem isNext_add (hd : 0 < d) (ha : a ≤ t) : IsNext d a t (start d a t + d) := by
  have has : a ≤ start d a t := IsStart.le_start (.inr ⟨0, by omega⟩) hd ha
  refine ⟨(isStart_start d a t).add has, ?_, fun s hs hlt => ?_⟩
  · rw [start, if_neg (not_lt.mpr ha)]
    have hmod := Nat.mod_lt (t - a) hd
    have hdiv := Nat.div_add_mod (t - a) d
    rw [Nat.mul_comm] at hdiv
    omega
  · exact (isStart_start d a t).add_le hs has ((start_le d a t).trans_lt hlt)

theorem isNext_offset (ht : t < a) : IsNext d a t a := by
  refine ⟨.inr ⟨0, by omega⟩, ht, ?_⟩
  rintro s (rfl | ⟨k, rfl⟩) hlt
  · omega
  · exact Nat.le_add_right a _

end Grid
