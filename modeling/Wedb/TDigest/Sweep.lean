import Wedb.TDigest.Centroid
import Wedb.Ordered.Scatter
import Mathlib.Data.List.TakeWhile
import Mathlib.Data.Prod.Lex

/-!
# Sweeps over sorted inputs

The inputs that are numbers are sorted and consumed in groups of equal values, each of which
gets one result. A group of infinities is empty, as their difference is not a number, so that
a loop that meets one does not advance.
-/

namespace Wedb

def totalKey : ExactNum ℚ → ℤ ×ₗ ℚ
  | .negInf => toLex (-1, 0)
  | .fin v => toLex (0, v)
  | .posInf => toLex (1, 0)
  | .nan => toLex (2, 0)

/-- Sorted inputs that are left, and the results so far. -/
abbrev Sweep (β : Type) := List (ExactNum ℚ × ℕ) × List β

def numbersOf (inputs : List (ExactNum ℚ)) : List (ExactNum ℚ × ℕ) :=
  inputs.zipIdx.filter fun x => !x.1.isNan

section

variable {β : Type} (tol : Tolerance)

def fillGroup (val : ExactNum ℚ) (v : β) (s : Sweep β) : Sweep β :=
  (s.1.dropWhile fun x => doubleEqual tol x.1 val,
    scatter (fun _ => v) (s.1.takeWhile fun x => doubleEqual tol x.1 val) s.2)

def fillWhile (cond : ExactNum ℚ → Bool) (f : ExactNum ℚ → β) : ℕ → Sweep β → Option (Sweep β)
  | 0, _ => none
  | fuel + 1, s =>
    match s.1 with
    | [] => some s
    | x :: _ => if cond x.1 then fillWhile cond f fuel (fillGroup tol x.1 (f x.1) s) else some s

end

/-! ## Comparing without tolerances -/

theorem sub_fin (a b : ℚ) : (ExactNum.fin a).sub (.fin b) = .fin (a - b) := by
  rw [sub_eq_add_neg]
  rfl

theorem doubleCompare_fin (a b : ℚ) : doubleCompare .exact (.fin a) (.fin b) = compare a b := by
  have hmax : (if (ExactNum.fin a).abs.lt (ExactNum.fin b).abs then (ExactNum.fin b).abs
      else (ExactNum.fin a).abs).mul (.fin (Tolerance.exact).relEps) = .fin 0 := by
    split_ifs
    · exact congrArg ExactNum.fin (mul_zero |b|)
    · exact congrArg ExactNum.fin (mul_zero |a|)
  unfold doubleCompare
  simp only [hmax]
  simp only [sub_fin, ExactNum.isNan, Bool.or_false, Bool.false_eq_true, if_false,
    ExactNum.abs, ExactNum.le, ExactNum.lt, Tolerance.exact, decide_eq_true_eq, abs_nonpos_iff,
    sub_eq_zero, sub_neg]
  rcases lt_trichotomy a b with h | h | h
  · rw [if_neg h.ne, if_neg h.ne, if_pos h, compare_lt_iff_lt.mpr h]
  · rw [if_pos h, compare_eq_iff_eq.mpr h]
  · rw [if_neg h.ne', if_neg h.ne', if_neg h.le.not_gt, compare_gt_iff_gt.mpr h]

theorem doubleEqual_fin (a b : ℚ) : doubleEqual .exact (.fin a) (.fin b) = decide (a = b) := by
  rw [doubleEqual, doubleCompare_fin]
  by_cases h : a = b
  · rw [compare_eq_iff_eq.mpr h, decide_eq_true h]
    rfl
  · rw [decide_eq_false h, beq_eq_false_iff_ne, Ne, compare_eq_iff_eq]
    exact h

def IsInfinite (x : ExactNum ℚ) : Prop := x = .posInf ∨ x = .negInf

theorem doubleEqual_infinite {x : ExactNum ℚ} (hx : IsInfinite x) {b : ExactNum ℚ}
    (hb : b.isNan = false) : doubleEqual .exact x b = false := by
  rcases hx with rfl | rfl
  · cases b with
    | nan => cases hb
    | negInf => rfl
    | fin v => rfl
    | posInf => rfl
  · cases b with
    | nan => cases hb
    | negInf => rfl
    | fin v => rfl
    | posInf => rfl

/-! ## Groups -/

section

variable {β : Type} {cond : ExactNum ℚ → Bool} {f : ExactNum ℚ → β} {s s' : Sweep β}

/-- Inputs that are finite. -/
def AllFinite (xs : List (ExactNum ℚ × ℕ)) : Prop := ∀ x ∈ xs, ∃ v, x.1 = .fin v

theorem AllFinite.of_suffix {xs ys : List (ExactNum ℚ × ℕ)} (h : AllFinite xs) (hs : ys <:+ xs) :
    AllFinite ys := fun x hx => h x (hs.subset hx)

theorem eq_of_mem_group {xs : List (ExactNum ℚ × ℕ)} (h : AllFinite xs) {v : ℚ}
    {y : ExactNum ℚ × ℕ} (hy : y ∈ xs.takeWhile fun x => doubleEqual .exact x.1 (.fin v)) :
    y.1 = .fin v := by
  have heq := List.mem_takeWhile_imp hy
  obtain ⟨w, hw⟩ := h y (List.takeWhile_prefix _ |>.subset hy)
  rw [hw, doubleEqual_fin, decide_eq_true_eq] at heq
  rw [hw, heq]

theorem fillGroup_eq {x : ExactNum ℚ × ℕ} {xs : List (ExactNum ℚ × ℕ)} (h : AllFinite (x :: xs))
    (f : ExactNum ℚ → β) (result : List β) :
    ∃ group rest, x :: xs = group ++ rest ∧ rest.length ≤ xs.length ∧ (∀ y ∈ group, y.1 = x.1) ∧
      fillGroup .exact x.1 (f x.1) (x :: xs, result) = (rest, scatter f group result) := by
  obtain ⟨v, hv⟩ := h x (by simp)
  have hself : doubleEqual .exact x.1 x.1 = true := by
    rw [hv, doubleEqual_fin, decide_eq_true rfl]
  have hgroup : ∀ y ∈ (x :: xs).takeWhile (fun y => doubleEqual .exact y.1 x.1), y.1 = x.1 := by
    intro y hy
    rw [hv] at hy ⊢
    exact eq_of_mem_group h hy
  refine ⟨(x :: xs).takeWhile fun y => doubleEqual .exact y.1 x.1,
    (x :: xs).dropWhile fun y => doubleEqual .exact y.1 x.1,
    List.takeWhile_append_dropWhile.symm, ?_, hgroup, ?_⟩
  · rw [List.dropWhile_cons_of_pos (by exact hself)]
    exact (List.dropWhile_suffix _).length_le
  · have hsame : scatter (fun _ => f x.1) ((x :: xs).takeWhile fun y => doubleEqual .exact y.1 x.1)
        result = scatter f ((x :: xs).takeWhile fun y => doubleEqual .exact y.1 x.1) result :=
      scatter_congr fun y hy => by rw [hgroup y hy]
    rw [fillGroup]
    simp only [hsame]

theorem fillWhile_eq {fuel : ℕ} {xs : List (ExactNum ℚ × ℕ)} (h : AllFinite xs)
    (hfuel : xs.length < fuel) (result : List β) :
    fillWhile .exact cond f fuel (xs, result) =
      some (xs.dropWhile fun x => cond x.1, scatter f (xs.takeWhile fun x => cond x.1) result) := by
  induction fuel generalizing xs result with
  | zero => omega
  | succ fuel ih =>
    cases xs with
    | nil => rfl
    | cons x xs =>
      rw [List.length_cons] at hfuel
      by_cases hc : cond x.1 = true
      · obtain ⟨group, rest, hsplit, hlen, hgroup, hfill⟩ := fillGroup_eq h f result
        have hpos : ∀ y ∈ group, cond y.1 = true := fun y hy => by rw [hgroup y hy]; exact hc
        have hrest := @ih rest
          (h.of_suffix (hsplit ▸ List.suffix_append group rest)) (by omega)
          (scatter f group result)
        rw [fillWhile]
        simp only [if_pos hc]
        rw [hfill, hrest, hsplit, List.dropWhile_append_of_pos hpos,
          List.takeWhile_append_of_pos hpos, scatter_append]
      · rw [fillWhile]
        simp only [if_neg hc]
        rw [List.dropWhile_cons_of_neg (by simpa using hc),
          List.takeWhile_cons_of_neg (by simpa using hc)]
        rfl

/-! ## Infinities stay -/

/-- An input that is infinite among inputs that are numbers. -/
structure Waits (x : ExactNum ℚ × ℕ) (s : Sweep β) : Prop where
  mem : x ∈ s.1
  infinite : IsInfinite x.1
  numbers : ∀ y ∈ s.1, y.1.isNan = false

theorem Waits.fillGroup {x : ExactNum ℚ × ℕ} {val : ExactNum ℚ} (h : Waits x s)
    (hval : val.isNan = false) (v : β) : Waits x (fillGroup .exact val v s) := by
  have hsub := List.dropWhile_suffix (l := s.1) fun y => doubleEqual .exact y.1 val
  refine ⟨?_, h.infinite, fun y hy => h.numbers y (hsub.subset hy)⟩
  have hmem := h.mem
  rw [← List.takeWhile_append_dropWhile (p := fun y => doubleEqual .exact y.1 val) (l := s.1),
    List.mem_append] at hmem
  rcases hmem with hmem | hmem
  · have heq := List.mem_takeWhile_imp hmem
    rw [doubleEqual_infinite h.infinite hval] at heq
    cases heq
  · exact hmem

theorem Waits.fillWhile {x : ExactNum ℚ × ℕ} {fuel : ℕ} (h : Waits x s)
    (hs : fillWhile .exact cond f fuel s = some s') : Waits x s' := by
  induction fuel generalizing s with
  | zero => cases hs
  | succ fuel ih =>
    rw [Wedb.fillWhile] at hs
    cases hcases : s.1 with
    | nil =>
      simp only [hcases] at hs
      cases hs
      exact h
    | cons y ys =>
      simp only [hcases] at hs
      split_ifs at hs
      · exact ih (h.fillGroup (h.numbers y (by rw [hcases]; simp)) _) hs
      · cases hs
        exact h

theorem Waits.fillWhile_true {x : ExactNum ℚ × ℕ} (h : Waits x s) (fuel : ℕ) :
    Wedb.fillWhile .exact (fun _ => true) f fuel s = none := by
  induction fuel generalizing s with
  | zero => rfl
  | succ fuel ih =>
    rw [Wedb.fillWhile]
    cases hcases : s.1 with
    | nil =>
      have hmem := h.mem
      rw [hcases] at hmem
      cases hmem
    | cons y ys =>
      simp only [if_true]
      exact ih (h.fillGroup (h.numbers y (by rw [hcases]; simp)) _)

end

/-! ## Inputs in order -/

theorem totalKey_fin_le {v w : ℚ} : totalKey (.fin v) ≤ totalKey (.fin w) ↔ v ≤ w := by
  rw [totalKey, totalKey, Prod.Lex.le_iff]
  simp

/-- No input is an infinity. -/
def NoInfinity (inputs : List (ExactNum ℚ)) : Prop := ∀ x ∈ inputs, ¬IsInfinite x

theorem mem_of_mem_numbersOf {inputs : List (ExactNum ℚ)} {x : ExactNum ℚ × ℕ}
    (h : x ∈ numbersOf inputs) : x.1 ∈ inputs ∧ x.1.isNan = false := by
  obtain ⟨hmem, hnan⟩ := List.mem_filter.mp h
  refine ⟨?_, by simpa using hnan⟩
  exact List.mem_of_getElem? (List.mk_mem_zipIdx_iff_getElem?.mp hmem)

theorem allFinite_numbersOf {inputs : List (ExactNum ℚ)} (h : NoInfinity inputs) :
    AllFinite (numbersOf inputs) := by
  intro x hx
  obtain ⟨hmem, hnan⟩ := mem_of_mem_numbersOf hx
  have hinf := h x.1 hmem
  cases hc : x.1 with
  | nan =>
    rw [hc] at hnan
    cases hnan
  | negInf => exact absurd (.inr hc) hinf
  | fin v => exact ⟨v, rfl⟩
  | posInf => exact absurd (.inl hc) hinf

theorem exists_waits {inputs : List (ExactNum ℚ)} (h : ¬NoInfinity inputs)
    {indexed : List (ExactNum ℚ × ℕ)} (hperm : indexed.Perm (numbersOf inputs)) {β : Type}
    (result : List β) : ∃ x, Waits x (indexed, result) := by
  unfold NoInfinity at h
  push Not at h
  obtain ⟨a, ha, hinf⟩ := h
  obtain ⟨i, hi⟩ := List.mem_iff_getElem?.mp ha
  refine ⟨(a, i), ⟨hperm.mem_iff.mpr (List.mem_filter.mpr ⟨?_, ?_⟩), hinf, fun y hy => ?_⟩⟩
  · exact List.mk_mem_zipIdx_iff_getElem?.mpr hi
  · rcases hinf with rfl | rfl <;> rfl
  · exact (mem_of_mem_numbersOf (hperm.mem_iff.mp hy)).2

/-- Inputs in ascending order. -/
def SortedInputs (xs : List (ExactNum ℚ × ℕ)) : Prop :=
  xs.Pairwise fun a b => totalKey a.1 ≤ totalKey b.1

theorem sortedInputs_insertionSort (xs : List (ExactNum ℚ × ℕ)) :
    SortedInputs (xs.insertionSort fun a b => totalKey a.1 ≤ totalKey b.1) :=
  pairwise_insertionSort_key (fun x : ExactNum ℚ × ℕ => totalKey x.1) xs

theorem not_of_mem_dropWhile {xs : List (ExactNum ℚ × ℕ)} {cond : ExactNum ℚ → Bool}
    (hs : SortedInputs xs) (hfin : AllFinite xs)
    (hcond : ∀ v w : ℚ, v ≤ w → cond (.fin w) = true → cond (.fin v) = true)
    {y : ExactNum ℚ × ℕ} (hy : y ∈ xs.dropWhile fun x => cond x.1) : ¬cond y.1 = true := by
  induction xs with
  | nil => cases hy
  | cons x xs ih =>
    rw [SortedInputs, List.pairwise_cons] at hs
    by_cases hx : cond x.1 = true
    · rw [List.dropWhile_cons_of_pos (by exact hx)] at hy
      exact ih hs.2 (hfin.of_suffix (List.suffix_cons x xs)) hy
    · rw [List.dropWhile_cons_of_neg (by exact hx)] at hy
      rcases List.mem_cons.mp hy with rfl | hmem
      · exact hx
      · obtain ⟨v, hv⟩ := hfin x (by simp)
        obtain ⟨w, hw⟩ := hfin y hy
        have hle := hs.1 y hmem
        rw [hv, hw, totalKey_fin_le] at hle
        intro hc
        rw [hw] at hc
        rw [hv] at hx
        exact hx (hcond v w hle hc)

def onFinite {β : Type} (f : ℚ → β) (other : β) : ExactNum ℚ → β
  | .fin v => f v
  | _ => other

end Wedb
