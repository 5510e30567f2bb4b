import Mathlib.Data.List.Nodup

/-!
# Distinct names

A loop that remembers the names it has seen visits the first entry of each name;
run from the end, it visits the last one.
-/

universe u v

def keepFirst {α : Type u} {β : Type v} [DecidableEq α] : List (α × β) → List α → List (α × β)
  | [], _ => []
  | x :: xs, seen => if x.1 ∈ seen then keepFirst xs seen else x :: keepFirst xs (x.1 :: seen)

def keepLast {α : Type u} {β : Type v} [DecidableEq α] (xs : List (α × β)) : List (α × β) :=
  (keepFirst xs.reverse []).reverse

variable {α : Type u} {β : Type v} [DecidableEq α]

theorem keepFirst_nodup (xs : List (α × β)) (seen : List α) :
    ((keepFirst xs seen).map Prod.fst).Nodup ∧ ∀ x ∈ keepFirst xs seen, x.1 ∉ seen := by
  induction xs generalizing seen with
  | nil => simp [keepFirst]
  | cons x xs ih =>
    simp only [keepFirst]
    split_ifs with h
    · exact ih seen
    · obtain ⟨hnd, hseen⟩ := ih (x.1 :: seen)
      constructor
      · rw [List.map_cons, List.nodup_cons]
        refine ⟨fun hmem => ?_, hnd⟩
        obtain ⟨y, hy, hxy⟩ := List.mem_map.mp hmem
        exact hseen y hy (by simp [hxy])
      · intro y hy
        rcases List.mem_cons.mp hy with rfl | hy
        · exact h
        · exact fun hc => hseen y hy (List.mem_cons_of_mem _ hc)

theorem keepLast_nodup (xs : List (α × β)) : ((keepLast xs).map Prod.fst).Nodup := by
  rw [keepLast, List.map_reverse, List.nodup_reverse]
  exact (keepFirst_nodup _ _).1

theorem keepFirst_subset {xs : List (α × β)} {seen : List α} {x : α × β}
    (h : x ∈ keepFirst xs seen) : x ∈ xs := by
  induction xs generalizing seen with
  | nil => exact h
  | cons y ys ih =>
    simp only [keepFirst] at h
    split_ifs at h with hy
    · exact List.mem_cons_of_mem _ (ih h)
    · rcases List.mem_cons.mp h with rfl | h
      · exact List.mem_cons_self
      · exact List.mem_cons_of_mem _ (ih h)

theorem keepLast_subset {xs : List (α × β)} {x : α × β} (h : x ∈ keepLast xs) : x ∈ xs :=
  List.mem_reverse.mp (keepFirst_subset (List.mem_reverse.mp h))

theorem mem_keepFirst_fst {xs : List (α × β)} {seen : List α} {a : α} :
    a ∈ (keepFirst xs seen).map Prod.fst ↔ a ∈ xs.map Prod.fst ∧ a ∉ seen := by
  induction xs generalizing seen with
  | nil => simp [keepFirst]
  | cons y ys ih =>
    rw [keepFirst]
    by_cases hy : y.1 ∈ seen
    · rw [if_pos hy, ih, List.map_cons, List.mem_cons]
      refine and_congr_left fun hseen => (or_iff_right ?_).symm
      rintro rfl
      exact hseen hy
    · rw [if_neg hy, List.map_cons, List.map_cons, List.mem_cons, List.mem_cons, ih, List.mem_cons,
        not_or]
      by_cases ha : a = y.1
      · simp [ha, hy]
      · simp [ha]

theorem keepFirst_of_nodup {xs : List (α × β)} {seen : List α} (hnodup : (xs.map Prod.fst).Nodup)
    (hseen : ∀ a ∈ xs.map Prod.fst, a ∉ seen) : keepFirst xs seen = xs := by
  induction xs generalizing seen with
  | nil => rfl
  | cons x xs ih =>
    rw [List.map_cons, List.nodup_cons] at hnodup
    rw [List.map_cons, List.forall_mem_cons] at hseen
    have hrest : ∀ a ∈ xs.map Prod.fst, a ∉ x.1 :: seen := by
      intro a ha
      rw [List.mem_cons, not_or]
      refine ⟨?_, hseen.2 a ha⟩
      rintro rfl
      exact hnodup.1 ha
    rw [keepFirst, if_neg hseen.1, ih hnodup.2 hrest]

theorem keepFirst_ne_nil {xs : List (α × β)} (h : xs ≠ []) : keepFirst xs [] ≠ [] := by
  cases xs with
  | nil => exact absurd rfl h
  | cons x xs => simp [keepFirst]
