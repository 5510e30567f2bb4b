import Mathlib.Data.List.Perm.Basic
import Mathlib.Order.Defs.LinearOrder
import Mathlib.Order.Lattice

/-!
# Heaps

A heap holds a list of items in an order of its own and gives up an item with the
greatest key. Which of several items with that key comes first is left open.
-/

universe u v
variable {α : Type u} {κ : Type v} [LinearOrder κ]

structure BinaryHeap (key : α → κ) where
  push : List α → α → List α
  pop : List α → Option (α × List α)
  push_perm : ∀ xs a, (push xs a).Perm (a :: xs)
  pop_nil : pop [] = none
  pop_cons : ∀ a xs, (pop (a :: xs)).isSome = true
  pop_perm : ∀ {xs a ys}, pop xs = some (a, ys) → xs.Perm (a :: ys)
  pop_max : ∀ {xs a ys}, pop xs = some (a, ys) → ∀ b ∈ ys, key b ≤ key a

namespace BinaryHeap
variable {key : α → κ} (h : BinaryHeap key) {xs ys : List α} {a b : α}

def peek (xs : List α) : Option α := (h.pop xs).map Prod.fst

theorem mem_push : b ∈ h.push xs a ↔ b = a ∨ b ∈ xs := by
  rw [(h.push_perm xs a).mem_iff, List.mem_cons]

theorem length_push (xs : List α) (a : α) : (h.push xs a).length = xs.length + 1 :=
  (h.push_perm xs a).length_eq

theorem exists_pop (hxs : xs ≠ []) : ∃ a ys, h.pop xs = some (a, ys) := by
  obtain ⟨b, zs, rfl⟩ := List.exists_cons_of_ne_nil hxs
  obtain ⟨x, hx⟩ := Option.isSome_iff_exists.mp (h.pop_cons b zs)
  exact ⟨x.1, x.2, hx⟩

theorem mem_of_pop (hpop : h.pop xs = some (a, ys)) : b ∈ xs ↔ b = a ∨ b ∈ ys := by
  rw [(h.pop_perm hpop).mem_iff, List.mem_cons]

theorem length_of_pop (hpop : h.pop xs = some (a, ys)) : xs.length = ys.length + 1 :=
  (h.pop_perm hpop).length_eq

theorem nodup_map_push {β : Type*} {f : α → β} (hxs : (xs.map f).Nodup) (ha : ∀ b ∈ xs, f b ≠ f a) :
    ((h.push xs a).map f).Nodup := by
  rw [((h.push_perm xs a).map f).nodup_iff, List.map_cons, List.nodup_cons]
  refine ⟨fun hmem => ?_, hxs⟩
  obtain ⟨b, hb, heq⟩ := List.mem_map.mp hmem
  exact ha b hb heq

theorem nodup_map_of_pop {β : Type*} {f : α → β} (hxs : (xs.map f).Nodup)
    (hpop : h.pop xs = some (a, ys)) : (ys.map f).Nodup := by
  rw [((h.pop_perm hpop).map f).nodup_iff, List.map_cons, List.nodup_cons] at hxs
  exact hxs.2

/-! ## A heap that searches its list -/

def selectMax (key : α → κ) : List α → Option (α × List α)
  | [] => none
  | a :: xs =>
    match selectMax key xs with
    | none => some (a, [])
    | some (b, ys) => if key b < key a then some (a, b :: ys) else some (b, a :: ys)

theorem selectMax_spec {key : α → κ} (h : selectMax key xs = some (a, ys)) :
    xs.Perm (a :: ys) ∧ ∀ b ∈ ys, key b ≤ key a := by
  induction xs generalizing a ys with
  | nil => cases h
  | cons c xs ih =>
    rw [selectMax] at h
    cases hsel : selectMax key xs with
    | none =>
      have hnil : xs = [] := by
        cases xs with
        | nil => rfl
        | cons d xs =>
          rw [selectMax] at hsel
          split at hsel
          · cases hsel
          · split_ifs at hsel
      simp only [hsel, Option.some.injEq, Prod.mk.injEq] at h
      obtain ⟨rfl, rfl⟩ := h
      rw [hnil]
      exact ⟨.refl _, fun b hb => (List.not_mem_nil hb).elim⟩
    | some x =>
      obtain ⟨b, zs⟩ := x
      obtain ⟨hperm, hmax⟩ := ih hsel
      simp only [hsel] at h
      by_cases hlt : key b < key c
      · rw [if_pos hlt] at h
        cases h
        refine ⟨hperm.cons c, fun d hd => ?_⟩
        rcases List.mem_cons.mp hd with rfl | hd
        · exact hlt.le
        · exact (hmax d hd).trans hlt.le
      · rw [if_neg hlt] at h
        cases h
        refine ⟨(hperm.cons c).trans (.swap _ _ _), fun d hd => ?_⟩
        rcases List.mem_cons.mp hd with rfl | hd
        · exact not_lt.mp hlt
        · exact hmax d hd

theorem isSome_selectMax (key : α → κ) (a : α) (xs : List α) :
    (selectMax key (a :: xs)).isSome = true := by
  rw [selectMax]
  cases selectMax key xs with
  | none => rfl
  | some x =>
    dsimp only
    split_ifs
    · rfl
    · rfl

def ofSelectMax (key : α → κ) : BinaryHeap key where
  push xs a := xs ++ [a]
  pop := selectMax key
  push_perm xs a := List.perm_append_singleton a xs
  pop_nil := rfl
  pop_cons := isSome_selectMax key
  pop_perm hpop := (selectMax_spec hpop).1
  pop_max hpop := (selectMax_spec hpop).2

end BinaryHeap
