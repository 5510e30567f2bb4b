import Mathlib.Data.List.Sigma
import Mathlib.Data.List.Sort

/-!
# Scattering

Elements that carry the place they came from are processed in an order of their own, and
each result is written back to its place.
-/

universe u v
variable {α : Type u} {β : Type v}

def scatter (f : α → β) (indexed : List (α × ℕ)) (result : List β) : List β :=
  indexed.foldl (fun result x => result.set x.2 (f x.1)) result

section
variable {f g : α → β} {indexed : List (α × ℕ)} {result : List β} {i : ℕ}

theorem scatter_cons (f : α → β) (x : α × ℕ) (indexed : List (α × ℕ)) (result : List β) :
    scatter f (x :: indexed) result = scatter f indexed (result.set x.2 (f x.1)) := rfl

theorem scatter_append (f : α → β) (xs ys : List (α × ℕ)) (result : List β) :
    scatter f (xs ++ ys) result = scatter f ys (scatter f xs result) := List.foldl_append

theorem scatter_congr (h : ∀ x ∈ indexed, f x.1 = g x.1) :
    scatter f indexed result = scatter g indexed result := by
  induction indexed generalizing result with
  | nil => rfl
  | cons x xs ih =>
    rw [scatter_cons, scatter_cons, h x (by simp), ih fun y hy => h y (List.mem_cons_of_mem x hy)]

theorem length_scatter : (scatter f indexed result).length = result.length := by
  induction indexed generalizing result with
  | nil => rfl
  | cons x xs ih => rw [scatter_cons, ih, List.length_set]

theorem getElem?_scatter_of_notMem (h : i ∉ indexed.map Prod.snd) :
    (scatter f indexed result)[i]? = result[i]? := by
  induction indexed generalizing result with
  | nil => rfl
  | cons x xs ih =>
    rw [List.map_cons, List.mem_cons, not_or] at h
    rw [scatter_cons, ih h.2, List.getElem?_set_ne (Ne.symm h.1)]

theorem getElem?_scatter_of_mem {a : α} (hnodup : (indexed.map Prod.snd).Nodup)
    (h : (a, i) ∈ indexed) (hi : i < result.length) :
    (scatter f indexed result)[i]? = some (f a) := by
  induction indexed generalizing result with
  | nil => cases h
  | cons x xs ih =>
    rw [List.map_cons, List.nodup_cons] at hnodup
    rw [scatter_cons]
    rcases List.mem_cons.mp h with rfl | h
    · rw [getElem?_scatter_of_notMem hnodup.1, List.getElem?_set_self hi]
    · exact ih hnodup.2 h (by rwa [List.length_set])

end

/-- Every input that is processed gets its result, in whatever order they are processed. -/
theorem scatter_eq_map {p : α → Bool} {inputs : List α} {indexed : List (α × ℕ)} (f : α → β) (b : β)
    (h : indexed.Perm (inputs.zipIdx.filter fun x => p x.1)) :
    scatter f indexed (List.replicate inputs.length b) =
      inputs.map fun a => if p a then f a else b := by
  have hnodup : (indexed.map Prod.snd).Nodup := by
    rw [(h.map _).nodup_iff]
    exact (List.nodup_zipIdx_map_snd inputs).sublist (List.filter_sublist.map _)
  have hmem : ∀ a i, (a, i) ∈ indexed ↔ inputs[i]? = some a ∧ p a = true := by
    intro a i
    rw [h.mem_iff, List.mem_filter, List.mk_mem_zipIdx_iff_getElem?]
  refine List.ext_getElem? fun i => ?_
  rw [List.getElem?_map]
  cases hi : inputs[i]? with
  | none =>
    have hlen := List.getElem?_eq_none_iff.mp hi
    rw [List.getElem?_eq_none (by rwa [length_scatter, List.length_replicate])]
    rfl
  | some a =>
    have hlen := (List.getElem?_eq_some_iff.mp hi).1
    by_cases hp : p a = true
    · rw [getElem?_scatter_of_mem hnodup ((hmem a i).mpr ⟨hi, hp⟩) (by rwa [List.length_replicate]),
        Option.map_some, if_pos hp]
    · rw [getElem?_scatter_of_notMem, List.getElem?_replicate_of_lt hlen, Option.map_some,
        if_neg hp]
      intro hin
      obtain ⟨x, hx, rfl⟩ := List.mem_map.mp hin
      obtain ⟨hx1, hx2⟩ := (hmem x.1 x.2).mp hx
      rw [hi] at hx1
      cases hx1
      exact hp hx2

theorem pairwise_insertionSort_key {κ : Type*} [LinearOrder κ] (key : α → κ) (xs : List α) :
    (xs.insertionSort fun a b => key a ≤ key b).Pairwise fun a b => key a ≤ key b := by
  have htotal : Std.Total fun a b : α => key a ≤ key b := ⟨fun a b => le_total _ _⟩
  have htrans : IsTrans α fun a b => key a ≤ key b := ⟨fun _ _ _ hab hbc => hab.trans hbc⟩
  exact List.pairwise_insertionSort _ xs
