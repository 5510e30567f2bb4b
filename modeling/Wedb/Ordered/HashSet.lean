import Mathlib.Data.Finset.Card
import Mathlib.Data.Finset.Dedup
import Mathlib.Data.Finset.SDiff
import Wedb.Ordered.Scan

/-!
# Hash sets as lists

A hash set is a list without duplicates, whose order nothing depends on. Collecting,
probing and taking elements out while another set is scanned are the union, the
intersection and the difference of finite sets, also when a scan stops early because
nothing is left.
-/

universe u v
variable {α : Type u} [DecidableEq α]

def insertDistinct (set : List α) (x : α) : List α := if x ∈ set then set else set ++ [x]

/-- The list holds exactly the elements of the finite set, each once. -/
structure IsSet (xs : List α) (A : Finset α) : Prop where
  nodup : xs.Nodup
  elements : xs.toFinset = A

section
variable {xs ys : List α} {A B : Finset α} {x : α}

theorem IsSet.nil : IsSet ([] : List α) ∅ := ⟨List.nodup_nil, rfl⟩

theorem IsSet.of_nodup (h : xs.Nodup) : IsSet xs xs.toFinset := ⟨h, rfl⟩

theorem IsSet.mem_iff (h : IsSet xs A) : x ∈ xs ↔ x ∈ A := by
  rw [← h.elements, List.mem_toFinset]

theorem IsSet.length_eq (h : IsSet xs A) : xs.length = A.card := by
  rw [← h.elements, List.toFinset_card_of_nodup h.nodup]

theorem IsSet.isEmpty_iff (h : IsSet xs A) : xs.isEmpty = true ↔ A = ∅ := by
  rw [List.isEmpty_iff_length_eq_zero, h.length_eq, Finset.card_eq_zero]

theorem IsSet.insert (h : IsSet xs A) (x : α) :
    IsSet (insertDistinct xs x) (Insert.insert x A) := by
  rw [insertDistinct]
  split_ifs with hx
  · exact ⟨h.nodup, by rw [h.elements, Finset.insert_eq_of_mem (h.mem_iff.mp hx)]⟩
  · refine ⟨h.nodup.append (List.nodup_singleton x) (by simpa using hx), ?_⟩
    rw [List.toFinset_append, h.elements, List.toFinset_cons, List.toFinset_nil,
      LawfulSingleton.insert_empty_eq, Finset.union_comm, Finset.insert_eq]

theorem IsSet.erase (h : IsSet xs A) (x : α) : IsSet (xs.erase x) (A.erase x) := by
  refine ⟨h.nodup.erase x, Finset.ext fun y => ?_⟩
  rw [List.mem_toFinset, h.nodup.mem_erase_iff, Finset.mem_erase, h.mem_iff]

theorem IsSet.filter (h : IsSet xs A) (p : α → Bool) : IsSet (xs.filter p) (A.filter (p · = true)) := by
  refine ⟨h.nodup.filter p, Finset.ext fun y => ?_⟩
  rw [List.mem_toFinset, List.mem_filter, Finset.mem_filter, h.mem_iff]

theorem IsSet.foldl_insertDistinct (h : IsSet xs A) (ys : List α) :
    IsSet (ys.foldl insertDistinct xs) (A ∪ ys.toFinset) := by
  induction ys generalizing xs A with
  | nil =>
    rw [List.toFinset_nil, Finset.union_empty]
    exact h
  | cons y ys ih =>
    have hnext := ih (h.insert y)
    rwa [Finset.insert_union, ← Finset.union_insert, ← List.toFinset_cons] at hnext

def takeStep (st : List α × List α) (x : α) : (List α × List α) × Bool :=
  if x ∈ st.1 then ((st.1.erase x, insertDistinct st.2 x), !(st.1.erase x).isEmpty)
  else (st, true)

def removeStep (current : List α) (x : α) : List α × Bool :=
  (current.erase x, !(current.erase x).isEmpty)

theorem IsSet.foldBreak_takeStep (h : IsSet xs A) (hnext : IsSet ys B) (zs : List α) :
    IsSet (foldBreak takeStep (xs, ys) zs).2 (B ∪ A ∩ zs.toFinset) := by
  induction zs generalizing xs ys A B with
  | nil =>
    rw [List.toFinset_nil, Finset.inter_empty, Finset.union_empty]
    exact hnext
  | cons z zs ih =>
    rw [foldBreak, takeStep, List.toFinset_cons]
    by_cases hz : z ∈ xs
    · rw [if_pos hz]
      have hmove : Insert.insert z B ∪ A.erase z ∩ zs.toFinset =
          B ∪ A ∩ Insert.insert z zs.toFinset := by
        have hzA := h.mem_iff.mp hz
        ext x
        simp only [Finset.mem_union, Finset.mem_insert, Finset.mem_inter, Finset.mem_erase]
        by_cases hx : x = z
        · simp [hx, hzA]
        · simp [hx]
      by_cases hleft : (xs.erase z).isEmpty = true
      · have hnone := (h.erase z).isEmpty_iff.mp hleft
        rw [if_neg (by simp [hleft])]
        rw [hnone, Finset.empty_inter, Finset.union_empty] at hmove
        rw [← hmove]
        exact hnext.insert z
      · rw [if_pos (by simp [hleft]), ← hmove]
        exact ih (h.erase z) (hnext.insert z)
    · have hzA : z ∉ A := fun hmem => hz (h.mem_iff.mpr hmem)
      rw [if_neg hz, if_pos rfl, Finset.inter_insert_of_notMem hzA]
      exact ih h hnext

theorem IsSet.foldBreak_removeStep (h : IsSet xs A) (zs : List α) :
    IsSet (foldBreak removeStep xs zs) (A \ zs.toFinset) := by
  induction zs generalizing xs A with
  | nil =>
    rw [List.toFinset_nil, Finset.sdiff_empty]
    exact h
  | cons z zs ih =>
    have hstep : A \ (z :: zs).toFinset = A.erase z \ zs.toFinset := by
      rw [List.toFinset_cons, Finset.sdiff_insert, Finset.erase_sdiff_comm]
    rw [foldBreak, removeStep, hstep]
    by_cases hleft : (xs.erase z).isEmpty = true
    · rw [if_neg (by simp [hleft]), (h.erase z).isEmpty_iff.mp hleft, Finset.empty_sdiff]
      have hnone := h.erase z
      rwa [(h.erase z).isEmpty_iff.mp hleft] at hnone
    · rw [if_pos (by simp [hleft])]
      exact ih (h.erase z)

end

/-! ## Families of sets -/

section
variable {κ : Type v} {f : κ → Finset α} {A : Finset α} {x : α} {keys : List κ}

theorem mem_foldl_inter : x ∈ keys.foldl (fun A k => A ∩ f k) A ↔ x ∈ A ∧ ∀ k ∈ keys, x ∈ f k := by
  induction keys generalizing A with
  | nil => simp
  | cons k keys ih =>
    rw [List.foldl_cons, ih, Finset.mem_inter, List.forall_mem_cons, and_assoc]

theorem mem_foldl_union : x ∈ keys.foldl (fun A k => A ∪ f k) A ↔ x ∈ A ∨ ∃ k ∈ keys, x ∈ f k := by
  induction keys generalizing A with
  | nil => simp
  | cons k keys ih =>
    rw [List.foldl_cons, ih, Finset.mem_union, List.exists_mem_cons_iff, or_assoc]

theorem foldl_inter_empty : keys.foldl (fun A k => A ∩ f k) ∅ = ∅ := by
  induction keys with
  | nil => rfl
  | cons k keys ih => rw [List.foldl_cons, Finset.empty_inter, ih]

theorem foldl_sdiff_empty : keys.foldl (fun A k => A \ f k) ∅ = ∅ := by
  induction keys with
  | nil => rfl
  | cons k keys ih => rw [List.foldl_cons, Finset.empty_sdiff, ih]

end

section
variable {κ : Type v} {β : Type u} [DecidableEq β] {f : κ → Finset α} {A : Finset α} {keys : List κ}

theorem subset_foldl_union (f : κ → Finset α) (A : Finset α) (keys : List κ) :
    A ⊆ keys.foldl (fun A k => A ∪ f k) A :=
  fun _ hx => mem_foldl_union.mpr (Or.inl hx)

theorem image_foldl_union (f : κ → Finset α) (g : α → β) (A : Finset α) (keys : List κ) :
    (keys.foldl (fun A k => A ∪ f k) A).image g =
      keys.foldl (fun B k => B ∪ (f k).image g) (A.image g) := by
  induction keys generalizing A with
  | nil => rfl
  | cons k keys ih => rw [List.foldl_cons, List.foldl_cons, ih, Finset.image_union]

end
