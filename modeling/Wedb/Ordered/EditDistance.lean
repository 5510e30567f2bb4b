import Mathlib.Data.Set.Basic
import Mathlib.Order.Bounds.Basic
import Mathlib.Tactic

/-!
# Edit distance

An edit inserts, deletes or replaces one element of a list. The least number of edits between
two lists is found by a recursion on both: over their heads, and so, the lists reversed, over
their last elements.
-/

universe u v

variable {α : Type u} {β : Type v}

/-- One insertion, deletion or substitution at any place. -/
inductive EditStep : List α → List α → Prop
  | insert (before after : List α) (a : α) : EditStep (before ++ after) (before ++ a :: after)
  | delete (before after : List α) (a : α) : EditStep (before ++ a :: after) (before ++ after)
  | substitute (before after : List α) (a b : α) :
      EditStep (before ++ a :: after) (before ++ b :: after)

/-- So many edits one after the other. -/
inductive Edits : ℕ → List α → List α → Prop
  | refl (s : List α) : Edits 0 s s
  | step {n : ℕ} {s t u : List α} : EditStep s t → Edits n t u → Edits (n + 1) s u

variable {s t u : List α} {n m : ℕ} {a b : α}

theorem EditStep.symm (h : EditStep s t) : EditStep t s := by
  cases h with
  | insert before after a => exact .delete before after a
  | delete before after a => exact .insert before after a
  | substitute before after a b => exact .substitute before after b a

theorem EditStep.cons (h : EditStep s t) (a : α) : EditStep (a :: s) (a :: t) := by
  cases h with
  | insert before after b => exact .insert (a :: before) after b
  | delete before after b => exact .delete (a :: before) after b
  | substitute before after b c => exact .substitute (a :: before) after b c

theorem EditStep.reverse (h : EditStep s t) : EditStep s.reverse t.reverse := by
  cases h with
  | insert before after a =>
    simp only [List.reverse_append, List.reverse_cons, List.append_assoc, List.singleton_append]
    exact .insert after.reverse before.reverse a
  | delete before after a =>
    simp only [List.reverse_append, List.reverse_cons, List.append_assoc, List.singleton_append]
    exact .delete after.reverse before.reverse a
  | substitute before after a b =>
    simp only [List.reverse_append, List.reverse_cons, List.append_assoc, List.singleton_append]
    exact .substitute after.reverse before.reverse a b

theorem Edits.cons (h : Edits n s t) (a : α) : Edits n (a :: s) (a :: t) := by
  induction h with
  | refl s => exact .refl _
  | step hstep _ ih => exact .step (hstep.cons a) ih

theorem Edits.trans (h : Edits n s t) (h' : Edits m t u) : Edits (n + m) s u := by
  induction h with
  | refl s => rwa [Nat.zero_add]
  | step hstep _ ih =>
    rw [Nat.add_right_comm]
    exact .step hstep (ih h')

theorem Edits.symm (h : Edits n s t) : Edits n t s := by
  induction h with
  | refl s => exact .refl s
  | step hstep _ ih => exact ih.trans (.step hstep.symm (.refl _))

theorem Edits.reverse (h : Edits n s t) : Edits n s.reverse t.reverse := by
  induction h with
  | refl s => exact .refl _
  | step hstep _ ih => exact .step hstep.reverse ih

theorem edits_nil (t : List α) : Edits t.length [] t := by
  induction t with
  | nil => exact .refl []
  | cons b t ih => exact .step (.insert [] [] b) (ih.cons b)

/-! ## The recursion -/

variable [DecidableEq α] [DecidableEq β]

def editDist : List α → List α → ℕ
  | [], t => t.length
  | a :: s, [] => (a :: s).length
  | a :: s, b :: t => min (min (editDist s (b :: t) + 1) (editDist (a :: s) t + 1))
      (editDist s t + if a = b then 0 else 1)
termination_by s t => s.length + t.length

@[simp] theorem editDist_nil_left (t : List α) : editDist [] t = t.length := by rw [editDist]

@[simp] theorem editDist_nil_right (s : List α) : editDist s [] = s.length := by
  cases s with
  | nil => rw [editDist]
  | cons a s => rw [editDist]

theorem editDist_cons (a b : α) (s t : List α) : editDist (a :: s) (b :: t) =
    min (min (editDist s (b :: t) + 1) (editDist (a :: s) t + 1))
      (editDist s t + if a = b then 0 else 1) := by
  rw [editDist]

theorem edits_editDist (s t : List α) : Edits (editDist s t) s t := by
  induction s, t using editDist.induct with
  | case1 t =>
    rw [editDist_nil_left]
    exact edits_nil t
  | case2 a s =>
    rw [editDist_nil_right]
    exact (edits_nil (a :: s)).symm
  | case3 a s b t ihDelete ihInsert ihBoth =>
    have hdelete : Edits (editDist s (b :: t) + 1) (a :: s) (b :: t) :=
      .step (.delete [] s a) ihDelete
    have hinsert : Edits (editDist (a :: s) t + 1) (a :: s) (b :: t) :=
      .step (.insert [] (a :: s) b) (ihInsert.cons b)
    have hboth : Edits (editDist s t + if a = b then 0 else 1) (a :: s) (b :: t) := by
      split_ifs with hab
      · subst hab
        exact ihBoth.cons a
      · exact .step (.substitute [] s a b) (ihBoth.cons b)
    rw [editDist_cons]
    rcases min_choice (min (editDist s (b :: t) + 1) (editDist (a :: s) t + 1))
      (editDist s t + if a = b then 0 else 1) with h | h
    · rw [h]
      rcases min_choice (editDist s (b :: t) + 1) (editDist (a :: s) t + 1) with h | h
      · rw [h]
        exact hdelete
      · rw [h]
        exact hinsert
    · rw [h]
      exact hboth

theorem editDist_cons_left_le (a : α) (s t : List α) : editDist (a :: s) t ≤ editDist s t + 1 := by
  cases t with
  | nil => simp
  | cons b t =>
    rw [editDist_cons]
    omega

theorem editDist_cons_right_le (b : α) (s t : List α) : editDist s (b :: t) ≤ editDist s t + 1 := by
  cases s with
  | nil => simp
  | cons a s =>
    rw [editDist_cons]
    omega

theorem editDist_le_cons_left (a : α) (s t : List α) : editDist s t ≤ editDist (a :: s) t + 1 := by
  induction t with
  | nil =>
    rw [editDist_nil_right, editDist_nil_right, List.length_cons]
    omega
  | cons b t ih =>
    have hright := editDist_cons_right_le b s t
    rw [editDist_cons]
    split_ifs <;> omega

theorem editDist_substitute_le (a b : α) (s t : List α) :
    editDist (a :: s) t ≤ editDist (b :: s) t + 1 := by
  induction t with
  | nil => simp
  | cons c t ih =>
    rw [editDist_cons, editDist_cons]
    split_ifs <;> omega

theorem editDist_append_le {s s' : List α} (h : ∀ t, editDist s t ≤ editDist s' t + 1)
    (before t : List α) : editDist (before ++ s) t ≤ editDist (before ++ s') t + 1 := by
  induction before generalizing t with
  | nil => exact h t
  | cons a before ih =>
    rw [List.cons_append, List.cons_append]
    induction t with
    | nil =>
      have hnil := ih []
      simp only [editDist_nil_right, List.length_cons] at hnil ⊢
      omega
    | cons b t iht =>
      have hdelete := ih (b :: t)
      have hboth := ih t
      rw [editDist_cons, editDist_cons]
      split_ifs <;> omega

theorem EditStep.editDist_le (h : EditStep s u) (t : List α) :
    editDist s t ≤ editDist u t + 1 := by
  cases h with
  | insert before after a => exact editDist_append_le (editDist_le_cons_left a after) before t
  | delete before after a => exact editDist_append_le (editDist_cons_left_le a after) before t
  | substitute before after a b =>
    exact editDist_append_le (editDist_substitute_le a b after) before t

@[simp] theorem editDist_self (s : List α) : editDist s s = 0 := by
  induction s with
  | nil => simp
  | cons a s ih => simp [editDist_cons, ih]

theorem Edits.editDist_le (h : Edits n s t) : editDist s t ≤ n := by
  induction h with
  | refl s => exact (editDist_self s).le
  | @step n s t u hstep _ ih =>
    have hone := hstep.editDist_le u
    omega

theorem editDist_isLeast (s t : List α) : IsLeast {n | Edits n s t} (editDist s t) :=
  ⟨edits_editDist s t, fun _ h => Edits.editDist_le h⟩

theorem editDist_comm (s t : List α) : editDist s t = editDist t s :=
  le_antisymm (edits_editDist t s).symm.editDist_le (edits_editDist s t).symm.editDist_le

theorem editDist_reverse (s t : List α) : editDist s.reverse t.reverse = editDist s t := by
  refine le_antisymm (edits_editDist s t).reverse.editDist_le ?_
  have h := (edits_editDist s.reverse t.reverse).reverse
  rw [List.reverse_reverse, List.reverse_reverse] at h
  exact h.editDist_le

theorem editDist_map (f : α → β) (s t : List α) (hf : ∀ a ∈ s, ∀ b ∈ t, f a = f b → a = b) :
    editDist (s.map f) (t.map f) = editDist s t := by
  induction s, t using editDist.induct with
  | case1 t => simp
  | case2 a s => simp
  | case3 a s b t ihDelete ihInsert ihBoth =>
    have hab : f a = f b ↔ a = b := by
      refine ⟨hf a (List.mem_cons_self ..) b (List.mem_cons_self ..), fun h => h ▸ rfl⟩
    have hdelete := ihDelete fun x hx => hf x (List.mem_cons_of_mem a hx)
    have hinsert := ihInsert fun x hx y hy => hf x hx y (List.mem_cons_of_mem b hy)
    have hboth := ihBoth fun x hx y hy =>
      hf x (List.mem_cons_of_mem a hx) y (List.mem_cons_of_mem b hy)
    rw [List.map_cons] at hdelete hinsert
    rw [List.map_cons, List.map_cons, editDist_cons, editDist_cons, hdelete, hinsert, hboth]
    simp only [hab]

/-! ## Prefixes -/

def prefixDist (s t : List α) (i j : ℕ) : ℕ := editDist (s.take i) (t.take j)

theorem prefixDist_zero_left (s t : List α) {j : ℕ} (hj : j ≤ t.length) :
    prefixDist s t 0 j = j := by
  rw [prefixDist, List.take_zero, editDist_nil_left, List.length_take, min_eq_left hj]

theorem prefixDist_zero_right (s t : List α) {i : ℕ} (hi : i ≤ s.length) :
    prefixDist s t i 0 = i := by
  rw [prefixDist, List.take_zero, editDist_nil_right, List.length_take, min_eq_left hi]

theorem prefixDist_length (s t : List α) : prefixDist s t s.length t.length = editDist s t := by
  rw [prefixDist, List.take_length, List.take_length]

theorem prefixDist_succ (s t : List α) {i j : ℕ} (hi : i < s.length) (hj : j < t.length) :
    prefixDist s t (i + 1) (j + 1) =
      min (min (prefixDist s t i (j + 1) + 1) (prefixDist s t (i + 1) j + 1))
        (prefixDist s t i j + if s[i] = t[j] then 0 else 1) := by
  have hs : (s.take (i + 1)).reverse = s[i] :: (s.take i).reverse := by
    rw [← List.take_concat_get' s i hi, List.reverse_append, List.reverse_singleton,
      List.singleton_append]
  have ht : (t.take (j + 1)).reverse = t[j] :: (t.take j).reverse := by
    rw [← List.take_concat_get' t j hj, List.reverse_append, List.reverse_singleton,
      List.singleton_append]
  simp only [prefixDist]
  rw [← editDist_reverse (s.take (i + 1)), hs, ht, editDist_cons, ← ht, ← hs, editDist_reverse,
    editDist_reverse, editDist_reverse]
