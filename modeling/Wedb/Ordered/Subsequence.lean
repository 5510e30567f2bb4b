import Mathlib.Data.List.Forall2
import Mathlib.Data.List.Infix
import Mathlib.Data.List.Basic
import Mathlib.Tactic

/-!
# Splitting a list along a sequence of items

A list matches a sequence of items when it is a concatenation of parts, the n-th of them
taken by the n-th item.
-/

section

namespace Wedb

variable {ι α : Type*} {takes : ι → List α → Prop} {item : ι} {items : List ι} {xs : List α}

def SplitsAs (takes : ι → List α → Prop) (items : List ι) (xs : List α) : Prop :=
  ∃ parts : List (List α), parts.flatten = xs ∧ List.Forall₂ takes items parts

theorem splitsAs_nil : SplitsAs takes [] xs ↔ xs = [] := by
  constructor
  · intro h
    obtain ⟨parts, hflat, hparts⟩ := h
    rw [List.forall₂_nil_left_iff.mp hparts] at hflat
    exact hflat.symm
  · intro h
    exact ⟨[], by simp [h], .nil⟩

theorem splitsAs_cons :
    SplitsAs takes (item :: items) xs ↔
      ∃ part rest, part ++ rest = xs ∧ takes item part ∧ SplitsAs takes items rest := by
  constructor
  · intro h
    obtain ⟨parts, hflat, hparts⟩ := h
    obtain ⟨part, parts, hitem, hitems, rfl⟩ := List.forall₂_cons_left_iff.mp hparts
    exact ⟨part, parts.flatten, by simpa using hflat, hitem, parts, rfl, hitems⟩
  · intro h
    obtain ⟨part, rest, hxs, hitem, parts, hflat, hparts⟩ := h
    exact ⟨part :: parts, by simp [hflat, hxs], .cons hitem hparts⟩

theorem splitsAs_cons_of_all (hall : ∀ part, takes item part) :
    SplitsAs takes (item :: items) xs ↔ ∃ rest ∈ xs.tails, SplitsAs takes items rest := by
  rw [splitsAs_cons]
  simp only [List.mem_tails]
  constructor
  · intro h
    obtain ⟨part, rest, hxs, -, hrest⟩ := h
    exact ⟨rest, ⟨part, hxs⟩, hrest⟩
  · intro h
    obtain ⟨rest, ⟨part, hxs⟩, hrest⟩ := h
    exact ⟨part, rest, hxs, hall part, hrest⟩

theorem splitsAs_cons_of_letter {letter : α → Prop}
    (hletter : ∀ part, takes item part ↔ ∃ x, part = [x] ∧ letter x) :
    SplitsAs takes (item :: items) xs ↔
      ∃ x rest, xs = x :: rest ∧ letter x ∧ SplitsAs takes items rest := by
  rw [splitsAs_cons]
  constructor
  · intro h
    obtain ⟨part, rest, hxs, hitem, hrest⟩ := h
    obtain ⟨x, rfl, hx⟩ := (hletter part).mp hitem
    exact ⟨x, rest, hxs.symm, hx, hrest⟩
  · intro h
    obtain ⟨x, rest, hxs, hx, hrest⟩ := h
    exact ⟨[x], rest, hxs.symm, (hletter [x]).mpr ⟨x, rfl, hx⟩, hrest⟩

theorem not_splitsAs_cons (hnone : ∀ part, ¬takes item part) :
    ¬SplitsAs takes (item :: items) xs := by
  rw [splitsAs_cons]
  intro h
  obtain ⟨part, rest, -, hitem, -⟩ := h
  exact hnone part hitem

end Wedb

end

/-!
## Longest common subsequences

The length of a longest common subsequence by the usual recursion on two lists, and the
alignment that takes equal heads and otherwise drops a head without losing length. The
alignment is known by the lengths of its runs of consecutive matches.
-/

section

universe u
variable {α : Type u} [DecidableEq α]

def lcsLength : List α → List α → ℕ
  | [], _ => 0
  | _ :: _, [] => 0
  | x :: xs, y :: ys =>
    if x = y then lcsLength xs ys + 1 else max (lcsLength xs (y :: ys)) (lcsLength (x :: xs) ys)
  termination_by xs ys => xs.length + ys.length

/-- A longest common subsequence of the two lists has this length. -/
structure IsLcsLength {α : Type u} (n : ℕ) (xs ys : List α) : Prop where
  attained : ∃ zs : List α, zs.Sublist xs ∧ zs.Sublist ys ∧ zs.length = n
  bound : ∀ zs : List α, zs.Sublist xs → zs.Sublist ys → zs.length ≤ n

def alignRuns (c : ℕ) : List α → List α → List ℕ
  | [], _ => if c = 0 then [] else [c]
  | _ :: _, [] => if c = 0 then [] else [c]
  | x :: xs, y :: ys =>
    if x = y then alignRuns (c + 1) xs ys
    else
      (if c = 0 then [] else [c]) ++
        if lcsLength xs (y :: ys) > lcsLength (x :: xs) ys then alignRuns 0 xs (y :: ys)
        else alignRuns 0 (x :: xs) ys
  termination_by xs ys => xs.length + ys.length

variable {x y : α} {xs ys zs : List α} {m n c : ℕ}

@[simp] theorem lcsLength_nil_left (ys : List α) : lcsLength [] ys = 0 := by
  rw [lcsLength]

@[simp] theorem lcsLength_nil_right (xs : List α) : lcsLength xs [] = 0 := by
  cases xs with
  | nil => exact lcsLength_nil_left []
  | cons x xs => rw [lcsLength]

theorem lcsLength_cons_self (x : α) (xs ys : List α) :
    lcsLength (x :: xs) (x :: ys) = lcsLength xs ys + 1 := by
  rw [lcsLength, if_pos rfl]

theorem lcsLength_cons_of_ne (h : x ≠ y) (xs ys : List α) :
    lcsLength (x :: xs) (y :: ys) = max (lcsLength xs (y :: ys)) (lcsLength (x :: xs) ys) := by
  rw [lcsLength, if_neg h]

theorem lcsLength_self (xs : List α) : lcsLength xs xs = xs.length := by
  induction xs with
  | nil => exact lcsLength_nil_left []
  | cons x xs ih => rw [lcsLength_cons_self, ih, List.length_cons]

namespace IsLcsLength

omit [DecidableEq α]

theorem nil_left (ys : List α) : IsLcsLength 0 [] ys where
  attained := ⟨[], List.nil_sublist _, List.nil_sublist _, rfl⟩
  bound zs hx _ := by rw [List.sublist_nil.mp hx, List.length_nil]

theorem symm (h : IsLcsLength n xs ys) : IsLcsLength n ys xs where
  attained := by
    obtain ⟨zs, hx, hy, hlen⟩ := h.attained
    exact ⟨zs, hy, hx, hlen⟩
  bound zs hy hx := h.bound zs hx hy

theorem nil_right (xs : List α) : IsLcsLength 0 xs [] := (nil_left xs).symm

theorem reverse (h : IsLcsLength n xs ys) : IsLcsLength n xs.reverse ys.reverse where
  attained := by
    obtain ⟨zs, hx, hy, hlen⟩ := h.attained
    exact ⟨zs.reverse, hx.reverse, hy.reverse, by rw [List.length_reverse, hlen]⟩
  bound zs hx hy := by
    rw [← List.length_reverse]
    exact h.bound zs.reverse (List.reverse_sublist.mp (by rwa [List.reverse_reverse]))
      (List.reverse_sublist.mp (by rwa [List.reverse_reverse]))

/-- A common subsequence loses at most its head with the common head of the lists. -/
theorem cons_self (h : IsLcsLength n xs ys) (x : α) : IsLcsLength (n + 1) (x :: xs) (x :: ys) where
  attained := by
    obtain ⟨zs, hx, hy, hlen⟩ := h.attained
    exact ⟨x :: zs, hx.cons_cons x, hy.cons_cons x, by rw [List.length_cons, hlen]⟩
  bound zs hx hy := by
    cases zs with
    | nil => exact Nat.zero_le _
    | cons z zs =>
      have htail := h.bound zs hx.tail hy.tail
      rw [List.length_cons]
      omega

theorem cons_of_ne (hne : x ≠ y) (hm : IsLcsLength m xs (y :: ys))
    (hn : IsLcsLength n (x :: xs) ys) : IsLcsLength (max m n) (x :: xs) (y :: ys) where
  attained := by
    obtain ⟨zs, hx, hy, hlen⟩ := hm.attained
    obtain ⟨zs', hx', hy', hlen'⟩ := hn.attained
    rcases le_total n m with h | h
    · exact ⟨zs, hx.cons x, hy, by rw [max_eq_left h, hlen]⟩
    · exact ⟨zs', hx', hy'.cons y, by rw [max_eq_right h, hlen']⟩
  bound zs hx hy := by
    cases hx with
    | cons _ hx => exact le_max_of_le_left (hm.bound zs hx hy)
    | cons_cons _ hx =>
      cases hy with
      | cons _ hy => exact le_max_of_le_right (hn.bound _ (hx.cons_cons x) hy)
      | cons_cons _ hy => exact absurd rfl hne

end IsLcsLength

theorem lcsLength_spec (xs ys : List α) : IsLcsLength (lcsLength xs ys) xs ys := by
  induction xs, ys using lcsLength.induct with
  | case1 ys =>
    rw [lcsLength_nil_left]
    exact .nil_left ys
  | case2 x xs =>
    rw [lcsLength_nil_right]
    exact .nil_right (x :: xs)
  | case3 xs y ys ih =>
    rw [lcsLength_cons_self]
    exact ih.cons_self y
  | case4 x xs y ys hne ihx ihy =>
    rw [lcsLength_cons_of_ne hne]
    exact ihx.cons_of_ne hne ihy

/-! ## The alignment -/

theorem alignRuns_nil_left (c : ℕ) (ys : List α) :
    alignRuns c [] ys = if c = 0 then [] else [c] := by
  rw [alignRuns]

theorem alignRuns_nil_right (c : ℕ) (xs : List α) :
    alignRuns c xs [] = if c = 0 then [] else [c] := by
  cases xs with
  | nil => exact alignRuns_nil_left c []
  | cons x xs => rw [alignRuns]

theorem alignRuns_cons_self (c : ℕ) (x : α) (xs ys : List α) :
    alignRuns c (x :: xs) (x :: ys) = alignRuns (c + 1) xs ys := by
  rw [alignRuns, if_pos rfl]

theorem alignRuns_cons_of_ne (h : x ≠ y) (c : ℕ) (xs ys : List α) :
    alignRuns c (x :: xs) (y :: ys) = (if c = 0 then [] else [c]) ++
      if lcsLength xs (y :: ys) > lcsLength (x :: xs) ys then alignRuns 0 xs (y :: ys)
      else alignRuns 0 (x :: xs) ys := by
  rw [alignRuns, if_neg h]

theorem alignRuns_self (xs : List α) (c : ℕ) :
    alignRuns c xs xs = if c + xs.length = 0 then [] else [c + xs.length] := by
  induction xs generalizing c with
  | nil => exact alignRuns_nil_left c []
  | cons x xs ih => rw [alignRuns_cons_self, ih, List.length_cons, add_assoc, add_comm 1]

end
