import Mathlib.Data.List.Basic
import Mathlib.Tactic

/-!
# Run lengths

A list written as runs of equal elements. An element of the expansion lies in one
run, and replacing it splits that run in three.
-/

namespace RunLength

universe u
variable {α : Type u}

def expand (runs : List (α × ℕ)) : List α := runs.flatMap fun r => List.replicate r.2 r.1

variable {runs pre post : List (α × ℕ)} {a b : α} {n i : ℕ}

@[simp] theorem expand_nil : expand ([] : List (α × ℕ)) = [] := rfl

@[simp] theorem expand_cons (r : α × ℕ) (runs : List (α × ℕ)) :
    expand (r :: runs) = List.replicate r.2 r.1 ++ expand runs := rfl

@[simp] theorem expand_append (a b : List (α × ℕ)) : expand (a ++ b) = expand a ++ expand b :=
  List.flatMap_append

theorem expand_length (runs : List (α × ℕ)) : (expand runs).length = (runs.map Prod.snd).sum := by
  induction runs with
  | nil => rfl
  | cons r runs ih => simp [ih]

theorem getElem?_expand_split (hle : (expand pre).length ≤ i) (hlt : i < (expand pre).length + n) :
    (expand (pre ++ (a, n) :: post))[i]? = some a := by
  have hin : i - (expand pre).length < n := by omega
  rw [expand_append, List.getElem?_append_right hle, expand_cons,
    List.getElem?_append_left (by simpa using hin), List.getElem?_replicate, if_pos hin]

theorem set_expand_split (hle : (expand pre).length ≤ i) (hlt : i < (expand pre).length + n) :
    (expand (pre ++ (a, n) :: post)).set i b =
      expand (pre ++ (a, i - (expand pre).length) :: (b, 1) ::
        (a, (expand pre).length + n - (i + 1)) :: post) := by
  have hn : n = (i - (expand pre).length) + (1 + ((expand pre).length + n - (i + 1))) := by omega
  have hrep : List.replicate n a = List.replicate (i - (expand pre).length) a ++
      (a :: List.replicate ((expand pre).length + n - (i + 1)) a) := by
    conv_lhs => rw [hn, List.replicate_add, List.replicate_add]
    rfl
  simp only [expand_append, expand_cons, hrep, List.append_assoc]
  rw [List.set_append_right _ _ hle, List.set_append_right _ _ (by simp)]
  simp

end RunLength
