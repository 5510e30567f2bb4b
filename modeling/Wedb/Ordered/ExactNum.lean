import Mathlib.Algebra.BigOperators.Group.List.Basic
import Mathlib.Algebra.Order.Monoid.Unbundled.Basic
import Mathlib.Algebra.Order.Group.Abs
import Mathlib.Order.Basic

/-!
# Numbers with infinities

Numbers of an ordered group with two infinities and a value that is not a number, which is
neither below nor above anything and which absorbs sums, as the sum of the two infinities does.
The extreme of a list keeps what is below all that came before.
-/

universe u

def extreme {α : Type u} (below : α → α → Bool) (start : α) (xs : List α) : α :=
  xs.foldl (fun best x => if below x best then x else best) start

theorem extreme_spec {α : Type u} {below : α → α → Bool} (hirrefl : ∀ a, below a a = false)
    (htrans : ∀ a b c, below a b = true → below b c = true → below a c = true) (start : α)
    (xs : List α) :
    (extreme below start xs = start ∨
        extreme below start xs ∈ xs ∧ below (extreme below start xs) start = true) ∧
      ∀ x ∈ xs, below x (extreme below start xs) = false := by
  induction xs generalizing start with
  | nil => exact ⟨Or.inl rfl, fun _ h => absurd h List.not_mem_nil⟩
  | cons x xs ih =>
    rw [extreme, List.foldl_cons, ← extreme]
    by_cases hx : below x start = true
    · rw [if_pos hx]
      obtain ⟨hbest, hnone⟩ := ih x
      refine ⟨Or.inr ?_, fun y hy => ?_⟩
      · rcases hbest with hbest | ⟨hmem, hbelow⟩
        · rw [hbest]
          exact ⟨List.mem_cons_self, hx⟩
        · exact ⟨List.mem_cons_of_mem x hmem, htrans _ _ _ hbelow hx⟩
      · rcases List.mem_cons.mp hy with rfl | hy
        · rcases hbest with hbest | ⟨-, hbelow⟩
          · rw [hbest]
            exact hirrefl y
          · by_contra hne
            have hback := htrans _ _ _ (Bool.eq_true_of_not_eq_false hne) hbelow
            rw [hirrefl] at hback
            cases hback
        · exact hnone y hy
    · rw [if_neg hx]
      obtain ⟨hbest, hnone⟩ := ih start
      refine ⟨?_, fun y hy => ?_⟩
      · rcases hbest with hbest | ⟨hmem, hbelow⟩
        · exact Or.inl hbest
        · exact Or.inr ⟨List.mem_cons_of_mem x hmem, hbelow⟩
      · rcases List.mem_cons.mp hy with rfl | hy
        · rcases hbest with hbest | ⟨-, hbelow⟩
          · rw [hbest]
            exact Bool.eq_false_of_not_eq_true hx
          · by_contra hne
            exact hx (htrans _ _ _ (Bool.eq_true_of_not_eq_false hne) hbelow)
        · exact hnone y hy

inductive ExactNum (K : Type u)
  | nan
  | negInf
  | fin (v : K)
  | posInf
  deriving DecidableEq, Repr

namespace ExactNum

variable {K : Type u}

def add [Add K] : ExactNum K → ExactNum K → ExactNum K
  | nan, _ => nan
  | _, nan => nan
  | posInf, negInf => nan
  | negInf, posInf => nan
  | posInf, _ => posInf
  | _, posInf => posInf
  | negInf, _ => negInf
  | _, negInf => negInf
  | fin v, fin w => fin (v + w)

instance [Add K] : Add (ExactNum K) := ⟨add⟩

instance [Zero K] : Zero (ExactNum K) := ⟨fin 0⟩

instance [AddCommMonoid K] : AddCommMonoid (ExactNum K) where
  add_assoc a b c := by
    cases a <;> cases b <;> cases c <;> first | rfl | exact congrArg fin (add_assoc _ _ _)
  zero_add a := by
    cases a <;> first | rfl | exact congrArg fin (zero_add _)
  add_zero a := by
    cases a <;> first | rfl | exact congrArg fin (add_zero _)
  add_comm a b := by
    cases a <;> cases b <;> first | rfl | exact congrArg fin (add_comm _ _)
  nsmul := nsmulRec

def lt [LT K] [DecidableLT K] : ExactNum K → ExactNum K → Bool
  | nan, _ => false
  | _, nan => false
  | negInf, negInf => false
  | negInf, _ => true
  | _, negInf => false
  | fin v, fin w => decide (v < w)
  | fin _, posInf => true
  | posInf, _ => false

variable [LinearOrder K]

theorem lt_irrefl (a : ExactNum K) : a.lt a = false := by
  cases a <;> simp [lt]

theorem lt_trans (a b c : ExactNum K) (hab : a.lt b = true) (hbc : b.lt c = true) :
    a.lt c = true := by
  cases a <;> cases b <;> simp only [lt, Bool.false_eq_true, decide_eq_true_eq] at hab <;>
    cases c <;> simp only [lt, Bool.false_eq_true, decide_eq_true_eq] at hbc ⊢
  exact hab.trans hbc

theorem eq_of_not_lt {a b : ExactNum K} (ha : a ≠ nan) (hb : b ≠ nan) (hab : a.lt b = false)
    (hba : b.lt a = false) : a = b := by
  cases a <;> cases b <;> simp [lt] at ha hb hab hba ⊢
  exact le_antisymm hba hab

theorem ne_nan_of_lt {a b : ExactNum K} (h : a.lt b = true) : a ≠ nan ∧ b ≠ nan := by
  cases a <;> cases b <;> simp [lt] at h ⊢

/-- The least of the values that are numbers. -/
structure IsLeastOf (values : List (ExactNum K)) (m : ExactNum K) : Prop where
  mem : m ∈ values
  number : m ≠ nan
  least : ∀ v ∈ values, v.lt m = false

/-- The greatest of the values that are numbers. -/
structure IsGreatestOf (values : List (ExactNum K)) (m : ExactNum K) : Prop where
  mem : m ∈ values
  number : m ≠ nan
  greatest : ∀ v ∈ values, m.lt v = false

variable {values : List (ExactNum K)} {m : ExactNum K}

theorem IsLeastOf.extreme_eq (h : IsLeastOf values m) : extreme lt posInf values = m := by
  obtain ⟨hbest, hnone⟩ := extreme_spec lt_irrefl lt_trans posInf values
  have hm := hnone m h.mem
  rcases hbest with hbest | ⟨hmem, hbelow⟩
  · rw [hbest] at hm ⊢
    refine (eq_of_not_lt h.number (b := posInf) (by simp) hm ?_).symm
    cases m <;> rfl
  · exact eq_of_not_lt (ne_nan_of_lt hbelow).1 h.number (h.least _ hmem) hm

theorem IsGreatestOf.extreme_eq (h : IsGreatestOf values m) :
    extreme (fun a b => lt b a) negInf values = m := by
  obtain ⟨hbest, hnone⟩ := @extreme_spec _ (fun a b : ExactNum K => lt b a) lt_irrefl
    (fun a b c hab hbc => lt_trans c b a hbc hab) negInf values
  have hm := hnone m h.mem
  rcases hbest with hbest | ⟨hmem, hbelow⟩
  · rw [hbest] at hm ⊢
    refine (eq_of_not_lt h.number (b := negInf) (by simp) ?_ hm).symm
    cases m <;> rfl
  · exact eq_of_not_lt (ne_nan_of_lt hbelow).2 h.number hm (h.greatest _ hmem)

/-! ## Arithmetic -/

def isNan : ExactNum K → Bool
  | nan => true
  | _ => false

def le : ExactNum K → ExactNum K → Bool
  | nan, _ => false
  | _, nan => false
  | negInf, _ => true
  | _, posInf => true
  | fin v, fin w => decide (v ≤ w)
  | _, _ => false

def neg [Neg K] : ExactNum K → ExactNum K
  | nan => nan
  | negInf => posInf
  | fin v => fin (-v)
  | posInf => negInf

def abs [AddGroup K] : ExactNum K → ExactNum K
  | nan => nan
  | fin v => fin |v|
  | _ => posInf

section
variable [Zero K]

def signum : ExactNum K → ℤ
  | nan => 0
  | negInf => -1
  | fin v => if v < 0 then -1 else if 0 < v then 1 else 0
  | posInf => 1

def infinityOf (sign : ℤ) : ExactNum K :=
  if sign = 0 then nan else if sign < 0 then negInf else posInf

def mul [Mul K] : ExactNum K → ExactNum K → ExactNum K
  | nan, _ => nan
  | _, nan => nan
  | fin v, fin w => fin (v * w)
  | a, b => infinityOf (a.signum * b.signum)

/-- Zero has no sign here, so that a division by it goes to the infinity of the numerator. -/
def div [Div K] [Neg K] : ExactNum K → ExactNum K → ExactNum K
  | nan, _ => nan
  | _, nan => nan
  | fin v, fin w => if w = 0 then infinityOf (signum (fin v)) else fin (v / w)
  | fin _, _ => fin 0
  | a, fin w => if w < 0 then a.neg else a
  | _, _ => nan

end

def sub [Add K] [Neg K] (a b : ExactNum K) : ExactNum K := a.add b.neg

end ExactNum
