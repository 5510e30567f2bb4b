import Mathlib.Data.List.Sort
import Mathlib.Order.Lattice

/-!
# The first elements of an order

A list is sorted by keys of a linear order. Distinct keys make the sorted list unique, so that
a partial selection that is cut and sorted gives the first elements of the sorted list, and
the elements a filter would have kept are the first ones if enough of them come first.
-/

universe u v w

variable {α : Type u} {κ : Type v} [LinearOrder κ] (key : α → κ)

def sortByKey (l : List α) : List α := l.mergeSort fun a b => decide (key a ≤ key b)

/-- What a partial selection at `n` promises of the list it leaves. -/
structure CutAt (n : ℕ) (l m : List α) : Prop where
  perm : m.Perm l
  below : ∀ a ∈ m.take n, ∀ b ∈ m.drop n, key a ≤ key b

variable {key} {l m : List α} {n : ℕ}

theorem sortByKey_perm (key : α → κ) (l : List α) : (sortByKey key l).Perm l :=
  List.mergeSort_perm l _

theorem mem_sortByKey {a : α} : a ∈ sortByKey key l ↔ a ∈ l := (sortByKey_perm key l).mem_iff

theorem length_sortByKey (key : α → κ) (l : List α) : (sortByKey key l).length = l.length :=
  (sortByKey_perm key l).length_eq

theorem sortByKey_pairwise_le (key : α → κ) (l : List α) :
    (sortByKey key l).Pairwise fun a b => key a ≤ key b := by
  have htrans : ∀ a b c : α, decide (key a ≤ key b) = true → decide (key b ≤ key c) = true →
      decide (key a ≤ key c) = true := by
    intro a b c hab hbc
    rw [decide_eq_true_eq] at hab hbc ⊢
    exact hab.trans hbc
  have htotal : ∀ a b : α, (decide (key a ≤ key b) || decide (key b ≤ key a)) = true := by
    intro a b
    rw [Bool.or_eq_true, decide_eq_true_eq, decide_eq_true_eq]
    exact le_total (key a) (key b)
  refine (List.pairwise_mergeSort htrans htotal l).imp fun h => ?_
  exact of_decide_eq_true h

theorem sortByKey_pairwise (hkeys : (l.map key).Nodup) :
    (sortByKey key l).Pairwise fun a b => key a < key b := by
  have hnodup : ((sortByKey key l).map key).Nodup :=
    ((sortByKey_perm key l).map key).nodup_iff.mpr hkeys
  have hne : (sortByKey key l).Pairwise fun a b => key a ≠ key b := List.pairwise_map.mp hnodup
  exact (sortByKey_pairwise_le key l).imp₂ (fun _ _ hle hne => lt_of_le_of_ne hle hne) hne

theorem eq_sortByKey (hperm : m.Perm l) (hsorted : m.Pairwise fun a b => key a < key b) :
    m = sortByKey key l := by
  have hkeys : (l.map key).Nodup := by
    rw [← (hperm.map key).nodup_iff]
    exact List.pairwise_map.mpr (hsorted.imp ne_of_lt)
  refine List.Perm.eq_of_pairwise ?_ hsorted (sortByKey_pairwise hkeys)
    (hperm.trans (sortByKey_perm key l).symm)
  intro a b _ _ hab hba
  exact absurd hab hba.asymm

theorem CutAt.sortByKey_take (h : CutAt key n l m) (hkeys : (l.map key).Nodup)
    (hn : n ≤ l.length) : sortByKey key (m.take n) = (sortByKey key l).take n := by
  have hmKeys : (m.map key).Nodup := (h.perm.map key).nodup_iff.mpr hkeys
  have hsplit : (m.take n ++ m.drop n).Pairwise fun a b => key a ≠ key b := by
    rw [List.take_append_drop]
    exact List.pairwise_map.mp hmKeys
  obtain ⟨hfront, hback, hcross⟩ := List.pairwise_append.mp hsplit
  have hwhole : sortByKey key (m.take n) ++ sortByKey key (m.drop n) = sortByKey key l := by
    refine eq_sortByKey ?_ (List.pairwise_append.mpr ⟨?_, ?_, ?_⟩)
    · have happend := (sortByKey_perm key (m.take n)).append (sortByKey_perm key (m.drop n))
      rw [List.take_append_drop] at happend
      exact happend.trans h.perm
    · exact sortByKey_pairwise (List.pairwise_map.mpr hfront)
    · exact sortByKey_pairwise (List.pairwise_map.mpr hback)
    · intro a ha b hb
      rw [mem_sortByKey] at ha hb
      exact lt_of_le_of_ne (h.below a ha b hb) (hcross a ha b hb)
  have hlength : (sortByKey key (m.take n)).length = n := by
    rw [length_sortByKey, List.length_take, h.perm.length_eq, min_eq_left hn]
  rw [← hwhole, List.take_append_of_le_length hlength.ge, List.take_of_length_le hlength.le]

theorem sortByKey_filter (p : α → Bool) (hkeys : (l.map key).Nodup) :
    (sortByKey key l).filter p = sortByKey key (l.filter p) :=
  eq_sortByKey ((sortByKey_perm key l).filter p) ((sortByKey_pairwise hkeys).filter p)

/-- The first `n` elements are those of the filtered list if each element the filter drops has
`n` elements that it keeps below itself. -/
theorem take_eq_take_filter_iff (p : α → Bool) (hsorted : l.Pairwise fun a b => key a < key b)
    (n : ℕ) :
    l.take n = (l.filter p).take n ↔
      ∀ b ∈ l, p b = false → n ≤ l.countP fun a => p a && decide (key a < key b) := by
  induction l generalizing n with
  | nil => simp
  | cons c l ih =>
    obtain ⟨hhead, htail⟩ := List.pairwise_cons.mp hsorted
    cases n with
    | zero => simp
    | succ n =>
      cases hc : p c with
      | true =>
        rw [List.filter_cons_of_pos hc, List.take_succ_cons, List.take_succ_cons,
          List.cons_inj_right, ih htail n]
        refine ⟨fun h b hb hpb => ?_, fun h b hb hpb => ?_⟩
        · rcases List.mem_cons.mp hb with rfl | hb
          · rw [hc] at hpb
            cases hpb
          · rw [List.countP_cons_of_pos (by rw [hc, decide_eq_true (hhead b hb)]; rfl)]
            exact Nat.succ_le_succ (h b hb hpb)
        · have hcount := h b (List.mem_cons_of_mem c hb) hpb
          rw [List.countP_cons_of_pos (by rw [hc, decide_eq_true (hhead b hb)]; rfl)] at hcount
          exact Nat.le_of_succ_le_succ hcount
      | false =>
        rw [List.filter_cons_of_neg (by rw [hc]; exact Bool.false_ne_true)]
        refine ⟨fun h => ?_, fun h => ?_⟩
        · have hmem : c ∈ (l.filter p).take (n + 1) := by
            rw [← h, List.take_succ_cons]
            exact List.mem_cons_self
          have hpc := List.of_mem_filter (List.mem_of_mem_take hmem)
          rw [hc] at hpc
          cases hpc
        · have hcount := h c List.mem_cons_self hc
          have hnone : (c :: l).countP (fun a => p a && decide (key a < key c)) = 0 := by
            rw [List.countP_eq_zero]
            intro a ha hbelow
            rw [Bool.and_eq_true, decide_eq_true_eq] at hbelow
            rcases List.mem_cons.mp ha with rfl | ha
            · exact lt_irrefl _ hbelow.2
            · exact (hhead a ha).asymm hbelow.2
          omega

/-! ## Keeping the least -/

/-- The first elements of a list in an order: the others do not come before any of them. -/
structure FirstOf (key : α → κ) (k : ℕ) (l first : List α) : Prop where
  length : first.length = min k l.length
  sorted : first.Pairwise fun a b => key a ≤ key b
  others : ∃ rest, l.Perm (first ++ rest) ∧ ∀ a ∈ first, ∀ b ∈ rest, key a ≤ key b

theorem FirstOf.of_perm {first : List α} {k : ℕ} (h : FirstOf key k l first) (hm : m.Perm l) :
    FirstOf key k m first := by
  obtain ⟨rest, hperm, hle⟩ := h.others
  exact ⟨h.length.trans (by rw [hm.length_eq]), h.sorted, rest, hm.trans hperm, hle⟩

theorem FirstOf.map {β : Type w} {key' : β → κ} {f : α → β} {first : List α} {k : ℕ}
    (h : FirstOf key k l first) (hf : ∀ a ∈ l, key' (f a) = key a) :
    FirstOf key' k (l.map f) (first.map f) := by
  obtain ⟨rest, hperm, hle⟩ := h.others
  have hmem : ∀ a ∈ first, a ∈ l := fun a ha => hperm.mem_iff.mpr (List.mem_append_left rest ha)
  refine ⟨by rw [List.length_map, List.length_map, h.length], ?_, rest.map f, ?_, fun a ha b hb => ?_⟩
  · refine List.pairwise_map.mpr (h.sorted.imp_of_mem fun {a b} ha hb hab => ?_)
    rw [hf a (hmem a ha), hf b (hmem b hb)]
    exact hab
  · rw [← List.map_append]
    exact hperm.map f
  · obtain ⟨x, hx, rfl⟩ := List.mem_map.mp ha
    obtain ⟨y, hy, rfl⟩ := List.mem_map.mp hb
    rw [hf x (hmem x hx), hf y (hperm.mem_iff.mpr (List.mem_append_right first hy))]
    exact hle x hx y hy

theorem FirstOf.map_key {first : List α} {k : ℕ} (h : FirstOf key k l first) :
    first.map key = ((l.map key).insertionSort (· ≤ ·)).take k := by
  obtain ⟨rest, hperm, hle⟩ := h.others
  have hwhole : first.map key ++ (rest.map key).insertionSort (· ≤ ·) =
      (l.map key).insertionSort (· ≤ ·) := by
    refine List.Perm.eq_of_pairwise ?_ ?_ (List.pairwise_insertionSort _ _) ?_
    · intro a b _ _ hab hba
      exact le_antisymm hab hba
    · refine List.pairwise_append.mpr
        ⟨List.pairwise_map.mpr h.sorted, List.pairwise_insertionSort _ _, fun a ha b hb => ?_⟩
      obtain ⟨x, hx, rfl⟩ := List.mem_map.mp ha
      obtain ⟨y, hy, rfl⟩ := List.mem_map.mp ((List.mem_insertionSort _).mp hb)
      exact hle x hx y hy
    · have hrest := List.perm_insertionSort (· ≤ ·) (rest.map key)
      refine ((List.Perm.refl (first.map key)).append hrest).trans ?_
      rw [← List.map_append]
      exact (hperm.map key).symm.trans (List.perm_insertionSort (· ≤ ·) (l.map key)).symm
  have hlength : (first.map key).length = min k l.length := by rw [List.length_map, h.length]
  rw [← hwhole]
  rcases le_total k l.length with hk | hk
  · rw [min_eq_left hk] at hlength
    rw [List.take_append_of_le_length hlength.ge, List.take_of_length_le hlength.le]
  · rw [min_eq_right hk] at hlength
    have hnil : rest = [] := by
      have hsum := hperm.length_eq
      rw [List.length_append, h.length, min_eq_right hk] at hsum
      exact List.length_eq_zero_iff.mp (by omega)
    rw [hnil, List.map_nil, List.insertionSort_nil, List.append_nil,
      List.take_of_length_le (hlength.le.trans hk)]

theorem firstOf_take_of_sorted {k : ℕ} (hperm : m.Perm l)
    (hsorted : m.Pairwise fun a b => key a ≤ key b) : FirstOf key k l (m.take k) := by
  rw [← List.take_append_drop k m] at hsorted
  obtain ⟨hfront, -, hcross⟩ := List.pairwise_append.mp hsorted
  refine ⟨by rw [List.length_take, hperm.length_eq], hfront, m.drop k, ?_, hcross⟩
  rw [List.take_append_drop]
  exact hperm.symm

/-- Of the elements seen, at most so many least ones are kept. -/
structure KeepsLeast (key : α → κ) (limit : ℕ) (seen kept : List α) : Prop where
  length : kept.length ≤ limit
  others : ∃ dropped, seen.Perm (kept ++ dropped) ∧ (dropped ≠ [] → kept.length = limit) ∧
    ∀ a ∈ kept, ∀ b ∈ dropped, key a ≤ key b

namespace KeepsLeast
variable {limit : ℕ} {seen kept kept' : List α} {a b : α}

theorem nil (key : α → κ) (limit : ℕ) : KeepsLeast key limit [] [] :=
  ⟨Nat.zero_le _, [], .refl _, fun h => absurd rfl h, fun _ ha => absurd ha List.not_mem_nil⟩

theorem perm (h : KeepsLeast key limit seen kept) (hkept : kept'.Perm kept) :
    KeepsLeast key limit seen kept' := by
  obtain ⟨dropped, hseen, hfull, hle⟩ := h.others
  refine ⟨hkept.length_eq.trans_le h.length, dropped, hseen.trans (hkept.symm.append_right _), ?_, ?_⟩
  · intro hne
    exact hkept.length_eq.trans (hfull hne)
  · intro x hx
    exact hle x (hkept.mem_iff.mp hx)

theorem add (h : KeepsLeast key limit seen kept) (hroom : kept.length < limit) (a : α) :
    KeepsLeast key limit (a :: seen) (a :: kept) := by
  obtain ⟨dropped, hseen, hfull, hle⟩ := h.others
  have hnil : dropped = [] := by
    by_contra hne
    exact absurd (hfull hne) hroom.ne
  subst hnil
  exact ⟨hroom, [], hseen.cons a, fun hne => absurd rfl hne, fun _ _ _ hb => absurd hb List.not_mem_nil⟩

theorem skip (h : KeepsLeast key limit seen kept) (hroom : kept.length = limit)
    (ha : ∀ b ∈ kept, key b ≤ key a) : KeepsLeast key limit (a :: seen) kept := by
  obtain ⟨dropped, hseen, hfull, hle⟩ := h.others
  refine ⟨h.length, a :: dropped, (hseen.cons a).trans List.perm_middle.symm, fun _ => hroom, ?_⟩
  intro x hx y hy
  rcases List.mem_cons.mp hy with rfl | hy
  · exact ha x hx
  · exact hle x hx y hy

theorem swap (h : KeepsLeast key limit seen kept) (hroom : kept.length = limit)
    (hperm : (a :: kept).Perm (b :: kept')) (hb : ∀ c ∈ kept', key c ≤ key b)
    (ha : ∃ c ∈ kept, key a ≤ key c) : KeepsLeast key limit (a :: seen) kept' := by
  obtain ⟨dropped, hseen, hfull, hle⟩ := h.others
  have hlength : kept'.length = limit := by
    have hsame := hperm.length_eq
    rw [List.length_cons, List.length_cons] at hsame
    omega
  refine ⟨hlength.le, b :: dropped, ?_, fun _ => hlength, ?_⟩
  · exact (hseen.cons a).trans ((hperm.append_right dropped).trans List.perm_middle.symm)
  · intro x hx y hy
    rcases List.mem_cons.mp hy with rfl | hy
    · exact hb x hx
    · rcases List.mem_cons.mp (hperm.mem_iff.mpr (List.mem_cons_of_mem b hx)) with rfl | hx
      · obtain ⟨c, hc, hac⟩ := ha
        exact hac.trans (hle c hc y hy)
      · exact hle x hx y hy

theorem all (h : KeepsLeast key limit seen kept) (hfew : seen.length ≤ limit) : kept.Perm seen := by
  obtain ⟨dropped, hseen, hfull, hle⟩ := h.others
  have hnil : dropped = [] := by
    by_contra hne
    have hsum := hseen.length_eq
    rw [List.length_append, hfull hne] at hsum
    exact hne (List.length_eq_zero_iff.mp (by omega))
  rw [hnil, List.append_nil] at hseen
  exact hseen.symm

theorem firstOf_take (h : KeepsLeast key limit seen kept) (hperm : m.Perm kept)
    (hsorted : m.Pairwise fun a b => key a ≤ key b) {k : ℕ} (hk : k ≤ limit) :
    FirstOf key k seen (m.take k) := by
  obtain ⟨dropped, hseen, hfull, hle⟩ := h.others
  obtain ⟨hlength, hfront, rest, hrest, hcross⟩ := firstOf_take_of_sorted (k := k) hperm hsorted
  refine ⟨?_, hfront, rest ++ dropped, ?_, fun a ha b hb => ?_⟩
  · rw [hlength, hseen.length_eq, List.length_append]
    cases dropped with
    | nil => rfl
    | cons d dropped =>
      have hsame := hfull (List.cons_ne_nil d dropped)
      omega
  · rw [← List.append_assoc]
    exact hseen.trans (hrest.append_right dropped)
  · rcases List.mem_append.mp hb with hb | hb
    · exact hcross a ha b hb
    · exact hle a (hrest.mem_iff.mpr (List.mem_append_left rest ha)) b hb

end KeepsLeast
