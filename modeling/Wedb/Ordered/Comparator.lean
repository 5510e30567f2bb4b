import Mathlib.Data.Finset.Card
import Mathlib.Data.Finset.Dedup
import Mathlib.Data.List.Sort
import Mathlib.Data.Set.Insert
import Wedb.Ordered.TopK

/-!
# Comparators

A comparator orders a set strictly and totally if it tells different elements apart, answers
the other way round for swapped arguments and is transitive. Sorting by it then does not depend
on the order before. A comparator of two layers orders each layer; one that compares some pairs
in an order of their own and all others by keys is transitive if no key lies between two
elements that the own order puts the other way.
-/

universe u v

variable {α : Type u} {κ : Type v}

structure StrictTotalOn (cmp : α → α → Ordering) (s : Set α) : Prop where
  swap : ∀ a ∈ s, ∀ b ∈ s, cmp b a = (cmp a b).swap
  apart : ∀ a ∈ s, ∀ b ∈ s, a ≠ b → cmp a b ≠ .eq
  trans : ∀ a ∈ s, ∀ b ∈ s, ∀ c ∈ s, cmp a b = .lt → cmp b c = .lt → cmp a c = .lt

section
variable {cmp cmp' : α → α → Ordering} {s t : Set α} {a b : α}

theorem StrictTotalOn.mono (h : StrictTotalOn cmp t) (hst : s ⊆ t) : StrictTotalOn cmp s where
  swap a ha b hb := h.swap a (hst ha) b (hst hb)
  apart a ha b hb := h.apart a (hst ha) b (hst hb)
  trans a ha b hb c hc := h.trans a (hst ha) b (hst hb) c (hst hc)

theorem StrictTotalOn.lt_swap (h : StrictTotalOn cmp s) (ha : a ∈ s) (hb : b ∈ s) :
    cmp b a = .gt ↔ cmp a b = .lt := by
  rw [h.swap a ha b hb, Ordering.swap_eq_gt]

theorem StrictTotalOn.reverse (h : StrictTotalOn cmp s) :
    StrictTotalOn (fun a b => (cmp a b).swap) s where
  swap a ha b hb := by rw [h.swap a ha b hb]
  apart a ha b hb hne heq := h.apart a ha b hb hne (Ordering.swap_eq_eq.mp heq)
  trans a ha b hb c hc hab hbc := by
    rw [← h.swap a ha b hb] at hab
    rw [← h.swap b hb c hc] at hbc
    rw [← h.swap a ha c hc]
    exact h.trans c hc b hb a ha hbc hab

theorem strictTotalOn_reverse : StrictTotalOn (fun a b => (cmp a b).swap) s ↔
    StrictTotalOn cmp s := by
  refine ⟨fun h => ?_, StrictTotalOn.reverse⟩
  have hback := h.reverse
  simpa only [Ordering.swap_swap] using hback

/-! ## Sorting -/

theorem StrictTotalOn.exists_key {l : List α} (h : StrictTotalOn cmp {a | a ∈ l}) :
    ∃ key : α → ℕ, ∀ a ∈ l, ∀ b ∈ l, key a < key b ↔ cmp a b = .lt := by
  classical
  have hmono : ∀ a ∈ l, ∀ b ∈ l, cmp a b = .lt →
      (l.toFinset.filter fun c => cmp c a = .lt).card <
        (l.toFinset.filter fun c => cmp c b = .lt).card := by
    intro a ha b hb hab
    refine Finset.card_lt_card (Finset.ssubset_iff_of_subset ?_ |>.mpr ⟨a, ?_, ?_⟩)
    · intro c hc
      rw [Finset.mem_filter, List.mem_toFinset] at hc ⊢
      exact ⟨hc.1, h.trans c hc.1 a ha b hb hc.2 hab⟩
    · rw [Finset.mem_filter, List.mem_toFinset]
      exact ⟨ha, hab⟩
    · intro hself
      rw [Finset.mem_filter] at hself
      have hgt := (h.lt_swap ha ha).mpr hself.2
      rw [hself.2] at hgt
      cases hgt
  refine ⟨fun a => (l.toFinset.filter fun c => cmp c a = .lt).card, fun a ha b hb => ?_⟩
  refine ⟨fun hlt => ?_, hmono a ha b hb⟩
  cases hcmp : cmp a b with
  | lt => rfl
  | eq =>
    have hab : a = b := by
      by_contra hne
      exact h.apart a ha b hb hne hcmp
    exact absurd hlt (hab ▸ lt_irrefl _)
  | gt => exact absurd hlt (hmono b hb a ha ((h.lt_swap hb ha).mp hcmp)).asymm

theorem StrictTotalOn.nodup_map_key {l : List α} (h : StrictTotalOn cmp {a | a ∈ l})
    (hnodup : l.Nodup) {key : α → ℕ} (hkey : ∀ a ∈ l, ∀ b ∈ l, key a < key b ↔ cmp a b = .lt) :
    (l.map key).Nodup := by
  refine List.Nodup.map_on (fun a ha b hb heq => ?_) hnodup
  by_contra hne
  cases hcmp : cmp a b with
  | lt => exact absurd ((hkey a ha b hb).mpr hcmp) (heq ▸ lt_irrefl _)
  | eq => exact h.apart a ha b hb hne hcmp
  | gt => exact absurd ((hkey b hb a ha).mpr ((h.lt_swap hb ha).mp hcmp)) (heq ▸ lt_irrefl _)

theorem StrictTotalOn.sort {l : List α} (h : StrictTotalOn cmp {a | a ∈ l}) (hnodup : l.Nodup) :
    ∃ sorted : List α, sorted.Perm l ∧ sorted.Pairwise (fun a b => cmp a b = .lt) ∧
      ∀ m : List α, m.Perm l → m.mergeSort (fun a b => (cmp a b).isLE) = sorted := by
  obtain ⟨key, hkey⟩ := h.exists_key
  have hkeys := h.nodup_map_key hnodup hkey
  have hperm := sortByKey_perm key l
  refine ⟨sortByKey key l, hperm, ?_, fun m hm => ?_⟩
  · refine (sortByKey_pairwise hkeys).imp_of_mem fun ha hb hab => ?_
    exact (hkey _ (hperm.mem_iff.mp ha) _ (hperm.mem_iff.mp hb)).mp hab
  · have hle : ∀ a ∈ m, ∀ b ∈ m, (cmp a b).isLE = decide (key (id a) ≤ key (id b)) := by
      intro a ha b hb
      have hiff := hkey b (hm.mem_iff.mp hb) a (hm.mem_iff.mp ha)
      rw [← h.lt_swap (hm.mem_iff.mp hb) (hm.mem_iff.mp ha)] at hiff
      rw [Bool.eq_iff_iff, decide_eq_true_eq, Ordering.isLE_iff_ne_gt, ← not_lt, id, id]
      exact not_congr hiff.symm
    have hsort := List.map_mergeSort (f := id) (s := fun a b => decide (key a ≤ key b)) hle
    rw [List.map_id, List.map_id] at hsort
    rw [hsort]
    refine eq_sortByKey ((sortByKey_perm key m).trans hm) ?_
    exact sortByKey_pairwise ((hm.map key).nodup_iff.mpr hkeys)

/-! ## Layers and mixtures -/

theorem strictTotalOn_layers {p : α → Prop}
    (hcross : ∀ a ∈ s, ∀ b ∈ s, p a → ¬p b → cmp a b = .gt ∧ cmp b a = .lt) :
    StrictTotalOn cmp s ↔ StrictTotalOn cmp {a | a ∈ s ∧ p a} ∧
      StrictTotalOn cmp {a | a ∈ s ∧ ¬p a} := by
  refine ⟨fun h => ⟨h.mono fun _ ha => ha.1, h.mono fun _ ha => ha.1⟩, fun ⟨hp, hn⟩ => ?_⟩
  refine ⟨fun a ha b hb => ?_, fun a ha b hb hne => ?_, fun a ha b hb c hc hab hbc => ?_⟩
  · by_cases hpa : p a <;> by_cases hpb : p b
    · exact hp.swap a ⟨ha, hpa⟩ b ⟨hb, hpb⟩
    · rw [(hcross a ha b hb hpa hpb).1, (hcross a ha b hb hpa hpb).2]
      rfl
    · rw [(hcross b hb a ha hpb hpa).1, (hcross b hb a ha hpb hpa).2]
      rfl
    · exact hn.swap a ⟨ha, hpa⟩ b ⟨hb, hpb⟩
  · by_cases hpa : p a <;> by_cases hpb : p b
    · exact hp.apart a ⟨ha, hpa⟩ b ⟨hb, hpb⟩ hne
    · rw [(hcross a ha b hb hpa hpb).1]
      exact Ordering.noConfusion
    · rw [(hcross b hb a ha hpb hpa).2]
      exact Ordering.noConfusion
    · exact hn.apart a ⟨ha, hpa⟩ b ⟨hb, hpb⟩ hne
  · by_cases hpa : p a
    · have hpb : p b := by
        by_contra hpb
        rw [(hcross a ha b hb hpa hpb).1] at hab
        cases hab
      have hpc : p c := by
        by_contra hpc
        rw [(hcross b hb c hc hpb hpc).1] at hbc
        cases hbc
      exact hp.trans a ⟨ha, hpa⟩ b ⟨hb, hpb⟩ c ⟨hc, hpc⟩ hab hbc
    · by_cases hpc : p c
      · exact (hcross c hc a ha hpc hpa).2
      · have hpb : ¬p b := by
          intro hpb
          rw [(hcross b hb c hc hpb hpc).1] at hbc
          cases hbc
        exact hn.trans a ⟨ha, hpa⟩ b ⟨hb, hpb⟩ c ⟨hc, hpc⟩ hab hbc

end

section
variable [LinearOrder κ]

def linearCmp (x y : κ) : Ordering := compareOfLessAndEq x y

theorem linearCmp_swap (x y : κ) : linearCmp y x = (linearCmp x y).swap :=
  compareOfLessAndEq_eq_swap le_antisymm le_total not_le

theorem linearCmp_eq_lt {x y : κ} : linearCmp x y = .lt ↔ x < y := compareOfLessAndEq_eq_lt

theorem linearCmp_eq_eq {x y : κ} : linearCmp x y = .eq ↔ x = y :=
  compareOfLessAndEq_eq_eq le_refl not_le

theorem isLE_linearCmp {x y : κ} : (linearCmp x y).isLE = true ↔ x ≤ y := by
  rw [Ordering.isLE_iff_ne_gt, ← Ordering.swap_eq_lt, ← linearCmp_swap, linearCmp_eq_lt, not_lt]

theorem strictTotalOn_of_key {cmp : α → α → Ordering} {s : Set α} {key : α → κ}
    (hcmp : ∀ a ∈ s, ∀ b ∈ s, cmp a b = linearCmp (key a) (key b))
    (hkey : Set.InjOn key s) : StrictTotalOn cmp s where
  swap a ha b hb := by rw [hcmp a ha b hb, hcmp b hb a ha, linearCmp_swap]
  apart a ha b hb hne := by
    rw [hcmp a ha b hb, Ne, linearCmp_eq_eq]
    exact fun h => hne (hkey ha hb h)
  trans a ha b hb c hc hab hbc := by
    rw [hcmp a ha b hb, linearCmp_eq_lt] at hab
    rw [hcmp b hb c hc, linearCmp_eq_lt] at hbc
    rw [hcmp a ha c hc, linearCmp_eq_lt]
    exact hab.trans hbc

/-- Two special elements compare in an order of their own, and all other pairs by keys. -/
theorem strictTotalOn_mixture {cmp : α → α → Ordering} {s : Set α} {key : α → κ}
    {special : α → Prop} (hcross : ∀ a ∈ s, ∀ b ∈ s, ¬(special a ∧ special b) →
      cmp a b = linearCmp (key a) (key b)) :
    StrictTotalOn cmp s ↔ StrictTotalOn cmp {a | a ∈ s ∧ special a} ∧
      (∀ a ∈ s, ∀ b ∈ s, a ≠ b → ¬(special a ∧ special b) → key a ≠ key b) ∧
      ∀ a ∈ s, ∀ b ∈ s, ∀ c ∈ s, special a → special b → ¬special c → cmp a b = .lt →
        key b < key c → ¬key c < key a := by
  have hlt : ∀ {a b}, a ∈ s → b ∈ s → ¬(special a ∧ special b) →
      (cmp a b = .lt ↔ key a < key b) := by
    intro a b ha hb h
    rw [hcross a ha b hb h, linearCmp_eq_lt]
  have hnot : ∀ {a b}, ¬(special a ∧ special b) → ¬(special b ∧ special a) :=
    fun h hba => h ⟨hba.2, hba.1⟩
  constructor
  · refine fun h => ⟨h.mono fun _ ha => ha.1, fun a ha b hb hne hab heq => ?_, ?_⟩
    · refine h.apart a ha b hb hne ?_
      rw [hcross a ha b hb hab, linearCmp_eq_eq]
      exact heq
    · intro a ha b hb c hc _ _ hsc hab hbc hca
      have hbc' := (hlt hb hc fun hsp => hsc hsp.2).mpr hbc
      have hca' := (hlt hc ha fun hsp => hsc hsp.1).mpr hca
      have hac := (h.lt_swap ha hc).mpr (h.trans a ha b hb c hc hab hbc')
      rw [hca'] at hac
      cases hac
  · rintro ⟨hsp, hapart, hbetween⟩
    refine ⟨fun a ha b hb => ?_, fun a ha b hb hne => ?_, fun a ha b hb c hc hab hbc => ?_⟩
    · by_cases h : special a ∧ special b
      · exact hsp.swap a ⟨ha, h.1⟩ b ⟨hb, h.2⟩
      · rw [hcross a ha b hb h, hcross b hb a ha (hnot h), linearCmp_swap]
    · by_cases h : special a ∧ special b
      · exact hsp.apart a ⟨ha, h.1⟩ b ⟨hb, h.2⟩ hne
      · rw [hcross a ha b hb h, Ne, linearCmp_eq_eq]
        exact hapart a ha b hb hne h
    · by_cases hsab : special a ∧ special b
      · by_cases hsc : special c
        · exact hsp.trans a ⟨ha, hsab.1⟩ b ⟨hb, hsab.2⟩ c ⟨hc, hsc⟩ hab hbc
        · have hac : ¬(special a ∧ special c) := fun h => hsc h.2
          have hbcKey := (hlt hb hc fun h => hsc h.2).mp hbc
          refine (hlt ha hc hac).mpr (lt_of_le_of_ne ?_ ?_)
          · exact not_lt.mp (hbetween a ha b hb c hc hsab.1 hsab.2 hsc hab hbcKey)
          · exact hapart a ha c hc (fun h => hsc (h ▸ hsab.1)) hac
      · have habKey := (hlt ha hb hsab).mp hab
        by_cases hsbc : special b ∧ special c
        · have hsa : ¬special a := fun h => hsab ⟨h, hsbc.1⟩
          have hac : ¬(special a ∧ special c) := fun h => hsa h.1
          refine (hlt ha hc hac).mpr (lt_of_le_of_ne ?_ ?_)
          · exact not_lt.mp fun hca => hbetween b hb c hc a ha hsbc.1 hsbc.2 hsa hbc hca habKey
          · exact hapart a ha c hc (fun h => hsa (h ▸ hsbc.2)) hac
        · have hbcKey := (hlt hb hc hsbc).mp hbc
          by_cases hsac : special a ∧ special c
          · have hsb : ¬special b := fun h => hsab ⟨hsac.1, h⟩
            cases hcmp : cmp a c with
            | lt => rfl
            | eq =>
              have hne : a ≠ c := fun h => (habKey.trans hbcKey).ne (congrArg key h)
              exact absurd hcmp (hsp.apart a ⟨ha, hsac.1⟩ c ⟨hc, hsac.2⟩ hne)
            | gt =>
              have hca := (hsp.lt_swap (a := c) (b := a) ⟨hc, hsac.2⟩ ⟨ha, hsac.1⟩).mp hcmp
              exact absurd hbcKey (hbetween c hc a ha b hb hsac.2 hsac.1 hsb hca habKey)
          · exact (hlt ha hc hsac).mpr (habKey.trans hbcKey)

end

/-! ## Stable sorts -/

section
variable {le : α → α → Prop} {l m : List α}

/-- The same elements in order, where no two that were in order have changed places. -/
structure StableSort (le : α → α → Prop) (l m : List α) : Prop where
  perm : m.Perm l
  sorted : m.Pairwise le
  stable : ∀ c : List α, c.Pairwise le → c.Sublist l → c.Sublist m

theorem stableSort_insertionSort [DecidableRel le] (htotal : ∀ a b, le a b ∨ le b a)
    (htrans : ∀ a b c, le a b → le b c → le a c) (l : List α) :
    StableSort le l (l.insertionSort le) := by
  have htot : Std.Total le := ⟨htotal⟩
  have htr : IsTrans α le := ⟨htrans⟩
  exact ⟨List.perm_insertionSort le l, List.pairwise_insertionSort le l,
    fun c hc hsub => List.sublist_insertionSort hc hsub⟩

theorem eq_of_sorted_of_ties [DecidableRel le] (hrefl : ∀ a, le a a) (hl : l.Pairwise le)
    (hm : m.Pairwise le) (hperm : l.Perm m)
    (hties : ∀ a, l.filter (fun b => le a b ∧ le b a) = m.filter fun b => le a b ∧ le b a) :
    l = m := by
  induction l generalizing m with
  | nil => exact hperm.nil_eq
  | cons a l ih =>
    cases m with
    | nil => exact absurd hperm.length_eq (by simp)
    | cons b m =>
      have hab : a = b := by
        by_contra hne
        have ha := (List.mem_cons.mp (hperm.mem_iff.mp List.mem_cons_self)).resolve_left hne
        have hb := (List.mem_cons.mp (hperm.mem_iff.mpr List.mem_cons_self)).resolve_left
          (Ne.symm hne)
        have hle := (List.pairwise_cons.mp hl).1 b hb
        have hge := (List.pairwise_cons.mp hm).1 a ha
        have hhead := hties a
        rw [List.filter_cons_of_pos (by simpa using hrefl a),
          List.filter_cons_of_pos (by simpa using ⟨hle, hge⟩)] at hhead
        exact hne (List.cons.inj hhead).1
      subst hab
      refine congrArg (List.cons a) (ih (List.pairwise_cons.mp hl).2 (List.pairwise_cons.mp hm).2
        hperm.cons_inv fun c => ?_)
      have hc := hties c
      rw [List.filter_cons, List.filter_cons] at hc
      split_ifs at hc
      · exact (List.cons.inj hc).2
      · exact hc

theorem StableSort.ties [DecidableRel le] (htrans : ∀ a b c, le a b → le b c → le a c)
    (h : StableSort le l m) (a : α) :
    m.filter (fun b => le a b ∧ le b a) = l.filter fun b => le a b ∧ le b a := by
  have hties : (l.filter fun b => le a b ∧ le b a).Pairwise le := by
    refine List.pairwise_of_forall_mem_list fun x hx y hy => ?_
    rw [List.mem_filter, decide_eq_true_eq] at hx hy
    exact htrans x a y hx.2.2 hy.2.1
  have hsub := (h.stable _ hties List.filter_sublist).filter fun b => decide (le a b ∧ le b a)
  rw [List.filter_filter] at hsub
  simp only [Bool.and_self] at hsub
  refine (hsub.eq_of_length ?_).symm
  exact ((h.perm.filter _).length_eq).symm

theorem StableSort.unique [DecidableRel le] {m' : List α} (hrefl : ∀ a, le a a)
    (htrans : ∀ a b c, le a b → le b c → le a c) (h : StableSort le l m)
    (h' : StableSort le l m') : m = m' :=
  eq_of_sorted_of_ties hrefl h.sorted h'.sorted (h.perm.trans h'.perm.symm) fun a =>
    (h.ties htrans a).trans (h'.ties htrans a).symm

theorem isLE_directed (key : α → κ) [LinearOrder κ] (desc : Bool) (a b : α) :
    (if desc then (linearCmp (key a) (key b)).swap else linearCmp (key a) (key b)).isLE = true ↔
      if desc then key b ≤ key a else key a ≤ key b := by
  cases desc
  · exact isLE_linearCmp
  · rw [if_pos rfl, if_pos rfl, ← linearCmp_swap]
    exact isLE_linearCmp

end
