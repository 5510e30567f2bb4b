import Mathlib.Algebra.GroupWithZero.Nat
import Mathlib.Data.List.Induction
import Mathlib.Data.List.Nodup
import Mathlib.Data.List.Perm.Basic

/-!
# Groups of a list

Elements are pushed one after the other to the group of their key. The groups then have
distinct keys, hold each element once, and a group is what a filter by its key keeps.
-/

universe u v

variable {α : Type u} {κ : Type v} [DecidableEq κ]

def pushGroup (k : κ) (x : α) : List (κ × List α) → List (κ × List α)
  | [] => [(k, [x])]
  | group :: groups =>
    if group.1 = k then (group.1, group.2 ++ [x]) :: groups else group :: pushGroup k x groups

def groupBy (key : α → κ) (xs : List α) : List (κ × List α) :=
  xs.foldl (fun groups x => pushGroup (key x) x groups) []

structure GroupsOf (key : α → κ) (xs : List α) (groups : List (κ × List α)) : Prop where
  distinct : (groups.map Prod.fst).Nodup
  once : (groups.flatMap Prod.snd).Perm xs
  filtered : ∀ group ∈ groups, group.2 = xs.filter fun x => key x = group.1

variable {key : α → κ} {xs : List α} {groups : List (κ × List α)}

theorem map_fst_pushGroup (k : κ) (x : α) (groups : List (κ × List α)) :
    (pushGroup k x groups).map Prod.fst =
      if k ∈ groups.map Prod.fst then groups.map Prod.fst else groups.map Prod.fst ++ [k] := by
  induction groups with
  | nil => rfl
  | cons group groups ih =>
    rw [pushGroup]
    by_cases h : group.1 = k
    · rw [if_pos h, List.map_cons, List.map_cons, h, if_pos List.mem_cons_self]
    · have hmem : k ∈ group.1 :: groups.map Prod.fst ↔ k ∈ groups.map Prod.fst :=
        List.mem_cons.trans (or_iff_right (Ne.symm h))
      rw [if_neg h, List.map_cons, ih, List.map_cons]
      by_cases hk : k ∈ groups.map Prod.fst
      · rw [if_pos hk, if_pos (hmem.mpr hk)]
      · rw [if_neg hk, if_neg fun hin => hk (hmem.mp hin), List.cons_append]

theorem flatMap_pushGroup (k : κ) (x : α) (groups : List (κ × List α)) :
    ((pushGroup k x groups).flatMap Prod.snd).Perm (x :: groups.flatMap Prod.snd) := by
  induction groups with
  | nil => exact List.Perm.refl _
  | cons group groups ih =>
    rw [pushGroup]
    by_cases h : group.1 = k
    · rw [if_pos h, List.flatMap_cons, List.flatMap_cons, List.append_assoc]
      exact List.perm_middle
    · rw [if_neg h, List.flatMap_cons, List.flatMap_cons]
      exact (ih.append_left group.2).trans List.perm_middle

theorem pushGroup_filtered {k : κ} {x : α} (hdistinct : (groups.map Prod.fst).Nodup)
    (h : ∀ group ∈ groups, group.2 = xs.filter fun y => key y = group.1)
    (hnew : k ∉ groups.map Prod.fst → xs.filter (fun y => key y = k) = []) (hx : key x = k) :
    ∀ group ∈ pushGroup k x groups, group.2 = (xs ++ [x]).filter fun y => key y = group.1 := by
  induction groups with
  | nil =>
    intro group hgroup
    rw [pushGroup, List.mem_singleton] at hgroup
    subst hgroup
    have hnone := hnew List.not_mem_nil
    simp [List.filter_append, hnone, hx]
  | cons first groups ih =>
    rw [List.map_cons, List.nodup_cons] at hdistinct
    have hsame : ∀ group : κ × List α, group.1 ≠ k →
        (xs ++ [x]).filter (fun y => key y = group.1) = xs.filter fun y => key y = group.1 := by
      intro group hne
      simp [List.filter_append, hx, Ne.symm hne]
    intro group hgroup
    rw [pushGroup] at hgroup
    by_cases hk : first.1 = k
    · rw [if_pos hk] at hgroup
      rcases List.mem_cons.mp hgroup with rfl | hgroup
      · have hfirst := h first List.mem_cons_self
        rw [List.filter_append, ← hfirst]
        simp [hx, hk]
      · have hne : group.1 ≠ k := by
          intro heq
          exact hdistinct.1 (hk.trans heq.symm ▸ List.mem_map_of_mem hgroup)
        rw [hsame group hne]
        exact h group (List.mem_cons_of_mem first hgroup)
    · rw [if_neg hk] at hgroup
      rcases List.mem_cons.mp hgroup with rfl | hgroup
      · rw [hsame group hk]
        exact h group List.mem_cons_self
      · refine ih hdistinct.2 (fun g hg => h g (List.mem_cons_of_mem first hg)) ?_ group hgroup
        intro hnot
        refine hnew fun hmem => ?_
        rw [List.map_cons, List.mem_cons] at hmem
        exact hmem.elim (fun heq => hk heq.symm) hnot

theorem GroupsOf.push (h : GroupsOf key xs groups) (x : α) :
    GroupsOf key (xs ++ [x]) (pushGroup (key x) x groups) where
  distinct := by
    rw [map_fst_pushGroup]
    split_ifs with hmem
    · exact h.distinct
    · rw [← List.concat_eq_append]
      exact h.distinct.concat hmem
  once := by
    refine (flatMap_pushGroup (key x) x groups).trans ?_
    exact (h.once.cons x).trans (List.perm_append_singleton x xs).symm
  filtered := by
    refine pushGroup_filtered h.distinct h.filtered (fun hnot => ?_) rfl
    rw [List.filter_eq_nil_iff]
    intro y hy hkey
    obtain ⟨group, hgroup, hmem⟩ := List.mem_flatMap.mp (h.once.mem_iff.mpr hy)
    rw [h.filtered group hgroup, List.mem_filter, decide_eq_true_eq] at hmem
    rw [decide_eq_true_eq] at hkey
    exact hnot (hkey.symm.trans hmem.2 ▸ List.mem_map_of_mem hgroup)

theorem groupsOf_groupBy (key : α → κ) (xs : List α) : GroupsOf key xs (groupBy key xs) := by
  induction xs using List.reverseRecOn with
  | nil => exact ⟨List.nodup_nil, List.Perm.nil, fun _ h => absurd h List.not_mem_nil⟩
  | append_singleton xs x ih =>
    rw [groupBy, List.foldl_append]
    exact ih.push x

theorem GroupsOf.perm {groups' : List (κ × List α)} (h : GroupsOf key xs groups)
    (hperm : groups'.Perm groups) : GroupsOf key xs groups' where
  distinct := (hperm.map Prod.fst).nodup_iff.mpr h.distinct
  once := (hperm.flatMap_right Prod.snd).trans h.once
  filtered group hgroup := h.filtered group (hperm.mem_iff.mp hgroup)

theorem GroupsOf.exists_group (h : GroupsOf key xs groups) {x : α} (hx : x ∈ xs) :
    ∃ group ∈ groups, group.1 = key x := by
  obtain ⟨group, hgroup, hmem⟩ := List.mem_flatMap.mp (h.once.mem_iff.mpr hx)
  rw [h.filtered group hgroup, List.mem_filter, decide_eq_true_eq] at hmem
  exact ⟨group, hgroup, hmem.2.symm⟩

theorem GroupsOf.sum_length (h : GroupsOf key xs groups) :
    (groups.map fun group => group.2.length).sum = xs.length := by
  rw [← h.once.length_eq, List.length_flatMap]
