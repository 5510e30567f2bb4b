import Mathlib.Data.List.Sort
import Wedb.Ordered.Under

/-!
# Secondary indexes

A map of byte strings is indexed by its values: the index holds, for each entry,
the encoded value followed by the key. Each update of the map has its update of
the index, and the index lists the entries in the order of their encodings.
-/

universe v
variable {β : Type v} {enc : β → Bytes}

def indexKey (enc : β → Bytes) (x : Bytes × β) : Bytes := enc x.2 ++ x.1

/-- The index holds the entries of the map and nothing else. -/
def IndexOf (enc : β → Bytes) (M : SortedMap Bytes β) (I : SortedMap Bytes Bytes) : Prop :=
  ∀ k v, I.get k = some v ↔ v = [] ∧ ∃ x ∈ M.entries, indexKey enc x = k

def byIndex (enc : β → Bytes) (M : SortedMap Bytes β) : List (Bytes × β) :=
  M.entries.insertionSort fun x y => indexKey enc x ≤ indexKey enc y

theorem indexKey_injective (henc : Delimited enc) : Function.Injective (indexKey enc) := by
  intro x y h
  obtain ⟨hval, hkey⟩ := henc h
  exact Prod.ext hkey hval

namespace IndexOf
variable {M : SortedMap Bytes β} {I : SortedMap Bytes Bytes} {a : Bytes} {b c : β}

theorem empty (enc : β → Bytes) : IndexOf enc ∅ ∅ := by
  intro k v
  refine iff_of_false (fun h => by cases h) ?_
  rintro ⟨-, x, hx, -⟩
  cases hx

theorem insert (h : IndexOf enc M I) (hM : M.get a = none) (b : β) :
    IndexOf enc (M.insert a b) (I.insert (indexKey enc (a, b)) []) := by
  intro k v
  rw [SortedMap.get_insert]
  have hmem : ∀ x, x ∈ (M.insert a b).entries ↔ x = (a, b) ∨ x ∈ M.entries := by
    intro x
    rw [← SortedMap.get_eq_some, ← SortedMap.get_eq_some, SortedMap.get_insert]
    by_cases hx : x.1 = a
    · have hnone : M.get x.1 = none := by rw [hx, hM]
      rw [if_pos hx.symm, hnone]
      simp [Prod.ext_iff, hx, eq_comm]
    · rw [if_neg (Ne.symm hx)]
      simp [Prod.ext_iff, hx]
  by_cases hk : indexKey enc (a, b) = k
  · rw [if_pos hk]
    constructor
    · intro hv
      cases hv
      exact ⟨rfl, (a, b), (hmem _).mpr (Or.inl rfl), hk⟩
    · rintro ⟨rfl, -⟩
      rfl
  · rw [if_neg hk, h]
    refine and_congr_right fun _ => exists_congr fun x => ?_
    rw [hmem]
    constructor
    · rintro ⟨hx, hkey⟩
      exact ⟨Or.inr hx, hkey⟩
    · rintro ⟨rfl | hx, hkey⟩
      · exact absurd hkey hk
      · exact ⟨hx, hkey⟩

theorem erase (h : IndexOf enc M I) (henc : Delimited enc) (hM : M.get a = some b) :
    IndexOf enc (M.erase a) (I.erase (indexKey enc (a, b))) := by
  intro k v
  rw [SortedMap.get_erase]
  have hmem : ∀ x, x ∈ (M.erase a).entries ↔ x ∈ M.entries ∧ x ≠ (a, b) := by
    intro x
    rw [← SortedMap.get_eq_some, ← SortedMap.get_eq_some, SortedMap.get_erase]
    by_cases hx : a = x.1
    · rw [if_pos hx]
      refine iff_of_false (by simp) ?_
      rintro ⟨hget, hne⟩
      rw [← hx, hM, Option.some.injEq] at hget
      exact hne (Prod.ext hx.symm hget.symm)
    · rw [if_neg hx]
      refine (and_iff_left fun he => hx ?_).symm
      rw [he]
  by_cases hk : indexKey enc (a, b) = k
  · rw [if_pos hk]
    refine iff_of_false (by simp) ?_
    rintro ⟨-, x, hx, hkey⟩
    exact ((hmem x).mp hx).2 (indexKey_injective henc (hkey.trans hk.symm))
  · rw [if_neg hk, h]
    refine and_congr_right fun _ => exists_congr fun x => and_congr_left fun hkey => ?_
    rw [hmem]
    refine (and_iff_left fun he => hk ?_).symm
    rw [← he, hkey]

theorem replace (h : IndexOf enc M I) (henc : Delimited enc) (hM : M.get a = some b) (c : β) :
    IndexOf enc (M.insert a c) ((I.erase (indexKey enc (a, b))).insert (indexKey enc (a, c)) []) := by
  rw [← SortedMap.insert_erase_self]
  refine (h.erase henc hM).insert ?_ c
  rw [SortedMap.get_erase, if_pos rfl]

end IndexOf

variable {M : SortedMap Bytes β} {I : SortedMap Bytes Bytes}

theorem mem_byIndex {x : Bytes × β} : x ∈ byIndex enc M ↔ M.get x.1 = some x.2 := by
  rw [byIndex, List.mem_insertionSort, SortedMap.get_eq_some]

theorem length_byIndex (enc : β → Bytes) (M : SortedMap Bytes β) :
    (byIndex enc M).length = M.length := List.length_insertionSort _ _

theorem nodup_keys_byIndex (enc : β → Bytes) (M : SortedMap Bytes β) :
    ((byIndex enc M).map Prod.fst).Nodup := by
  refine (((List.perm_insertionSort _ M.entries).map Prod.fst).nodup_iff).mpr ?_
  rw [List.Nodup, List.pairwise_map]
  exact M.sorted.imp fun hlt => hlt.ne

theorem sorted_byIndex (henc : Delimited enc) (M : SortedMap Bytes β) :
    (byIndex enc M).Pairwise fun x y => indexKey enc x < indexKey enc y := by
  have hle : (byIndex enc M).Pairwise fun x y => indexKey enc x ≤ indexKey enc y := by
    have : Std.Total fun x y : Bytes × β => indexKey enc x ≤ indexKey enc y :=
      ⟨fun _ _ => le_total _ _⟩
    have : IsTrans (Bytes × β) fun x y => indexKey enc x ≤ indexKey enc y :=
      ⟨fun _ _ _ => le_trans⟩
    exact List.pairwise_insertionSort _ _
  have hnodup := List.Nodup.of_map _ (nodup_keys_byIndex enc M)
  exact (hle.and hnodup).imp fun hxy => lt_of_le_of_ne hxy.1 fun he => hxy.2 (indexKey_injective henc he)

theorem IndexOf.entries_eq (h : IndexOf enc M I) (henc : Delimited enc) :
    I.entries = (byIndex enc M).map fun x => (indexKey enc x, []) := by
  refine SortedMap.eq_of_mem_iff I.sorted ?_ fun y => ?_
  · rw [List.pairwise_map]
    exact sorted_byIndex henc M
  · obtain ⟨k, v⟩ := y
    rw [← SortedMap.get_eq_some, h, List.mem_map]
    constructor
    · rintro ⟨rfl, x, hx, rfl⟩
      exact ⟨x, mem_byIndex.mpr (SortedMap.get_eq_some.mpr hx), rfl⟩
    · rintro ⟨x, hx, he⟩
      cases he
      exact ⟨rfl, x, SortedMap.get_eq_some.mp (mem_byIndex.mp hx), rfl⟩
