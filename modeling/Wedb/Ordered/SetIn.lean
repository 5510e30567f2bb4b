import Mathlib.Data.Finset.Basic
import Wedb.Ordered.SortedMap
import Wedb.Ordered.ByteString

/-!
# Finite sets in a sorted map

A finite set is kept as the keys of a sorted map of byte strings, each the encoding
of an element with an empty value. Insertions and removals of elements are those
of keys, and the entries are the elements in the order of their encodings.
-/

universe u
variable {α : Type u} {enc : α → Bytes}

/-- The keys of the map are the encoded elements of the set. -/
def SetIn (enc : α → Bytes) (S : Finset α) (U : SortedMap Bytes Bytes) : Prop :=
  ∀ k v, U.get k = some v ↔ v = [] ∧ ∃ a ∈ S, enc a = k

namespace SetIn
variable {S : Finset α} {U : SortedMap Bytes Bytes} {xs : List α}

theorem empty (enc : α → Bytes) : SetIn enc ∅ ∅ := by
  intro k v
  refine iff_of_false (fun h => by cases h) ?_
  intro ⟨_, a, ha, _⟩
  exact absurd ha (Finset.notMem_empty a)

theorem contains_iff (h : SetIn enc S U) (henc : Function.Injective enc) (a : α) :
    U.contains (enc a) = true ↔ a ∈ S := by
  rw [SortedMap.contains_eq_true]
  constructor
  · intro ⟨v, hv⟩
    obtain ⟨-, b, hb, heq⟩ := (h _ v).mp hv
    rwa [henc heq] at hb
  · exact fun ha => ⟨[], (h _ _).mpr ⟨rfl, a, ha, rfl⟩⟩

variable [DecidableEq α] in
theorem insert (h : SetIn enc S U) (a : α) : SetIn enc (Insert.insert a S) (U.insert (enc a) []) := by
  intro k v
  rw [SortedMap.get_insert]
  by_cases hk : enc a = k
  · rw [if_pos hk, Option.some.injEq]
    refine ⟨fun hv => ⟨hv.symm, a, Finset.mem_insert_self a S, hk⟩, fun hv => hv.1.symm⟩
  · rw [if_neg hk, h]
    refine and_congr_right fun _ => ⟨fun ⟨b, hb, hbk⟩ => ⟨b, Finset.mem_insert_of_mem hb, hbk⟩, ?_⟩
    intro ⟨b, hb, hbk⟩
    rcases Finset.mem_insert.mp hb with rfl | hb
    · exact absurd hbk hk
    · exact ⟨b, hb, hbk⟩

variable [DecidableEq α] in
theorem erase (h : SetIn enc S U) (henc : Function.Injective enc) (a : α) :
    SetIn enc (S.erase a) (U.erase (enc a)) := by
  intro k v
  rw [SortedMap.get_erase]
  by_cases hk : enc a = k
  · rw [if_pos hk]
    refine iff_of_false (by simp) ?_
    intro ⟨_, b, hb, hbk⟩
    exact (Finset.mem_erase.mp hb).1 (henc (hbk.trans hk.symm))
  · rw [if_neg hk, h]
    refine and_congr_right fun _ => ⟨fun ⟨b, hb, hbk⟩ => ⟨b, ?_, hbk⟩, ?_⟩
    · refine Finset.mem_erase.mpr ⟨?_, hb⟩
      rintro rfl
      exact hk hbk
    · exact fun ⟨b, hb, hbk⟩ => ⟨b, Finset.mem_of_mem_erase hb, hbk⟩

theorem entries_eq (h : SetIn enc S U) (hmem : ∀ a, a ∈ xs ↔ a ∈ S)
    (hsorted : xs.Pairwise fun a b => enc a < enc b) : U.entries = xs.map fun a => (enc a, []) := by
  refine SortedMap.eq_of_mem_iff U.sorted ?_ fun y => ?_
  · rw [List.pairwise_map]
    exact hsorted
  · obtain ⟨k, v⟩ := y
    rw [← SortedMap.get_eq_some, h, List.mem_map]
    constructor
    · intro ⟨hv, a, ha, hak⟩
      exact ⟨a, (hmem a).mpr ha, Prod.ext hak hv.symm⟩
    · intro ⟨a, ha, hak⟩
      cases hak
      exact ⟨rfl, a, (hmem a).mp ha, rfl⟩

end SetIn
