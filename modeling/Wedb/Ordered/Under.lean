import Wedb.Ordered.SortedMap
import Wedb.Ordered.ByteString

/-!
# Keys under a prefix

The part of a map of byte strings whose keys extend a prefix `p`, with `p`
dropped, is again a sorted map. Reads, writes and iterations below `p` are
those of the sub-map, and writes elsewhere leave it alone, so an invariant
stated on the sub-map needs no further frame argument.
-/

section

universe v
variable {β : Type v}

namespace SortedMap

def dropPrefix (p : Bytes) (x : Bytes × β) : Option (Bytes × β) :=
  if p <+: x.1 then some (x.1.drop p.length, x.2) else none

theorem dropPrefix_eq_some {p : Bytes} {x y : Bytes × β} :
    dropPrefix p x = some y ↔ x = (p ++ y.1, y.2) := by
  unfold dropPrefix
  split_ifs with h
  · obtain ⟨s, hs⟩ := h
    obtain ⟨k, b⟩ := x
    obtain ⟨c, d⟩ := y
    simp only at hs
    subst hs
    simp [Prod.ext_iff]
  · refine iff_of_false (by simp) fun he => h ?_
    rw [he]
    exact List.prefix_append p y.1

theorem pairwise_dropPrefix (p : Bytes) {xs : List (Bytes × β)}
    (h : xs.Pairwise fun x y => x.1 < y.1) :
    (xs.filterMap (dropPrefix p)).Pairwise fun x y => x.1 < y.1 := by
  refine List.Pairwise.filterMap (dropPrefix p) (fun a a' hlt b hb b' hb' => ?_) h
  rw [dropPrefix_eq_some] at hb hb'
  rw [hb, hb'] at hlt
  exact Bytes.append_lt_append_iff.mp hlt

def under (p : Bytes) (m : SortedMap Bytes β) : SortedMap Bytes β :=
  ⟨m.entries.filterMap (dropPrefix p), pairwise_dropPrefix p m.sorted⟩

def prefixed (p : Bytes) (m : SortedMap Bytes β) : List (Bytes × β) :=
  m.entries.filter fun x => decide (p <+: x.1)

theorem get_under (p k : Bytes) (m : SortedMap Bytes β) : (under p m).get k = m.get (p ++ k) := by
  refine Option.ext fun b => ?_
  rw [get_eq_some, get_eq_some]
  simp only [under, List.mem_filterMap, dropPrefix_eq_some]
  constructor
  · rintro ⟨x, hx, rfl⟩
    exact hx
  · intro h
    exact ⟨_, h, rfl⟩

theorem under_insert_append (p k : Bytes) (b : β) (m : SortedMap Bytes β) :
    under p (m.insert (p ++ k) b) = (under p m).insert k b := by
  refine ext_get fun c => ?_
  simp [get_under, get_insert]

theorem under_erase_append (p k : Bytes) (m : SortedMap Bytes β) :
    under p (m.erase (p ++ k)) = (under p m).erase k := by
  refine ext_get fun c => ?_
  simp [get_under, get_erase]

theorem mem_prefixed {p : Bytes} {m : SortedMap Bytes β} {x : Bytes × β} :
    x ∈ prefixed p m ↔ p <+: x.1 ∧ m.get x.1 = some x.2 := by
  simp [prefixed, get_eq_some, and_comm]

theorem prefixed_eq_map_under (p : Bytes) (m : SortedMap Bytes β) :
    prefixed p m = (under p m).entries.map fun x => (p ++ x.1, x.2) := by
  simp only [prefixed, under]
  induction m.entries with
  | nil => rfl
  | cons x xs ih =>
    by_cases h : p <+: x.1
    · obtain ⟨s, hs⟩ := h
      have hx : dropPrefix p x = some (s, x.2) := dropPrefix_eq_some.mpr (by rw [hs])
      have hp : p <+: x.1 := ⟨s, hs⟩
      simp [hp, hx, ih, hs]
    · have hx : dropPrefix p x = none := by simp [dropPrefix, h]
      simp [h, hx, ih]

end SortedMap

end

/-!
## Ranges of a sorted map

The entries between two bounds, in key order. Between two keys with a common
prefix a range is a range of the sub-map below the prefix.
-/

section

universe u v

inductive Bound (α : Type u)
  | included (a : α)
  | excluded (a : α)
  | unbounded

namespace Bound
variable {α : Type u} [LinearOrder α]

def startsAt (a : α) : Bound α → Bool
  | included b => decide (b ≤ a)
  | excluded b => decide (b < a)
  | unbounded => true

def endsAt (a : α) : Bound α → Bool
  | included b => decide (a ≤ b)
  | excluded b => decide (a < b)
  | unbounded => true

end Bound

namespace SortedMap

section
variable {α : Type u} {β : Type v} [LinearOrder α]

def range (lo hi : Bound α) (m : SortedMap α β) : List (α × β) :=
  m.entries.filter fun x => lo.startsAt x.1 && hi.endsAt x.1

theorem mem_range {lo hi : Bound α} {m : SortedMap α β} {x : α × β} :
    x ∈ m.range lo hi ↔
      m.get x.1 = some x.2 ∧ lo.startsAt x.1 = true ∧ hi.endsAt x.1 = true := by
  simp [range, get_eq_some]

theorem range_sorted (lo hi : Bound α) (m : SortedMap α β) :
    (m.range lo hi).Pairwise fun x y => x.1 < y.1 := m.sorted.filter _

end

variable {β : Type v}

theorem range_append (p a b : Bytes) (m : SortedMap Bytes β) :
    m.range (.included (p ++ a)) (.included (p ++ b)) =
      ((under p m).range (.included a) (.included b)).map fun x => (p ++ x.1, x.2) := by
  refine eq_of_mem_iff (range_sorted _ _ _) ?_ fun x => ?_
  · rw [List.pairwise_map]
    exact (range_sorted _ _ _).imp fun hlt => Bytes.append_lt_append_iff.mpr hlt
  · simp only [mem_range, List.mem_map, get_under, Bound.startsAt, Bound.endsAt,
      decide_eq_true_eq]
    constructor
    · rintro ⟨hg, hlo, hhi⟩
      obtain ⟨s, hs⟩ := Bytes.prefix_of_between (List.prefix_append p a)
        (List.prefix_append p b) hlo hhi
      obtain ⟨k, v⟩ := x
      subst hs
      exact ⟨(s, v), ⟨hg, Bytes.append_le_append_iff.mp hlo, Bytes.append_le_append_iff.mp hhi⟩,
        rfl⟩
    · rintro ⟨y, ⟨hg, hlo, hhi⟩, rfl⟩
      exact ⟨hg, Bytes.append_le_append_iff.mpr hlo, Bytes.append_le_append_iff.mpr hhi⟩

end SortedMap

end
