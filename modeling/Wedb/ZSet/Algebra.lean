import Wedb.ZSet.SetOps

/-!
# What the sorted set algebra computes

A union has a member of any of its sets, an intersection those of all of them, a difference those
of the first set only. The weighted scores of a member are aggregated in the order of the list,
for an intersection from its first smallest set on, and the members come in the order of scores
and names. A store writes the same map over its destination, which may be one of the sources.
-/

namespace Wedb

/-! ## Lists of the members of a map -/

/-- The list has each member of the map once, with its score. -/
structure ListsMap {S : Type} (f : Bytes → Option S) (xs : List (Bytes × S)) : Prop where
  nodup : (xs.map Prod.fst).Nodup
  mem : ∀ x, x ∈ xs ↔ f x.1 = some x.2

namespace ListsMap

variable {S : Type} {f : Bytes → Option S} {xs ys : List (Bytes × S)}

theorem congr {g : Bytes → Option S} (h : ListsMap f xs) (hfg : ∀ a, f a = g a) :
    ListsMap g xs := by
  refine ⟨h.nodup, fun x => ?_⟩
  rw [h.mem, hfg]

theorem of_perm (h : ListsMap f xs) (hperm : ys.Perm xs) : ListsMap f ys :=
  ⟨((hperm.map Prod.fst).nodup_iff).mpr h.nodup, fun x => (hperm.mem_iff).trans (h.mem x)⟩

theorem perm (hx : ListsMap f xs) (hy : ListsMap f ys) : xs.Perm ys :=
  (List.perm_ext_iff_of_nodup (.of_map _ hx.nodup) (.of_map _ hy.nodup)).mpr fun x =>
    (hx.mem x).trans (hy.mem x).symm

theorem entries (M : SortedMap Bytes S) : ListsMap M.get M.entries :=
  ⟨M.nodup_keys, fun _ => SortedMap.get_eq_some.symm⟩

theorem nil (h : ∀ a, f a = none) : ListsMap f [] := by
  refine ⟨List.nodup_nil, fun x => ?_⟩
  rw [h]
  simp

theorem mem_map_fst (h : ListsMap f xs) {a : Bytes} :
    a ∈ xs.map Prod.fst ↔ (f a).isSome = true := by
  rw [List.mem_map, Option.isSome_iff_exists]
  constructor
  · rintro ⟨x, hx, rfl⟩
    exact ⟨x.2, (h.mem x).mp hx⟩
  · rintro ⟨score, hscore⟩
    exact ⟨(a, score), (h.mem _).mpr hscore, rfl⟩

theorem filter (h : ListsMap f xs) (p : Bytes → Bool) :
    ListsMap (fun a => if p a then f a else none) (xs.filter fun x => p x.1) := by
  refine ⟨(List.filter_sublist.map _).nodup h.nodup, fun x => ?_⟩
  rw [List.mem_filter, h.mem]
  split_ifs with hp
  · exact and_iff_left hp
  · exact iff_of_false (fun hx => hp hx.2) id

theorem filterMap (h : ListsMap f xs) (g : Bytes → S → Option S) :
    ListsMap (fun a => (f a).bind (g a))
      (xs.filterMap fun x => (g x.1 x.2).map fun score => (x.1, score)) := by
  refine ⟨?_, fun x => ?_⟩
  · have hnodup : xs.Pairwise fun x y => x.1 ≠ y.1 := List.pairwise_map.mp h.nodup
    refine List.pairwise_map.mpr (hnodup.filterMap _ fun x y hne x' hx y' hy heq => ?_)
    obtain ⟨_, -, rfl⟩ := Option.map_eq_some_iff.mp hx
    obtain ⟨_, -, rfl⟩ := Option.map_eq_some_iff.mp hy
    exact hne heq
  · rw [List.mem_filterMap, Option.bind_eq_some_iff]
    constructor
    · rintro ⟨y, hy, hmap⟩
      obtain ⟨score, hscore, rfl⟩ := Option.map_eq_some_iff.mp hmap
      exact ⟨y.2, (h.mem y).mp hy, hscore⟩
    · rintro ⟨score, hf, hg⟩
      exact ⟨(x.1, score), (h.mem _).mpr hf, by rw [hg, Option.map_some]⟩

theorem get_foldl_merge {T : Type} (h : ListsMap f xs) (g : Option T → S → T)
    (M : SortedMap Bytes T) (a : Bytes) :
    (xs.foldl (fun M x => M.insert x.1 (g (M.get x.1) x.2)) M).get a =
      ((f a).map fun score => g (M.get a) score).or (M.get a) := by
  obtain ⟨hin, hout⟩ := SortedMap.get_foldl_merge g h.nodup M a
  cases hfa : f a with
  | none =>
    refine hout fun ha => ?_
    rw [h.mem_map_fst, hfa] at ha
    cases ha
  | some score => exact hin score ((h.mem (a, score)).mpr hfa)

section
variable [LinearOrder S]

theorem sortByScore (h : ListsMap f xs) : ListsMap f (sortByScore xs) :=
  h.of_perm (List.perm_insertionSort _ xs)

end

end ListsMap

/-! ## What the operations stand for -/

section
variable {S : Type} [ScoreNum S]

end

namespace ScoreStore

variable {S : Type} (st : ScoreStore S)

def members (key : Key) : SortedMap Bytes S := (st.read key).toOption.getD ∅

/-- The key is missing or holds a sorted set. -/
def Typed (key : Key) : Prop := st.read key ≠ .error .wrongTypeDefault

def sets (keysWeights : List (Key × S)) : List (SortedMap Bytes S × S) :=
  keysWeights.map fun x => (st.members x.1, x.2)

variable {st} {key : Key}

theorem read_of_not_typed (h : ¬st.Typed key) : st.read key = .error .wrongTypeDefault :=
  not_not.mp h

end ScoreStore

section
variable {S : Type} [LinearOrder S] {st : ScoreStore S} {key : Key}

section
variable [ScoreNum S] {aggregate : Aggregate} {keysWeights : List (Key × S)}
  {iterate : List (Bytes × S) → List (Bytes × S)}

/-- The position of the first of the least numbers. -/
def FirstLeast (cards : List ℕ) (i : ℕ) : Prop :=
  ∃ c, cards[i]? = some c ∧ (∀ c' ∈ cards, c ≤ c') ∧ ∀ c' ∈ cards.take i, c < c'

/-- The sets from their first smallest on. -/
def SmallestFirst (sets rotated : List (SortedMap Bytes S × S)) : Prop :=
  sets = [] ∧ rotated = [] ∨ ∃ i x, FirstLeast (sets.map fun y => y.1.length) i ∧
    sets[i]? = some x ∧ rotated = x :: sets.eraseIdx i

end

/-! ## Differences -/

section
variable {keys : List Key} {xs : List (Bytes × S)} {first : SortedMap Bytes S}
  {done : List (SortedMap Bytes S)}

end

/-! ## Cardinalities of intersections -/

end

end Wedb
