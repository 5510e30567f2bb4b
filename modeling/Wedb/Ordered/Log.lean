import Wedb.Ordered.Under

/-!
# Logs in a sorted map

A log is a list of entries in increasing order of their stamps. Under a strictly
increasing encoding of the stamps it is the entry list of a sorted map: appending
is an insertion, dropping the first entry and deleting a stamp are removals.
-/

universe u v

variable {α : Type u} {β : Type v}

/-- The entries of the map are those of the log, under encoded stamps. -/
def LogIn (enc : α → Bytes) (xs : List (α × β)) (U : SortedMap Bytes β) : Prop :=
  U.entries = xs.map fun x => (enc x.1, x.2)

namespace LogIn

variable {enc : α → Bytes} {xs : List (α × β)} {U : SortedMap Bytes β} {x : α × β} {a c : α} {b : β}

theorem nil (enc : α → Bytes) : LogIn (β := β) enc [] ∅ := rfl

theorem length (h : LogIn enc xs U) : U.length = xs.length := by
  rw [SortedMap.length, h, List.length_map]

theorem mem_entries (h : LogIn enc xs U) {y : Bytes × β} :
    y ∈ U.entries ↔ ∃ x ∈ xs, (enc x.1, x.2) = y := by
  rw [h, List.mem_map]

theorem insertEntry_above {ys : List (Bytes × β)} {k : Bytes} (hlt : ∀ y ∈ ys, y.1 < k) :
    SortedMap.insertEntry k b ys = ys ++ [(k, b)] := by
  induction ys with
  | nil => rfl
  | cons y ys ih =>
    have hy := hlt y (by simp)
    rw [SortedMap.insertEntry, if_neg hy.not_gt, if_neg hy.ne', ih fun z hz => hlt z (by simp [hz]),
      List.cons_append]

variable [LinearOrder α]

theorem sorted (h : LogIn enc xs U) (henc : StrictMono enc) : xs.Pairwise fun x y => x.1 < y.1 := by
  have hsorted := U.sorted
  rw [h, List.pairwise_map] at hsorted
  exact hsorted.imp fun hlt => henc.lt_iff_lt.mp hlt

theorem get_eq_some (h : LogIn enc xs U) (henc : StrictMono enc) :
    U.get (enc a) = some b ↔ (a, b) ∈ xs := by
  rw [SortedMap.get_eq_some, h.mem_entries]
  constructor
  · rintro ⟨⟨a', b'⟩, hmem, heq⟩
    simp only [Prod.mk.injEq] at heq
    obtain ⟨ha, rfl⟩ := heq
    rwa [henc.injective ha] at hmem
  · exact fun hmem => ⟨(a, b), hmem, rfl⟩

theorem contains_iff (h : LogIn enc xs U) (henc : StrictMono enc) :
    U.contains (enc a) = true ↔ a ∈ xs.map Prod.fst := by
  rw [SortedMap.contains_eq_true, List.mem_map]
  constructor
  · rintro ⟨b, hb⟩
    exact ⟨(a, b), (h.get_eq_some henc).mp hb, rfl⟩
  · rintro ⟨⟨a', b⟩, hmem, rfl⟩
    exact ⟨b, (h.get_eq_some henc).mpr hmem⟩

theorem append (h : LogIn enc xs U) (henc : StrictMono enc) (hlt : ∀ x ∈ xs, x.1 < a) :
    LogIn enc (xs ++ [(a, b)]) (U.insert (enc a) b) := by
  have habove : ∀ y ∈ U.entries, y.1 < enc a := by
    intro y hy
    obtain ⟨x, hx, rfl⟩ := h.mem_entries.mp hy
    exact henc (hlt x hx)
  rw [LogIn, SortedMap.insert]
  dsimp only
  rw [insertEntry_above habove, h, List.map_append, List.map_singleton]

theorem erase (h : LogIn enc xs U) (henc : StrictMono enc) (a : α) :
    LogIn enc (xs.filter fun x => decide (x.1 ≠ a)) (U.erase (enc a)) := by
  rw [LogIn, SortedMap.erase, SortedMap.keep]
  dsimp only
  rw [h, List.filter_map]
  refine congrArg _ (List.filter_congr fun x _ => ?_)
  exact decide_eq_decide.mpr (not_congr henc.injective.eq_iff)

theorem filter_ne_head (hs : (x :: xs).Pairwise fun x y => x.1 < y.1) :
    ((x :: xs).filter fun y => decide (y.1 ≠ x.1)) = xs := by
  rw [List.filter_cons_of_neg (by simp), List.filter_eq_self]
  intro y hy
  exact decide_eq_true ((List.pairwise_cons.mp hs).1 y hy).ne'

theorem tail (h : LogIn enc (x :: xs) U) (henc : StrictMono enc) : LogIn enc xs (U.erase (enc x.1)) := by
  have herase := h.erase henc x.1
  rwa [filter_ne_head (h.sorted henc)] at herase

theorem range_eq (h : LogIn enc xs U) (henc : StrictMono enc) (a c : α) :
    U.range (.included (enc a)) (.included (enc c)) =
      (xs.filter fun x => decide (a ≤ x.1) && decide (x.1 ≤ c)).map fun x => (enc x.1, x.2) := by
  rw [SortedMap.range, h, List.filter_map]
  refine congrArg _ (List.filter_congr fun x _ => ?_)
  simp only [Function.comp_apply, Bound.startsAt, Bound.endsAt, henc.le_iff_le]

end LogIn
