import Mathlib.Data.UInt
import Wedb.Ordered.Under

/-!
# Windows of a wrapping index space

Cells are numbered by 64-bit words, and a sequence occupies the cells from its
head on, past the greatest word to zero if need be. A window says that these
cells hold the sequence and every other cell is empty. Growing, shrinking and
changing the sequence at an offset are updates of single cells. A map whose keys
are words stores a window, and a range of it that does not wrap is a slice of
the sequence.
-/

universe u
variable {β : Type u}

namespace UInt64

def word (head : UInt64) (i : ℕ) : UInt64 := head + UInt64.ofNat i

variable {head : UInt64} {i j : ℕ}

@[simp] theorem word_zero (head : UInt64) : word head 0 = head := by
  simp [word]

theorem word_max (head : UInt64) : word head (2 ^ 64) = head := by
  have h : UInt64.ofNat (2 ^ 64) = 0 := by decide
  rw [word, h, UInt64.add_zero]

theorem word_add (head : UInt64) (i j : ℕ) : word (word head i) j = word head (i + j) := by
  rw [word, word, word, UInt64.ofNat_add, UInt64.add_assoc]

theorem word_succ (head : UInt64) (i : ℕ) : word head i + 1 = word head (i + 1) :=
  word_add head i 1

theorem word_sub_one (head : UInt64) (i : ℕ) : word (head - 1) (i + 1) = word head i := by
  have h : head - 1 + 1 = head := UInt64.sub_add_cancel head 1
  rw [Nat.add_comm, ← word_add]
  exact congrArg (word · i) h

variable (head) in
theorem word_sub_word (hi : i < 2 ^ 64) : (word head i - head).toNat = i := by
  rw [word, UInt64.add_comm, UInt64.add_sub_cancel, UInt64.toNat_ofNat_of_lt' hi]

theorem word_sub (head idx : UInt64) : word head (idx - head).toNat = idx := by
  rw [word, UInt64.ofNat_toNat, UInt64.add_comm, UInt64.sub_add_cancel]

theorem word_inj (hi : i < 2 ^ 64) (hj : j < 2 ^ 64) (h : word head i = word head j) : i = j := by
  rw [← word_sub_word head hi, h, word_sub_word head hj]

theorem word_succ_ne (hi : i + 1 < 2 ^ 64) : word head (i + 1) ≠ head := fun h =>
  absurd (word_inj (j := 0) hi (by decide) (h.trans (word_zero head).symm)) i.succ_ne_zero

variable (head) in
theorem toNat_word (h : head.toNat + i < 2 ^ 64) : (word head i).toNat = head.toNat + i := by
  rw [word, UInt64.toNat_add, UInt64.toNat_ofNat_of_lt' (show i < 2 ^ 64 by omega),
    Nat.mod_eq_of_lt h]

theorem toNat_word_of_le (hi : i < 2 ^ 64) (h : head ≤ word head i) :
    head.toNat + i < 2 ^ 64 := by
  by_contra hlt
  have hhead := head.toNat_lt
  rw [UInt64.le_iff_toNat_le, word, UInt64.toNat_add, UInt64.toNat_ofNat_of_lt' hi,
    Nat.mod_eq_sub_mod (by omega), Nat.mod_eq_of_lt (by omega)] at h
  omega

end UInt64

open UInt64 (word)

/-- The cells from `head` on hold `xs` and the others are empty. -/
def Window (head : UInt64) (xs : List β) (cell : UInt64 → Option β) : Prop :=
  ∀ idx, cell idx = xs[(idx - head).toNat]?

namespace Window

variable {head idx : UInt64} {xs ys : List β} {x v : β} {i : ℕ} {cell cell' : UInt64 → Option β}

theorem get (h : Window head xs cell) (hi : i < 2 ^ 64) : cell (word head i) = xs[i]? := by
  rw [h, UInt64.word_sub_word _ hi]

theorem of_word (h : ∀ i < 2 ^ 64, cell (word head i) = xs[i]?) : Window head xs cell := by
  intro idx
  have hi := h (idx - head).toNat (idx - head).toNat_lt
  rwa [UInt64.word_sub] at hi

theorem nil (head : UInt64) : Window (β := β) head [] fun _ => none := fun _ => rfl

theorem pushTail (h : Window head xs cell) (hlen : xs.length < 2 ^ 64)
    (hc : ∀ idx, cell' idx = if idx = word head xs.length then some v else cell idx) :
    Window head (xs ++ [v]) cell' := by
  refine of_word fun i hi => ?_
  rw [hc, h.get hi]
  by_cases heq : i = xs.length
  · rw [if_pos (by rw [heq]), heq, List.getElem?_concat_length]
  · rw [if_neg fun hw => heq (UInt64.word_inj hi hlen hw)]
    rcases Nat.lt_or_gt_of_ne heq with hlt | hgt
    · rw [List.getElem?_append_left hlt]
    · rw [List.getElem?_eq_none hgt.le, List.getElem?_eq_none (by simp; omega)]

theorem pushHead (h : Window head xs cell)
    (hc : ∀ idx, cell' idx = if idx = head - 1 then some v else cell idx) :
    Window (head - 1) (v :: xs) cell' := by
  refine of_word fun i hi => ?_
  rw [hc]
  cases i with
  | zero => simp
  | succ i =>
    rw [if_neg (UInt64.word_succ_ne hi), UInt64.word_sub_one, h.get (by omega),
      List.getElem?_cons_succ]

end Window

/-- A map whose keys are words holds a sequence in the window from `head` on. -/
structure StoredWindow (head : UInt64) (xs : List β) (U : SortedMap Bytes β) : Prop where
  window : Window head xs fun idx => U.get idx.toBeBytes
  indexed : ∀ k b, U.get k = some b → k.length = 8

namespace StoredWindow

variable {head idx : UInt64} {xs : List β} {x v b : β} {i j : ℕ} {U : SortedMap Bytes β}
  {k : Bytes}

theorem empty (head : UInt64) : StoredWindow (β := β) head [] ∅ where
  window := .nil head
  indexed := fun _ _ hg => by cases hg

theorem eq_empty (h : StoredWindow head [] U) : U = ∅ := by
  refine SortedMap.ext_get fun k => ?_
  cases hg : U.get k with
  | none => rfl
  | some b =>
    have hk := UInt64.toBeBytes_fromBeBytes (h.indexed k b hg)
    have hnone := h.window (UInt64.fromBeBytes k)
    simp only [hk, hg, List.getElem?_nil, reduceCtorEq] at hnone

theorem get (h : StoredWindow head xs U) (hi : i < 2 ^ 64) :
    U.get (word head i).toBeBytes = xs[i]? := h.window.get hi

theorem indexed_insert (h : StoredWindow head xs U) (idx : UInt64) (v : β) (k : Bytes) (b : β)
    (hg : (U.insert idx.toBeBytes v).get k = some b) : k.length = 8 := by
  rw [SortedMap.get_insert] at hg
  split_ifs at hg with hk
  · rw [← hk, UInt64.toBeBytes_length]
  · exact h.indexed k b hg

theorem get_insert (U : SortedMap Bytes β) (idx c : UInt64) (v : β) :
    (U.insert idx.toBeBytes v).get c.toBeBytes =
      if c = idx then some v else U.get c.toBeBytes := by
  by_cases h : c = idx
  · rw [if_pos h, h, SortedMap.get_insert_self]
  · rw [if_neg h, SortedMap.get_insert_of_ne v U fun hk => h (UInt64.toBeBytes_injective hk).symm]

theorem pushTail (h : StoredWindow head xs U) (hlen : xs.length < 2 ^ 64) (v : β) :
    StoredWindow head (xs ++ [v]) (U.insert (word head xs.length).toBeBytes v) where
  window := h.window.pushTail hlen fun idx => get_insert U _ idx v
  indexed := h.indexed_insert _ v

theorem pushHead (h : StoredWindow head xs U) (v : β) :
    StoredWindow (head - 1) (v :: xs) (U.insert (head - 1).toBeBytes v) where
  window := h.window.pushHead fun idx => get_insert U _ idx v
  indexed := h.indexed_insert _ v

def slots (head : UInt64) : ℕ → List β → List (Bytes × β)
  | _, [] => []
  | i, x :: xs => ((word head i).toBeBytes, x) :: slots head (i + 1) xs

theorem mem_slots {x : Bytes × β} :
    x ∈ slots head i xs ↔
      ∃ t, xs[t]? = some x.2 ∧ x.1 = (word head (i + t)).toBeBytes := by
  induction xs generalizing i with
  | nil => simp [slots]
  | cons y ys ih =>
    rw [slots, List.mem_cons, ih]
    constructor
    · rintro (rfl | ⟨t, ht, hx⟩)
      · exact ⟨0, rfl, rfl⟩
      · refine ⟨t + 1, ht, ?_⟩
        rw [hx]
        congr 2
        omega
    · rintro ⟨t, ht, hx⟩
      cases t with
      | zero =>
        left
        exact Prod.ext hx (Option.some.inj ht).symm
      | succ t =>
        refine Or.inr ⟨t, ht, ?_⟩
        rw [hx]
        congr 2
        omega

theorem map_snd_slots (head : UInt64) (i : ℕ) (xs : List β) :
    (slots head i xs).map Prod.snd = xs := by
  induction xs generalizing i with
  | nil => rfl
  | cons x xs ih => rw [slots, List.map_cons, ih]

theorem slots_sorted (hroom : (word head i).toNat + xs.length ≤ 2 ^ 64) :
    (slots head i xs).Pairwise fun x y => x.1 < y.1 := by
  induction xs generalizing i with
  | nil => exact .nil
  | cons x xs ih =>
    rw [List.length_cons] at hroom
    refine List.pairwise_cons.mpr ⟨fun y hy => ?_, ?_⟩
    · obtain ⟨t, ht, hyt⟩ := mem_slots.mp hy
      have hlt := (List.getElem?_eq_some_iff.mp ht).1
      have hto := UInt64.toNat_word (word head i) (i := t + 1) (by omega)
      rw [hyt, UInt64.toBeBytes_lt_iff, UInt64.lt_iff_toNat_lt]
      have hadd : word head (i + 1 + t) = word (word head i) (t + 1) := by
        rw [UInt64.word_add]
        congr 1
        omega
      rw [hadd, hto]
      omega
    · cases xs with
      | nil => exact .nil
      | cons y ys =>
        have hto := UInt64.toNat_word (word head i) (i := 1)
          (by rw [List.length_cons] at hroom; omega)
        rw [UInt64.word_add] at hto
        refine ih ?_
        rw [hto]
        omega

theorem range_eq (h : StoredWindow head xs U) (hlen : xs.length < 2 ^ 64) (hij : i ≤ j)
    (hj : j < xs.length) (hle : word head i ≤ word head j) :
    U.range (.included (word head i).toBeBytes) (.included (word head j).toBeBytes) =
      slots head i ((xs.drop i).take (j + 1 - i)) := by
  have hword : ∀ t, word head (i + t) = word (word head i) t := fun t =>
    (UInt64.word_add head i t).symm
  obtain ⟨d, rfl⟩ := Nat.exists_eq_add_of_le hij
  have hroom : (word head i).toNat + d < 2 ^ 64 :=
    UInt64.toNat_word_of_le (by omega) (by rwa [← hword])
  have hend : (word head (i + d)).toNat = (word head i).toNat + d := by
    rw [hword, UInt64.toNat_word _ hroom]
  have hslice : ((xs.drop i).take (i + d + 1 - i)).length = d + 1 := by
    rw [List.length_take, List.length_drop]
    omega
  have hget : ∀ t, ((xs.drop i).take (i + d + 1 - i))[t]? =
      if t < d + 1 then xs[i + t]? else none := by
    intro t
    rw [List.getElem?_take, List.getElem?_drop]
    refine if_congr ?_ rfl rfl
    omega
  refine SortedMap.eq_of_mem_iff (SortedMap.range_sorted _ _ _)
    (slots_sorted (by rw [hslice]; omega)) fun x => ?_
  rw [SortedMap.mem_range, mem_slots]
  simp only [Bound.startsAt, Bound.endsAt, decide_eq_true_eq, hget]
  constructor
  · rintro ⟨hg, hlo, hhi⟩
    have hx := UInt64.toBeBytes_fromBeBytes (h.indexed _ _ hg)
    rw [← hx] at hg hlo hhi
    rw [← not_lt, UInt64.toBeBytes_lt_iff, UInt64.lt_iff_toNat_lt] at hlo hhi
    have hidx : word head (i + ((UInt64.fromBeBytes x.1).toNat - (word head i).toNat)) =
        UInt64.fromBeBytes x.1 := by
      rw [hword, ← UInt64.toNat_inj, UInt64.toNat_word]
      · omega
      · omega
    have ht : (UInt64.fromBeBytes x.1).toNat - (word head i).toNat < d + 1 := by omega
    refine ⟨_, ?_, by rw [hidx, hx]⟩
    rw [if_pos ht, ← h.get (by omega), hidx]
    exact hg
  · rintro ⟨t, ht, hx⟩
    split_ifs at ht with htd
    have hto : (word head (i + t)).toNat = (word head i).toNat + t := by
      rw [hword, UInt64.toNat_word _ (by omega)]
    rw [hx]
    refine ⟨(h.get (by omega)).trans ht, ?_, ?_⟩
    · rw [← not_lt, UInt64.toBeBytes_lt_iff, UInt64.lt_iff_toNat_lt]
      omega
    · rw [← not_lt, UInt64.toBeBytes_lt_iff, UInt64.lt_iff_toNat_lt]
      omega

end StoredWindow
