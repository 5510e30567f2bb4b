import Mathlib.Order.Basic
import Mathlib.Order.Defs.LinearOrder
import Mathlib.Data.List.Lex
import Mathlib.Data.List.Sort
import Mathlib.Tactic

/-!
# Finite maps as strictly sorted entry lists

A `SortedMap` is a list of entries in strictly increasing key order and carries
the proof of its order, so that iteration in key order is part of the value.
Two maps with the same lookups are equal; insertion, deletion and deletion of
all keys in a decidable set are computed on the list and characterised by
`get`. Entry counts follow one insertion or deletion at a time.
-/

universe u v w
variable {α : Type u} {β : Type v} [LinearOrder α]

structure SortedMap (α : Type u) (β : Type v) [LinearOrder α] where
  entries : List (α × β)
  sorted : entries.Pairwise fun x y => x.1 < y.1
  deriving DecidableEq

namespace SortedMap

def empty : SortedMap α β := ⟨[], .nil⟩

instance : EmptyCollection (SortedMap α β) := ⟨empty⟩
instance : Inhabited (SortedMap α β) := ⟨empty⟩

def lookup (a : α) : List (α × β) → Option β
  | [] => none
  | x :: xs => if x.1 = a then some x.2 else lookup a xs

def get (m : SortedMap α β) (a : α) : Option β := lookup a m.entries

def contains (m : SortedMap α β) (a : α) : Bool := (m.get a).isSome

def insertEntry (a : α) (b : β) : List (α × β) → List (α × β)
  | [] => [(a, b)]
  | x :: xs =>
    if a < x.1 then (a, b) :: x :: xs
    else if a = x.1 then (a, b) :: xs
    else x :: insertEntry a b xs

theorem mem_insertEntry {a : α} {b : β} {xs : List (α × β)} {x : α × β}
    (h : x ∈ insertEntry a b xs) : x = (a, b) ∨ x ∈ xs := by
  induction xs with
  | nil => simpa [insertEntry] using h
  | cons y ys ih =>
    simp only [insertEntry] at h
    split_ifs at h with hlt heq
    · simpa using h
    · rcases List.mem_cons.mp h with h | h
      · exact Or.inl h
      · exact Or.inr (List.mem_cons_of_mem _ h)
    · rcases List.mem_cons.mp h with h | h
      · exact Or.inr (by simp [h])
      · exact (ih h).imp_right (List.mem_cons_of_mem _)

theorem insertEntry_sorted (a : α) (b : β) {xs : List (α × β)}
    (h : xs.Pairwise fun x y => x.1 < y.1) :
    (insertEntry a b xs).Pairwise fun x y => x.1 < y.1 := by
  induction xs with
  | nil => simp [insertEntry]
  | cons y ys ih =>
    obtain ⟨hy, hys⟩ := List.pairwise_cons.mp h
    simp only [insertEntry]
    split_ifs with hlt heq
    · refine List.pairwise_cons.mpr ⟨fun z hz => ?_, h⟩
      rcases List.mem_cons.mp hz with rfl | hz
      · exact hlt
      · exact hlt.trans (hy z hz)
    · exact List.pairwise_cons.mpr ⟨fun z hz => heq ▸ hy z hz, hys⟩
    · refine List.pairwise_cons.mpr ⟨fun z hz => ?_, ih hys⟩
      rcases mem_insertEntry hz with rfl | hz
      · exact lt_of_le_of_ne (not_lt.mp hlt) (Ne.symm heq)
      · exact hy z hz

def insert (a : α) (b : β) (m : SortedMap α β) : SortedMap α β :=
  ⟨insertEntry a b m.entries, insertEntry_sorted a b m.sorted⟩

def keep (p : α → Bool) (m : SortedMap α β) : SortedMap α β :=
  ⟨m.entries.filter fun x => p x.1, m.sorted.filter _⟩

def erase (a : α) (m : SortedMap α β) : SortedMap α β := m.keep fun x => decide (x ≠ a)

def put (a : α) (b : Option β) (m : SortedMap α β) : SortedMap α β :=
  match b with
  | some b => m.insert a b
  | none => m.erase a

def keys (m : SortedMap α β) : List α := m.entries.map Prod.fst

def length (m : SortedMap α β) : ℕ := m.entries.length

def isEmpty (m : SortedMap α β) : Bool := m.entries.isEmpty

def countP (p : α → β → Bool) (m : SortedMap α β) : ℕ := m.entries.countP fun x => p x.1 x.2

/-! ## Lookups -/

theorem lookup_eq_none {a : α} {xs : List (α × β)} :
    lookup a xs = none ↔ ∀ x ∈ xs, x.1 ≠ a := by
  induction xs with
  | nil => simp [lookup]
  | cons x xs ih =>
    by_cases h : x.1 = a <;> simp [lookup, h, ih]

theorem lookup_eq_some {a : α} {b : β} {xs : List (α × β)}
    (hs : xs.Pairwise fun x y => x.1 < y.1) : lookup a xs = some b ↔ (a, b) ∈ xs := by
  induction xs with
  | nil => simp [lookup]
  | cons x xs ih =>
    obtain ⟨hx, hxs⟩ := List.pairwise_cons.mp hs
    by_cases h : x.1 = a
    · have hnot : (a, b) ∉ xs := fun hm => absurd (hx _ hm) (by simp [h])
      simp only [lookup, h, if_true, List.mem_cons, hnot, or_false, Option.some.injEq]
      constructor
      · rintro rfl; exact Prod.ext h.symm rfl
      · intro he; rw [← he]
    · have hne : (a, b) ≠ x := fun he => h (by rw [← he])
      simp [lookup, h, ih hxs, hne]

theorem lookup_insertEntry_self (a : α) (b : β) (xs : List (α × β)) :
    lookup a (insertEntry a b xs) = some b := by
  induction xs with
  | nil => simp [insertEntry, lookup]
  | cons x xs ih =>
    simp only [insertEntry]
    split_ifs with hlt heq
    · simp [lookup]
    · simp [lookup]
    · simp [lookup, Ne.symm heq, ih]

theorem lookup_insertEntry_of_ne {a c : α} (b : β) (hne : a ≠ c) (xs : List (α × β)) :
    lookup c (insertEntry a b xs) = lookup c xs := by
  induction xs with
  | nil => simp [insertEntry, lookup, hne]
  | cons x xs ih =>
    simp only [insertEntry]
    split_ifs with hlt heq
    · simp [lookup, hne]
    · simp [lookup, hne, ← heq]
    · simp [lookup, ih]

theorem lookup_filter (p : α → Bool) (a : α) (xs : List (α × β)) :
    lookup a (xs.filter fun x => p x.1) = if p a then lookup a xs else none := by
  induction xs with
  | nil => simp [lookup]
  | cons x xs ih =>
    by_cases hx : x.1 = a
    · subst hx
      by_cases hp : p x.1
      · simp [lookup, hp]
      · simpa [hp] using ih
    · by_cases hp : p x.1 <;> simp [lookup, hp, hx, ih]

@[simp] theorem get_empty (a : α) : (∅ : SortedMap α β).get a = none := rfl

@[simp] theorem get_insert_self (a : α) (b : β) (m : SortedMap α β) :
    (m.insert a b).get a = some b := lookup_insertEntry_self a b m.entries

theorem get_insert_of_ne {a c : α} (b : β) (m : SortedMap α β) (h : a ≠ c) :
    (m.insert a b).get c = m.get c := lookup_insertEntry_of_ne b h m.entries

theorem get_insert (a c : α) (b : β) (m : SortedMap α β) :
    (m.insert a b).get c = if a = c then some b else m.get c := by
  split_ifs with h
  · subst h; simp
  · exact get_insert_of_ne b m h

theorem get_keep (p : α → Bool) (m : SortedMap α β) (a : α) :
    (m.keep p).get a = if p a then m.get a else none := lookup_filter p a m.entries

theorem get_erase (a c : α) (m : SortedMap α β) :
    (m.erase a).get c = if a = c then none else m.get c := by
  rw [erase, get_keep]
  by_cases h : a = c <;> simp [h, eq_comm]

@[simp] theorem get_erase_self (a : α) (m : SortedMap α β) : (m.erase a).get a = none := by
  simp [get_erase]

theorem get_erase_of_ne {a c : α} (m : SortedMap α β) (h : a ≠ c) :
    (m.erase a).get c = m.get c := by simp [get_erase, h]

theorem get_put (a c : α) (b : Option β) (m : SortedMap α β) :
    (m.put a b).get c = if a = c then b else m.get c := by
  cases b with
  | none => exact get_erase a c m
  | some b => exact get_insert a c b m

theorem get_eq_some {m : SortedMap α β} {a : α} {b : β} :
    m.get a = some b ↔ (a, b) ∈ m.entries := lookup_eq_some m.sorted

theorem get_eq_none {m : SortedMap α β} {a : α} : m.get a = none ↔ ∀ x ∈ m.entries, x.1 ≠ a :=
  lookup_eq_none

theorem get_of_mem {m : SortedMap α β} {x : α × β} (h : x ∈ m.entries) : m.get x.1 = some x.2 :=
  get_eq_some.mpr h

@[simp] theorem contains_eq_true {m : SortedMap α β} {a : α} :
    m.contains a = true ↔ ∃ b, m.get a = some b := by
  simp [contains, Option.isSome_iff_exists]

@[simp] theorem contains_eq_false {m : SortedMap α β} {a : α} :
    m.contains a = false ↔ m.get a = none := by
  simp [contains]

theorem mem_keys {m : SortedMap α β} {a : α} : a ∈ m.keys ↔ ∃ b, m.get a = some b := by
  simp [keys, get_eq_some]

/-! ## Extensionality -/

theorem eq_of_mem_iff {xs ys : List (α × β)} (hx : xs.Pairwise fun x y => x.1 < y.1)
    (hy : ys.Pairwise fun x y => x.1 < y.1) (h : ∀ x, x ∈ xs ↔ x ∈ ys) : xs = ys := by
  have hnx : xs.Nodup := hx.imp fun hlt he => absurd (congrArg Prod.fst he) hlt.ne
  have hny : ys.Nodup := hy.imp fun hlt he => absurd (congrArg Prod.fst he) hlt.ne
  refine List.Perm.eq_of_pairwise (fun a b _ _ hab hba => ?_) hx hy
    ((List.perm_ext_iff_of_nodup hnx hny).mpr h)
  exact absurd hab (not_lt_of_gt hba)

theorem ext_get {m n : SortedMap α β} (h : ∀ a, m.get a = n.get a) : m = n := by
  obtain ⟨xs, hx⟩ := m
  obtain ⟨ys, hy⟩ := n
  have he : xs = ys := by
    refine eq_of_mem_iff hx hy fun x => ?_
    have hx' := get_eq_some (m := ⟨xs, hx⟩) (a := x.1) (b := x.2)
    have hy' := get_eq_some (m := ⟨ys, hy⟩) (a := x.1) (b := x.2)
    rw [h] at hx'
    exact hx'.symm.trans hy'
  subst he
  rfl

/-! ## Counts -/

theorem countP_insertEntry_of_lookup_none (p : α → β → Bool) {a : α} (b : β)
    {xs : List (α × β)} (h : lookup a xs = none) :
    (insertEntry a b xs).countP (fun x => p x.1 x.2) =
      xs.countP (fun x => p x.1 x.2) + if p a b then 1 else 0 := by
  induction xs with
  | nil => by_cases hp : p a b <;> simp [insertEntry, hp]
  | cons x xs ih =>
    have hne : x.1 ≠ a := lookup_eq_none.mp h x (by simp)
    have hxs : lookup a xs = none := by simpa [lookup, hne] using h
    simp only [insertEntry]
    split_ifs with hlt heq hp <;>
      simp_all [List.countP_cons, Nat.add_right_comm]

theorem countP_insert_of_get_none (p : α → β → Bool) {m : SortedMap α β} {a : α} (b : β)
    (h : m.get a = none) :
    (m.insert a b).countP p = m.countP p + if p a b then 1 else 0 :=
  countP_insertEntry_of_lookup_none p b h

theorem countP_erase_of_get_some (p : α → β → Bool) {m : SortedMap α β} {a : α} {b : β}
    (h : m.get a = some b) :
    (m.erase a).countP p + (if p a b then 1 else 0) = m.countP p := by
  have hback : (m.erase a).insert a b = m := by
    refine ext_get fun c => ?_
    rw [get_insert, get_erase]
    split_ifs with hc
    · rw [← hc, h]
    · rfl
  have hcount := countP_insert_of_get_none p b (get_erase_self a m)
  rw [hback] at hcount
  exact hcount.symm

theorem insert_erase_self (a : α) (b : β) (m : SortedMap α β) :
    (m.erase a).insert a b = m.insert a b := by
  refine ext_get fun c => ?_
  rw [get_insert, get_insert, get_erase]
  split_ifs <;> rfl

theorem countP_insert_of_get_some (p : α → β → Bool) {m : SortedMap α β} {a : α} {b c : β}
    (h : m.get a = some c) :
    (m.insert a b).countP p + (if p a c then 1 else 0) =
      m.countP p + if p a b then 1 else 0 := by
  have he := countP_erase_of_get_some p h
  have hi := countP_insert_of_get_none p b (get_erase_self a m)
  rw [insert_erase_self] at hi
  omega

theorem length_eq_countP (m : SortedMap α β) : m.length = m.countP fun _ _ => true := by
  simp [length, countP]

theorem length_insert_of_get_none {m : SortedMap α β} {a : α} (b : β) (h : m.get a = none) :
    (m.insert a b).length = m.length + 1 := by
  simpa [length_eq_countP] using countP_insert_of_get_none (fun _ _ => true) b h

theorem length_insert_of_get_some {m : SortedMap α β} {a : α} {b c : β} (h : m.get a = some c) :
    (m.insert a b).length = m.length := by
  simpa [length_eq_countP] using countP_insert_of_get_some (b := b) (fun _ _ => true) h

theorem length_erase_of_get_some {m : SortedMap α β} {a : α} {b : β} (h : m.get a = some b) :
    (m.erase a).length + 1 = m.length := by
  simpa [length_eq_countP] using countP_erase_of_get_some (fun _ _ => true) h

theorem countP_le_length (p : α → β → Bool) (m : SortedMap α β) : m.countP p ≤ m.length :=
  List.countP_le_length

theorem length_keep_le (p : α → Bool) (m : SortedMap α β) : (m.keep p).length ≤ m.length :=
  List.length_filter_le _ _

theorem length_erase_le (a : α) (m : SortedMap α β) : (m.erase a).length ≤ m.length :=
  length_keep_le _ m

theorem of_countP_eq_length {p : α → β → Bool} {m : SortedMap α β} (h : m.countP p = m.length)
    {a : α} {b : β} (hg : m.get a = some b) : p a b = true :=
  List.countP_eq_length.mp h (a, b) (get_eq_some.mp hg)

theorem length_le_length_insert (a : α) (b : β) (m : SortedMap α β) :
    m.length ≤ (m.insert a b).length := by
  cases h : m.get a with
  | none =>
    rw [length_insert_of_get_none b h]
    omega
  | some c => rw [length_insert_of_get_some h]

theorem length_insert_congr (a : α) (b c : β) (m : SortedMap α β) :
    (m.insert a b).length = (m.insert a c).length := by
  cases h : m.get a with
  | none => rw [length_insert_of_get_none b h, length_insert_of_get_none c h]
  | some d => rw [length_insert_of_get_some h, length_insert_of_get_some h]

theorem length_pos {m : SortedMap α β} {a : α} {b : β} (h : m.get a = some b) : 0 < m.length :=
  List.length_pos_of_mem (get_eq_some.mp h)

theorem nodup_keys (m : SortedMap α β) : m.keys.Nodup :=
  (List.pairwise_map.mpr m.sorted).imp ne_of_lt

theorem keys_subset {γ : Type w} {m : SortedMap α β} {n : SortedMap α γ}
    (h : ∀ a, (m.get a).isSome = true → (n.get a).isSome = true) : m.keys ⊆ n.keys := by
  intro a ha
  obtain ⟨b, hb⟩ := mem_keys.mp ha
  exact mem_keys.mpr (Option.isSome_iff_exists.mp (h a (by rw [hb]; rfl)))

theorem length_le_of_get {γ : Type w} {m : SortedMap α β} {n : SortedMap α γ}
    (h : ∀ a, (m.get a).isSome = true → (n.get a).isSome = true) : m.length ≤ n.length := by
  have hle := (m.nodup_keys.subperm (keys_subset h)).length_le
  rwa [keys, keys, List.length_map, List.length_map] at hle

theorem get_of_isEmpty {m : SortedMap α β} (h : m.isEmpty = true) (a : α) : m.get a = none := by
  rw [get_eq_none, List.isEmpty_iff.mp h]
  simp

theorem eq_empty_of_length {m : SortedMap α β} (h : m.length = 0) : m = ∅ := by
  refine ext_get fun a => ?_
  cases hg : m.get a with
  | none => rfl
  | some b => exact absurd (length_pos hg) (by omega)

theorem get_foldl_merge {γ : Type w} (g : Option β → γ → β) {xs : List (α × γ)}
    (hnodup : (xs.map Prod.fst).Nodup) (m : SortedMap α β) (a : α) :
    (∀ c, (a, c) ∈ xs → (xs.foldl (fun m x => m.insert x.1 (g (m.get x.1) x.2)) m).get a =
      some (g (m.get a) c)) ∧
    (a ∉ xs.map Prod.fst →
      (xs.foldl (fun m x => m.insert x.1 (g (m.get x.1) x.2)) m).get a = m.get a) := by
  induction xs generalizing m with
  | nil => exact ⟨fun c hc => absurd hc List.not_mem_nil, fun _ => rfl⟩
  | cons x xs ih =>
    rw [List.map_cons, List.nodup_cons] at hnodup
    obtain ⟨hin, hout⟩ := ih hnodup.2 (m.insert x.1 (g (m.get x.1) x.2))
    rw [List.foldl_cons]
    refine ⟨fun c hc => ?_, fun ha => ?_⟩
    · rcases List.mem_cons.mp hc with rfl | hc
      · rw [hout hnodup.1, get_insert, if_pos rfl]
      · have hne : x.1 ≠ a := fun heq => hnodup.1 (heq ▸ List.mem_map_of_mem hc)
        rw [hin c hc, get_insert_of_ne _ _ hne]
    · rw [List.map_cons, List.mem_cons, not_or] at ha
      rw [hout ha.2, get_insert_of_ne _ _ (Ne.symm ha.1)]

end SortedMap
