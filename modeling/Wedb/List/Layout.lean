import Mathlib.Data.List.TakeWhile
import Wedb.List.Spec

/-!
# How a list is stored

A stored list is its metadata and a window of elements from the head on, as long
as the size says and ending at the tail. A key without metadata has no elements.
In a store that holds lists only, reading the metadata of a key finds it.
-/

namespace Wedb

open UInt64 (word)

/-- The metadata describes the stored elements. -/
structure ListLayout (m : ListMeta) (xs : List Bytes) (U : SortedMap Bytes Bytes) : Prop where
  rtype : m.base.rtype = .list
  flags : m.base.flags = 0
  expireAt : m.base.expireAt = 0
  size : m.base.size.toNat = xs.length
  tail : m.tail = word m.head xs.length
  stored : StoredWindow m.head xs U

/-- The sequence stored under a key. -/
inductive ListRep (s : Store) (kc : KeyComposer) (key : Key) : List Bytes → Prop
  | absent : s.metadata.get (composeListMetaKey kc key) = none →
      s.family kc key .listData = ∅ → ListRep s kc key []
  | present {m : ListMeta} {xs : List Bytes} :
      s.metadata.get (composeListMetaKey kc key) = some m.encode → xs ≠ [] →
      ListLayout m xs (s.family kc key .listData) → ListRep s kc key xs

/-- The key holds nothing but a list. -/
abbrev ListsOnly (s : Store) (kc : KeyComposer) (key : Key) : Prop := HoldsOnly s kc key .listMeta

variable {s : Store} {kc : KeyComposer} {key : Key} {m : ListMeta} {xs : List Bytes}
  {now : UInt64} {i : ℕ} {idx : UInt64} {v : Bytes} {ops : Batch} {o : WriteOp}

theorem ListLayout.not_expired {U : SortedMap Bytes Bytes} (h : ListLayout m xs U)
    (hne : xs ≠ []) (now : UInt64) : m.isExpired now = false := by
  have hsize : m.base.size ≠ 0 := by
    intro h0
    have hlen := h.size
    rw [h0] at hlen
    exact hne (List.length_eq_zero_iff.mp hlen.symm)
  have hexp : ¬(0 : UInt64) < 0 := by decide
  rw [ListMeta.isExpired, KeyMeta.isExpired, KeyMeta.isEmptyableType, h.rtype, h.expireAt]
  simp [RedisType.isEmptyableType, hsize]

theorem getListMeta_absent (h : ListsOnly s kc key)
    (hget : s.metadata.get (composeListMetaKey kc key) = none) :
    getListMeta s kc key now = .ok none :=
  HoldsOnly.getMetaChecked_absent (M := ListMeta) h hget now

theorem getListMeta_present (h : ListsOnly s kc key)
    (hget : s.metadata.get (composeListMetaKey kc key) = some m.encode)
    (hne : xs ≠ []) (hl : ListLayout m xs (s.family kc key .listData)) :
    getListMeta s kc key now = .ok (some m) :=
  HoldsOnly.getMetaChecked_present (M := ListMeta) h hget (ListMeta.decode_encode hl.flags)
    (hl.not_expired hne now)

/-! ## Elements -/

theorem composeListItem_eq_phys (kc : KeyComposer) (key : Key) (idx : UInt64) :
    composeListItem kc key idx = Addr.phys ⟨kc, key, .sub .listData idx.toBeBytes⟩ :=
  (Addr.phys_sub kc key .listData idx.toBeBytes).symm

theorem getListItem_eq (s : Store) (kc : KeyComposer) (key : Key) (idx : UInt64) :
    getListItem s kc key idx = (s.family kc key .listData).get idx.toBeBytes := by
  rw [Store.get_family, getListItem, composeListItem_eq_phys]
  rfl

section
variable {head : UInt64} {j : ℕ}

theorem getListItem_word (h : StoredWindow head xs (s.family kc key .listData))
    (hi : i < 2 ^ 64) : getListItem s kc key (word head i) = xs[i]? := by
  rw [getListItem_eq, h.get hi]

theorem rangeValues_eq (h : StoredWindow head xs (s.family kc key .listData))
    (hlen : xs.length < 2 ^ 64) (hij : i ≤ j) (hj : j < xs.length)
    (hle : word head i ≤ word head j) :
    rangeValues s kc key (word head i) (word head j) = (xs.drop i).take (j + 1 - i) := by
  rw [rangeValues, composeListItem, composeListItem, SortedMap.range_append, List.map_map]
  change ((s.family kc key .listData).range _ _).map _ = _
  rw [h.range_eq hlen hij hj hle]
  exact StoredWindow.map_snd_slots _ _ _

theorem getElem?_enumerate (xs : List Bytes) (i : ℕ) :
    (enumerate xs)[i]? = xs[i]?.map fun v => (i, v) := by
  rw [enumerate, List.getElem?_mapIdx]

@[simp] theorem length_enumerate (xs : List Bytes) : (enumerate xs).length = xs.length := by
  simp [enumerate]

theorem map_snd_enumerate (xs : List Bytes) : (enumerate xs).map Prod.snd = xs := by
  refine List.ext_getElem? fun i => ?_
  rw [List.getElem?_map, getElem?_enumerate, Option.map_map]
  exact Option.map_id'

theorem filterMap_range' (xs : List Bytes) (a n : ℕ) :
    (List.range' a n).filterMap (fun i => xs[i]?.map fun v => (i, v)) =
      ((enumerate xs).drop a).take n := by
  induction n generalizing a with
  | zero => rw [List.range'_zero, List.filterMap_nil, List.take_zero]
  | succ n ih =>
    rw [List.range'_succ, List.filterMap_cons]
    by_cases ha : a < xs.length
    · have hget : (enumerate xs)[a]? = some (a, xs[a]) := by
        rw [getElem?_enumerate, List.getElem?_eq_getElem ha]
        rfl
      rw [List.getElem?_eq_getElem ha]
      obtain ⟨hlt, heq⟩ := List.getElem?_eq_some_iff.mp hget
      rw [List.drop_eq_getElem_cons hlt, List.take_succ_cons, heq]
      exact congrArg _ (ih (a + 1))
    · have hnone : (enumerate xs).drop a = [] := List.drop_eq_nil_of_le (by simpa using ha)
      have hnext : (enumerate xs).drop (a + 1) = [] := List.drop_eq_nil_of_le (by simp; omega)
      rw [List.getElem?_eq_none (not_lt.mp ha), hnone, List.take_nil]
      simp only [Option.map_none]
      rw [ih, hnext, List.take_nil]

theorem readOffsets_range' (h : StoredWindow head xs (s.family kc key .listData)) {a n : ℕ}
    (han : a + n ≤ 2 ^ 64) :
    readOffsets s kc key head (List.range' a n) = ((enumerate xs).drop a).take n := by
  rw [← filterMap_range']
  refine List.filterMap_congr fun i hi => ?_
  have hlt := List.mem_range'_1.mp hi
  exact congrArg (Option.map fun v => (i, v)) (getListItem_word h (by omega))

theorem readOffsets_reverse (s : Store) (kc : KeyComposer) (key : Key) (head : UInt64)
    (offsets : List ℕ) :
    readOffsets s kc key head offsets.reverse = (readOffsets s kc key head offsets).reverse :=
  List.filterMap_reverse

end

/-! ## Scans -/

theorem scanForward_eq (h : StoredWindow m.head xs (s.family kc key .listData))
    (hlen : xs.length < 2 ^ 64) (hne : xs ≠ []) :
    scanForward s kc key m (word m.head (xs.length - 1)) xs.length = enumerate xs := by
  have hpos := List.length_pos_of_ne_nil hne
  unfold scanForward
  split_ifs with hle
  · have hvalues := rangeValues_eq (i := 0) (j := xs.length - 1) h hlen (Nat.zero_le _)
      (by omega) (by rwa [UInt64.word_zero])
    rw [UInt64.word_zero] at hvalues
    rw [hvalues, List.drop_zero, List.take_of_length_le (by omega)]
  · rw [List.range_eq_range', readOffsets_range' h (by omega), List.drop_zero,
      List.take_of_length_le (by simp)]

theorem enumerate_reverse (xs : List Bytes) :
    (enumerate xs.reverse).map (fun x => (xs.length - 1 - x.1, x.2)) = (enumerate xs).reverse := by
  refine List.ext_getElem? fun i => ?_
  rw [List.getElem?_map, getElem?_enumerate]
  by_cases hi : i < xs.length
  · rw [List.getElem?_reverse hi, List.getElem?_reverse (by simpa using hi), length_enumerate,
      getElem?_enumerate, Option.map_map]
    exact congrArg (fun f => xs[xs.length - 1 - i]?.map f) rfl
  · rw [List.getElem?_eq_none (by simpa using hi), List.getElem?_eq_none (by simpa using hi)]
    rfl

theorem scanBackward_eq (h : StoredWindow m.head xs (s.family kc key .listData))
    (hlen : xs.length < 2 ^ 64) (hne : xs ≠ []) :
    scanBackward s kc key m (word m.head (xs.length - 1)) xs.length =
      (enumerate xs).reverse := by
  have hpos := List.length_pos_of_ne_nil hne
  unfold scanBackward
  split_ifs with hle
  · have hvalues := rangeValues_eq (i := 0) (j := xs.length - 1) h hlen (Nat.zero_le _)
      (by omega) (by rwa [UInt64.word_zero])
    rw [UInt64.word_zero] at hvalues
    rw [hvalues, List.drop_zero, List.take_of_length_le (by omega), List.takeWhile_eq_self_iff.mpr,
      enumerate_reverse]
    intro x hx
    obtain ⟨i, hi⟩ := List.mem_iff_getElem?.mp hx
    rw [getElem?_enumerate, Option.map_eq_some_iff] at hi
    obtain ⟨v, hv, rfl⟩ := hi
    have hlt := (List.getElem?_eq_some_iff.mp hv).1
    simpa using hlt
  · rw [readOffsets_reverse, List.range_eq_range', readOffsets_range' h (by omega),
      List.drop_zero, List.take_of_length_le (by simp)]

end Wedb
