import Wedb.List.Reads

/-!
# What the writing commands leave

The writes of a command give single cells their value in the sequence it leaves, and
the other cells keep theirs. Every command on one key is described by the sequence
that its committed writes leave there.
-/

namespace Wedb

open UInt64 (word)

theorem word_before {head : UInt64} {b i : ℕ} (hb : b ≤ 2 ^ 64) :
    word (word head b) (2 ^ 64 - b + i) = word head i := by
  have hsum : b + (2 ^ 64 - b + i) = 2 ^ 64 + i := by omega
  rw [UInt64.word_add, hsum, ← UInt64.word_add, UInt64.word_max]

/-- The operation writes the element at an index. -/
def WriteOp.ItemAt (kc : KeyComposer) (key : Key) (idx : UInt64) (o : WriteOp) : Prop :=
  o.partition = .data ∧ o.key = composeListItem kc key idx

/-- Writes of elements after which a sequence is in the window from `head` on. -/
structure ItemWrites (s : Store) (kc : KeyComposer) (key : Key) (head : UInt64) (ys : List Bytes)
    (ops : Batch) : Prop where
  items : ∀ o ∈ ops, ∃ i < 2 ^ 64, o.ItemAt kc key (word head i) ∧ o.value = ys[i]?
  rest : ∀ i < 2 ^ 64, getListItem s kc key (word head i) = ys[i]? ∨
    ∃ o ∈ ops, o.ItemAt kc key (word head i)

/-- The operations remove the elements at some offsets. -/
structure Removes (kc : KeyComposer) (key : Key) (head : UInt64) (offsets : List ℕ) (ops : Batch) :
    Prop where
  items : ∀ o ∈ ops, ∃ i ∈ offsets, o.ItemAt kc key (word head i) ∧ o.value = none
  hits : ∀ i ∈ offsets, ∃ o ∈ ops, o.ItemAt kc key (word head i)

section
variable {s : Store} {kc : KeyComposer} {key : Key} {head idx : UInt64} {xs ys : List Bytes}
  {ops : Batch} {o : WriteOp} {i b n : ℕ} {offsets : List ℕ}

theorem WriteOp.ItemAt.owned (h : o.ItemAt kc key idx) : o.OwnedBy kc key .listMeta :=
  ownedBy_sub .listData rfl h.1 (h.2.trans (composeListItem_eq_phys kc key idx))

theorem ItemWrites.owned (h : ItemWrites s kc key head ys ops) :
    ∀ o ∈ ops, o.OwnedBy kc key .listMeta := by
  intro o ho
  obtain ⟨i, -, hitem, -⟩ := h.items o ho
  exact hitem.owned

theorem ItemWrites.stored (h : ItemWrites s kc key head ys ops)
    (hindexed : ∀ k b, (s.family kc key .listData).get k = some b → k.length = 8) :
    StoredWindow head ys ((s.apply ops).family kc key .listData) where
  window := by
    refine Window.of_word fun i hi => ?_
    have hphys := composeListItem_eq_phys kc key (word head i)
    have hvalue : ∀ o ∈ ops, o.partition = .data ∧ o.key = Addr.phys
        ⟨kc, key, .sub .listData (word head i).toBeBytes⟩ → o.value = ys[i]? := by
      intro o ho hit
      obtain ⟨j, hj, hitem, hv⟩ := h.items o ho
      have hsame : word head j = word head i := UInt64.toBeBytes_injective
        (List.append_cancel_left (hitem.2.symm.trans (hit.2.trans hphys.symm)))
      rw [hv, UInt64.word_inj hj hi hsame]
    rw [Store.get_family, Store.at_apply_of_forall_value hvalue]
    split_ifs with hhit
    · rfl
    · rw [← Store.get_family, ← getListItem_eq]
      refine (h.rest i hi).resolve_right fun hat => hhit ?_
      obtain ⟨o, ho, hitem⟩ := hat
      exact ⟨o, ho, hitem.1, hitem.2.trans hphys⟩
  indexed := by
    intro k b hget
    by_contra hk
    refine hk (hindexed k b ?_)
    rw [Store.get_family] at hget ⊢
    rw [← hget]
    refine (Store.at_apply_of_forall_ne fun o ho hhit => ?_).symm
    obtain ⟨i, -, hitem, -⟩ := h.items o ho
    have hkey : Addr.phys ⟨kc, key, .sub .listData (word head i).toBeBytes⟩ =
        Addr.phys ⟨kc, key, .sub .listData k⟩ := by
      rw [← composeListItem_eq_phys, ← hitem.2, hhit.2]
    rw [Addr.phys_sub, Addr.phys_sub] at hkey
    rw [← List.append_cancel_left hkey] at hk
    exact hk (UInt64.toBeBytes_length _)

theorem removes_rmWeakOffsets :
    Removes kc key head offsets (rmWeakOffsets kc key head offsets) := by
  refine ⟨fun o ho => ?_, fun i hi => ⟨_, List.mem_map_of_mem hi, rfl, rfl⟩⟩
  obtain ⟨i, hi, rfl⟩ := List.mem_map.mp ho
  exact ⟨i, hi, ⟨rfl, rfl⟩, rfl⟩

theorem removes_rmData (kc : KeyComposer) (key : Key) (head : UInt64) (i : ℕ) :
    Removes kc key head [i] [.rmData (composeListItem kc key (word head i))] := by
  refine ⟨fun o ho => ⟨i, List.mem_singleton_self i, ?_⟩,
    fun j hj => ⟨_, List.mem_singleton_self _, ?_⟩⟩
  · cases List.mem_singleton.mp ho
    exact ⟨⟨rfl, rfl⟩, rfl⟩
  · cases List.mem_singleton.mp hj
    exact ⟨rfl, rfl⟩

theorem Removes.itemWrites (h : Removes kc key head offsets ops)
    (hstored : StoredWindow head xs (s.family kc key .listData)) (hlen : xs.length < 2 ^ 63)
    (hb : b + n ≤ xs.length)
    (hoffsets : ∀ i, i ∈ offsets ↔ i < xs.length ∧ ¬(b ≤ i ∧ i < b + n)) :
    ItemWrites s kc key (word head b) ((xs.drop b).take n) ops where
  items := by
    intro o ho
    obtain ⟨i, hi, hitem, hv⟩ := h.items o ho
    obtain ⟨hi, hout⟩ := (hoffsets i).mp hi
    by_cases hib : i < b
    · refine ⟨2 ^ 64 - b + i, by omega, ?_, ?_⟩
      · rwa [word_before (by omega)]
      · rw [hv, List.getElem?_eq_none]
        rw [List.length_take, List.length_drop]
        omega
    · refine ⟨i - b, by omega, ?_, ?_⟩
      · rwa [UInt64.word_add, Nat.add_sub_cancel' (not_lt.mp hib)]
      · rw [hv, List.getElem?_eq_none]
        rw [List.length_take]
        omega
  rest := by
    intro i hi
    rw [UInt64.word_add]
    by_cases hwrap : b + i < 2 ^ 64
    · rw [getListItem_word hstored hwrap]
      by_cases hin : i < n
      · left
        rw [List.getElem?_take, if_pos hin, List.getElem?_drop]
      · by_cases hlast : b + i < xs.length
        · exact Or.inr (h.hits _ ((hoffsets _).mpr ⟨hlast, by omega⟩))
        · left
          rw [List.getElem?_eq_none (not_lt.mp hlast), List.getElem?_eq_none]
          rw [List.length_take]
          omega
    · have hsum : b + i = 2 ^ 64 + (b + i - 2 ^ 64) := by omega
      have hword : word head (b + i) = word head (b + i - 2 ^ 64) := by
        conv_lhs => rw [hsum, ← UInt64.word_add, UInt64.word_max]
      rw [hword]
      exact Or.inr (h.hits _ ((hoffsets _).mpr ⟨by omega, by omega⟩))

theorem stored_length_le {U : SortedMap Bytes Bytes} (h : StoredWindow head xs U)
    (hlen : xs.length < 2 ^ 64) : xs.length ≤ U.length := by
  have hinj : Function.Injective fun i : Fin xs.length => (word head i).toBeBytes := by
    intro i j hij
    exact Fin.ext (UInt64.word_inj (by omega) (by omega) (UInt64.toBeBytes_injective hij))
  have hsub : List.ofFn (fun i : Fin xs.length => (word head i).toBeBytes) ⊆ U.keys := by
    intro k hk
    obtain ⟨i, rfl⟩ := List.mem_ofFn.mp hk
    refine SortedMap.mem_keys.mpr ⟨xs[i], ?_⟩
    rw [h.get (by omega), List.getElem?_eq_getElem i.isLt]
    rfl
  have hle := (List.subperm_of_subset (List.nodup_ofFn.mpr hinj) hsub).length_le
  rwa [List.length_ofFn, SortedMap.keys, List.length_map] at hle

end

/-! ## What a batch leaves -/

/-- Writes to a key's list after which it stores a sequence. -/
structure ListLeaves (s : Store) (kc : KeyComposer) (key : Key) (ops : Batch) (ys : List Bytes) :
    Prop where
  owned : ∀ o ∈ ops, o.OwnedBy kc key .listMeta
  rep : ListRep (s.apply ops) kc key ys

section
variable {s : Store} {kc : KeyComposer} {key : Key} {xs ys : List Bytes} {ops : Batch}
  {m : ListMeta}

theorem ListHeld.leaves_nil (h : ListHeld s kc key xs) : ListLeaves s kc key [] xs :=
  ⟨fun _ ho => (List.not_mem_nil ho).elim, h.rep⟩

theorem ListRep.length_le (h : ListRep s kc key ys) :
    ys.length ≤ (s.family kc key .listData).length := by
  cases h with
  | absent => exact Nat.zero_le _
  | @present m _ _ _ hl => exact stored_length_le hl.stored (hl.size ▸ m.base.size.toNat_lt)

theorem ListLeaves.held (h : ListLeaves s kc key ops ys) (honly : ListsOnly s kc key)
    (hfits : (s.apply ops).Fits) : ListHeld (s.apply ops) kc key ys :=
  ⟨honly.apply h.owned, h.rep,
    h.rep.length_le.trans_lt (hfits.length_family_lt_signed kc key .listData)⟩

theorem ListLayout.tail_sub_one {U : SortedMap Bytes Bytes} (h : ListLayout m xs U)
    (hne : xs ≠ []) : m.tail - 1 = word m.head (xs.length - 1) := by
  have hpos := List.length_pos_of_ne_nil hne
  have hsub : xs.length = xs.length - 1 + 1 := by omega
  conv_lhs => rw [h.tail, hsub, ← UInt64.word_succ, UInt64.add_sub_cancel]

/-- Elements laid out as the metadata says make the list once it is written. -/
theorem ListLeaves.commit (h : PushReached s kc key (m, ops) ys) :
    ListLeaves s kc key (ops ++ commitListBatch (composeListMetaKey kc key) m) ys := by
  have howned := h.owned
  have hl := h.layout
  by_cases hys : ys = []
  · subst hys
    rw [commitListBatch, if_pos (UInt64.toNat_inj.mp hl.size)]
    refine ⟨ownedBy_append howned (ownedBy_metadata rfl rfl rfl), ?_⟩
    · rw [Store.apply_append]
      refine .absent (SortedMap.get_erase_self _ _) ?_
      exact (Store.family_applyOp_of_metadata (o := .rmMeta _) rfl).trans hl.stored.eq_empty
  · rw [commitListBatch, if_neg (hl.size_ne_zero hys)]
    refine ⟨ownedBy_append howned (ownedBy_listMeta _), ?_⟩
    · rw [Store.apply_append]
      refine .present (SortedMap.get_insert_self _ _ _) hys ?_
      exact (Store.family_applyOp_of_metadata (o := .insertMeta _ _) rfl).symm ▸ hl

end

/-! ## Removing from the ends -/

section
variable {s : Store} {kc : KeyComposer} {key : Key} {head : UInt64} {xs : List Bytes} {i n : ℕ}
  {m : ListMeta} {now : UInt64} {offsets : List ℕ}

theorem ListLayout.part {ops : Batch} {b : ℕ} {m' : ListMeta}
    (hl : ListLayout m xs (s.family kc key .listData)) (hlen : xs.length < 2 ^ 63)
    (hb : b + n ≤ xs.length) (hremoves : Removes kc key m.head offsets ops)
    (hoffsets : ∀ i, i ∈ offsets ↔ i < xs.length ∧ ¬(b ≤ i ∧ i < b + n))
    (hbase : m'.base = { m.base with size := UInt64.ofNat n }) (hhead : m'.head = word m.head b)
    (htail : m'.tail = word m.head (b + n)) :
    PushReached s kc key (m', ops) ((xs.drop b).take n) := by
  have hlength : ((xs.drop b).take n).length = n := by
    rw [List.length_take, List.length_drop]
    omega
  have hw := hremoves.itemWrites hl.stored hlen hb hoffsets
  refine ⟨hw.owned, ?_, ?_, ?_, ?_, ?_, ?_⟩
  · exact hbase ▸ hl.rtype
  · exact hbase ▸ hl.flags
  · exact hbase ▸ hl.expireAt
  · rw [hbase, hlength]
    exact UInt64.toNat_ofNat_of_lt' (show n < 2 ^ 64 by omega)
  · rw [hhead, htail, hlength, UInt64.word_add]
  · exact hhead ▸ hw.stored hl.stored.indexed

theorem leaves_cleared :
    ListLeaves s kc key (clearPrefixInBatch s .data (composeListPrefix kc key) ++
      [.rmMeta (composeListMetaKey kc key)]) [] := by
  have hclear : (s.apply (clearPrefixInBatch s .data (composeListPrefix kc key))).family kc key
      .listData = ∅ := Store.family_apply_clear rfl fun _ h => h
  have hl : ListLayout (.newWithVersion 0 0) [] ((s.apply (clearPrefixInBatch s .data
      (composeListPrefix kc key))).family kc key .listData) := by
    refine ⟨rfl, rfl, rfl, rfl, (UInt64.word_zero _).symm, ?_⟩
    rw [hclear]
    exact .empty _
  exact .commit ⟨fun o ho => ownedBy_clearPrefix .listData rfl ho, hl⟩

theorem ltrim_spec (h : ListHeld s kc key xs) (start stop : Int64) :
    ∃ ops, ltrim s kc key now start stop = .ok ((), ops) ∧
      ListLeaves s kc key ops (Seq.slice start.toInt stop.toInt xs) := by
  obtain ⟨r, hr, hf⟩ := h.found now
  unfold ltrim
  rw [hr]
  cases hf with
  | absent _ =>
    refine ⟨[], rfl, ?_⟩
    rw [Seq.slice, List.drop_nil, List.take_nil]
    exact h.leaves_nil
  | @present m _ hne hlen hl =>
    have hpos := List.length_pos_of_ne_nil hne
    simp only [bind, Except.bind, if_neg (hl.size_ne_zero hne), hl.asI64_size hlen,
      normalizeRange_eq start.toInt stop.toInt hpos]
    have hb := Seq.first_nonneg xs.length start.toInt
    have he := Seq.last_lt xs.length stop.toInt
    rw [Seq.slice]
    set b := Seq.first xs.length start.toInt
    set e := Seq.last xs.length stop.toInt
    by_cases hbe : b > e
    · have hn : (e - b + 1).toNat = 0 := by omega
      rw [if_pos hbe, hn, List.take_zero]
      exact ⟨_, rfl, leaves_cleared⟩
    · have hsize : (e - b + 1) = ((e - b + 1).toNat : ℤ) := by omega
      have hoffsets : ∀ i, i ∈ List.range b.toNat ++ List.range' (e + 1).toNat
          (m.base.size.toNat - (e + 1).toNat) ↔
          i < xs.length ∧ ¬(b.toNat ≤ i ∧ i < b.toNat + (e - b + 1).toNat) := by
        intro i
        rw [List.mem_append, List.mem_range, List.mem_range'_1, hl.size]
        omega
      rw [if_neg hbe, hsize, UInt64.ofInt_natCast, word_ofInt m.head hb, rmWeakOffsets,
        rmWeakOffsets, ← List.map_append]
      refine ⟨_, rfl, ?_⟩
      rw [Int.toNat_natCast]
      exact .commit (hl.part hlen (by omega) removes_rmWeakOffsets hoffsets rfl rfl
        (UInt64.word_add _ _ _))

theorem listPopLoop_left (h : StoredWindow head xs (s.family kc key .listData))
    (hlen : xs.length < 2 ^ 63) (hm : m.head = word head i) (hin : i + n ≤ xs.length) :
    listPopLoop s kc key true n m = ({ m with head := word head (i + n) }, (xs.drop i).take n,
      rmWeakOffsets kc key head (List.range' i n)) := by
  induction n generalizing m i with
  | zero =>
    rw [Nat.add_zero, ← hm]
    rfl
  | succ n ih =>
    have hi : i < xs.length := by omega
    have hget : getListItem s kc key m.head = some xs[i] := by
      rw [hm, getListItem_word h (by omega), List.getElem?_eq_getElem hi]
    have hpop : m.popIndex true = ({ m with head := word head (i + 1) }, m.head) := by
      rw [ListMeta.popIndex, if_pos rfl, ListMeta.popHead, hm, UInt64.word_succ]
    rw [listPopLoop, hpop]
    dsimp only
    rw [ih (i := i + 1) rfl (by omega), hget, List.drop_eq_getElem_cons hi, List.take_succ_cons,
      List.range'_succ, hm, Nat.add_assoc, Nat.add_comm 1 n]
    rfl

theorem listPopLoop_right (h : StoredWindow head xs (s.family kc key .listData))
    (hlen : xs.length < 2 ^ 63) (hm : m.tail = word head (i + n)) (hin : i + n ≤ xs.length) :
    listPopLoop s kc key false n m = ({ m with tail := word head i }, ((xs.drop i).take n).reverse,
      rmWeakOffsets kc key head (List.range' i n).reverse) := by
  induction n generalizing m with
  | zero =>
    rw [Nat.add_zero] at hm
    rw [← hm]
    rfl
  | succ n ih =>
    have hi : i + n < xs.length := by omega
    have htail : m.tail - 1 = word head (i + n) := by
      rw [hm, ← Nat.add_assoc, ← UInt64.word_succ, UInt64.add_sub_cancel]
    have hget : getListItem s kc key (m.tail - 1) = some xs[i + n] := by
      rw [htail, getListItem_word h (by omega), List.getElem?_eq_getElem hi]
    have hpop : m.popIndex false = ({ m with tail := word head (i + n) }, m.tail - 1) := by
      rw [ListMeta.popIndex, if_neg Bool.false_ne_true, ListMeta.popTail, htail]
    have htake : (xs.drop i).take (n + 1) = (xs.drop i).take n ++ [xs[i + n]] := by
      rw [List.take_add_one, List.getElem?_drop, List.getElem?_eq_getElem hi, Option.toList_some]
    rw [listPopLoop, hpop]
    dsimp only
    rw [ih rfl (by omega), hget, htake, List.reverse_concat, List.range'_concat,
      List.reverse_concat, htail, Nat.one_mul]
    rfl

theorem listPopInternal_eq {count : UInt64} {left : Bool} (hcount : count ≠ 0)
    (hr : getListMeta s kc key now = .ok (some m)) (hne : xs ≠ []) (hlen : xs.length < 2 ^ 63)
    (hl : ListLayout m xs (s.family kc key .listData)) :
    listPopInternal s kc key now count left =
      let k := min count m.base.size
      let (m', results, ops) := listPopLoop s kc key left k.toNat m
      .ok (results, ops ++ commitListBatch (composeListMetaKey kc key)
        (m'.setSize (m'.base.size - k))) := by
  have hpos := List.length_pos_of_ne_nil hne
  rw [listPopInternal, if_neg hcount, hr]
  split_ifs with hone
  · have hmin : min count m.base.size = 1 := by
      rw [hone, min_eq_left]
      rw [UInt64.le_iff_toNat_le, hl.size]
      exact hpos
    rw [listPopOneInternal, hr]
    simp only [bind, Except.bind, if_pos (hl.size_pos hne), hmin]
    have hnat : (1 : UInt64).toNat = 0 + 1 := rfl
    simp only [hnat, listPopLoop]
    cases hget : getListItem s kc key (m.popIndex left).2 with
    | none =>
      exfalso
      cases left with
      | true =>
        have hhead : (m.popIndex true).2 = word m.head 0 := (UInt64.word_zero m.head).symm
        rw [hhead, getListItem_word hl.stored (by omega), List.getElem?_eq_none_iff] at hget
        omega
      | false =>
        have htail : (m.popIndex false).2 = word m.head (xs.length - 1) := hl.tail_sub_one hne
        rw [htail, getListItem_word hl.stored (by omega), List.getElem?_eq_none_iff] at hget
        omega
    | some v => rfl
  · simp only [bind, Except.bind, if_pos (hl.size_pos hne)]
    rfl

theorem Seq.pop_take (left : Bool) (c : ℕ) (xs : List Bytes) :
    Seq.pop left c xs = if left then ((xs.drop 0).take (min c xs.length),
        (xs.drop (min c xs.length)).take (xs.length - min c xs.length))
      else (((xs.drop (xs.length - min c xs.length)).take (min c xs.length)).reverse,
        (xs.drop 0).take (xs.length - min c xs.length)) := by
  have hsub : xs.length - min c xs.length = xs.length - c := by omega
  rw [Seq.pop, List.drop_zero, hsub, List.take_of_length_le (l := xs.drop (min c xs.length))
    (by rw [List.length_drop, hsub]), List.take_of_length_le (l := xs.drop (xs.length - c))
    (by rw [List.length_drop]; omega)]
  rcases le_total c xs.length with hle | hle
  · rw [min_eq_left hle]
  · rw [min_eq_right hle, List.take_of_length_le hle, List.take_length, List.drop_of_length_le hle,
      List.drop_length]

theorem listPopInternal_spec (h : ListHeld s kc key xs) (count : UInt64) (left : Bool) :
    ∃ ops, listPopInternal s kc key now count left = .ok ((Seq.pop left count.toNat xs).1, ops) ∧
      ListLeaves s kc key ops (Seq.pop left count.toNat xs).2 ∧
      ((Seq.pop left count.toNat xs).1 = [] → ops = []) := by
  obtain ⟨r, hr, hf⟩ := h.found now
  by_cases hcount : count = 0
  · subst hcount
    have hpop : Seq.pop left (0 : UInt64).toNat xs = ([], xs) := by cases left <;> simp [Seq.pop]
    rw [hpop]
    exact ⟨[], rfl, h.leaves_nil, fun _ => rfl⟩
  cases hf with
  | absent _ =>
    have hpop : Seq.pop left count.toNat [] = ([], []) := by cases left <;> simp [Seq.pop]
    rw [hpop]
    refine ⟨[], ?_, h.leaves_nil, fun _ => rfl⟩
    rw [listPopInternal, listPopOneInternal, if_neg hcount, hr]
    split_ifs <;> rfl
  | @present m _ hne hlen hl =>
    have hpos := List.length_pos_of_ne_nil hne
    have hk : (min count m.base.size).toNat = min count.toNat xs.length := by
      rw [← hl.size]
      rcases le_total count m.base.size with hle | hle
      · rw [min_eq_left hle, min_eq_left (UInt64.le_iff_toNat_le.mp hle)]
      · rw [min_eq_right hle, min_eq_right (UInt64.le_iff_toNat_le.mp hle)]
    have hcnt : count.toNat ≠ 0 := fun h0 => hcount (UInt64.toNat_inj.mp h0)
    have hrest : m.base.size - min count m.base.size =
        UInt64.ofNat (xs.length - min count.toNat xs.length) := by
      rw [← UInt64.toNat_inj, UInt64.toNat_sub_of_le _ _ (min_le_right _ _), hk, hl.size,
        UInt64.toNat_ofNat_of_lt' (show _ < 2 ^ 64 by omega)]
    rw [listPopInternal_eq hcount hr hne hlen hl, Seq.pop_take]
    simp only [hk]
    generalize hn : min count.toNat xs.length = n at hrest
    have hnone : n ≠ 0 := by omega
    cases left with
    | true =>
      have hloop := listPopLoop_left (n := n) hl.stored hlen (UInt64.word_zero m.head).symm
        (by omega)
      rw [Nat.zero_add] at hloop
      rw [hloop, if_pos rfl]
      refine ⟨_, rfl, .commit (hl.part hlen (by omega) removes_rmWeakOffsets (fun i => ?_) ?_ rfl
        ?_), fun hnil => ?_⟩
      · rw [List.mem_range'_1]
        omega
      · exact congrArg (fun size => { m.base with size }) hrest
      · rw [Nat.add_sub_cancel' (by omega)]
        exact hl.tail
      · have hlength := congrArg List.length hnil
        rw [List.length_take, List.length_drop, List.length_nil] at hlength
        omega
    | false =>
      have hloop := listPopLoop_right (i := xs.length - n) (n := n) hl.stored hlen
        (by rw [hl.tail, Nat.sub_add_cancel (by omega)]) (by omega)
      rw [hloop, if_neg Bool.false_ne_true]
      refine ⟨_, rfl, .commit (hl.part hlen (by omega) removes_rmWeakOffsets (fun i => ?_) ?_
        (UInt64.word_zero _).symm ?_), fun hnil => ?_⟩
      · rw [List.mem_reverse, List.mem_range'_1]
        omega
      · exact congrArg (fun size => { m.base with size }) hrest
      · rw [Nat.zero_add]
        rfl
      · have hlength := congrArg List.length hnil
        rw [List.length_reverse, List.length_take, List.length_drop, List.length_nil] at hlength
        omega

end

/-! ## Pushing -/

section
variable {s : Store} {kc : KeyComposer} {key : Key} {xs values : List Bytes} {m : ListMeta}
  {now version : UInt64} {w : ListMeta × Batch} {ops : Batch} {left create : Bool}

theorem ListLeaves.commit_insert (h : PushReached s kc key w xs) (hne : xs ≠ []) :
    ListLeaves s kc key (w.2 ++ [.insertMeta (composeListMetaKey kc key) w.1.encode]) xs := by
  have hcommit := ListLeaves.commit h
  rwa [commitListBatch, if_neg (h.layout.size_ne_zero hne)] at hcommit

theorem prepareListMetaForWrite_spec (h : ListHeld s kc key xs) (now version : UInt64) :
    ∃ m, prepareListMetaForWrite s kc key now version = .ok (m, decide (xs ≠ []), []) ∧
      PushReached s kc key (m, []) xs := by
  obtain ⟨r, hr, hf⟩ := h.found now
  rw [prepareListMetaForWrite, hr]
  cases hf with
  | absent hempty =>
    have hclear : clearPrefixInBatch s .data (composeListPrefix kc key) = [] := by
      have hunder : SortedMap.under (composeListPrefix kc key) (s.part .data) = ∅ := hempty
      rw [clearPrefixInBatch, Store.rmPrefixed, SortedMap.prefixed_eq_map_under, hunder]
      rfl
    refine ⟨.newWithVersion 0 version, ?_, fun _ ho => (List.not_mem_nil ho).elim, rfl, rfl, rfl,
      rfl, (UInt64.word_zero _).symm, ?_⟩
    · exact congrArg (fun ops => Except.ok (_, false, ops)) hclear
    · exact hempty.symm ▸ .empty _
  | present hne hlen hl =>
    rw [decide_eq_true hne]
    exact ⟨_, rfl, fun _ ho => (List.not_mem_nil ho).elim, hl⟩

theorem listPushInternal_spec (h : ListHeld s kc key xs) (hroom : values.length < 2 ^ 63)
    (hne : values ≠ []) (hcreate : ¬(create = false ∧ xs = [])) :
    ∃ n ops, listPushInternal s kc key now version values create left = .ok (n, ops) ∧
      n.toNat = (Seq.push left values xs).length ∧
      ListLeaves s kc key ops (Seq.push left values xs) := by
  obtain ⟨m, hprepare, hstart⟩ := prepareListMetaForWrite_spec h now version
  have hlen := h.length_lt
  have hreached := @PushReached.steps _ _ _ _ values _ hstart (by omega) left
  have hlength := Seq.length_push left values xs
  have hys : Seq.push left values xs ≠ [] := by
    intro hnil
    rw [hnil, List.length_nil] at hlength
    exact hne (List.length_eq_zero_iff.mp (by omega))
  have hgo : (!create && (!decide (xs ≠ []) || m.base.size == 0)) = false := by
    cases create with
    | true => rfl
    | false =>
      have hxs : xs ≠ [] := fun hnil => hcreate ⟨rfl, hnil⟩
      simpa [hxs] using hstart.layout.size_ne_zero hxs
  rw [listPushInternal_eq hne, hprepare]
  simp only [Except.map, hgo, Bool.false_eq_true, if_false]
  exact ⟨_, _, rfl, hreached.layout.size, .commit_insert hreached hys⟩

theorem listPushInternal_refused (h : ListHeld s kc key xs)
    (hno : values = [] ∨ create = false ∧ xs = []) :
    listPushInternal s kc key now version values create left = .ok (0, []) := by
  by_cases hne : values = []
  · rw [hne]
    rfl
  obtain ⟨rfl, rfl⟩ := hno.resolve_left hne
  obtain ⟨m, hprepare, -⟩ := prepareListMetaForWrite_spec h now version
  rw [listPushInternal_eq hne, hprepare]
  rfl

end

/-! ## Changing elements in place -/

section
variable {s : Store} {kc : KeyComposer} {key : Key} {xs ys : List Bytes} {m m' : ListMeta}
  {now : UInt64} {ops : Batch} {i j n : ℕ} {head : UInt64} {offsets : List ℕ}

theorem lset_spec (h : ListHeld s kc key xs) (index : Int64) (value : Bytes) :
    match Seq.resolve xs.length index.toInt with
    | some i => ∃ ops, lset s kc key now index value = .ok ((), ops) ∧
        ListLeaves s kc key ops (xs.set i value)
    | none => lset s kc key now index value = .error (.invalidData errIndexOutOfRange) := by
  obtain ⟨honly, hrep, hlen⟩ := h
  unfold lset
  cases hrep with
  | absent hget _ =>
    have hnone : Seq.resolve ([] : List Bytes).length index.toInt = none := by
      simp [Seq.resolve]
    rw [getListMeta_absent honly hget, hnone]
    rfl
  | @present m _ hget hne hl =>
    rw [getListMeta_present honly hget hne hl]
    simp only [bind, Except.bind, if_pos (hl.size_pos hne), resolveListOffset_eq hl hne hlen]
    cases hres : Seq.resolve xs.length index.toInt with
    | none => rfl
    | some i =>
      have hi := Seq.resolve_lt hres
      have hw : ItemWrites s kc key m.head (xs.set i value)
          [.insertData (composeListItem kc key (word m.head i)) value] := by
        refine ⟨fun o ho => ?_, fun j hj => ?_⟩
        · cases List.mem_singleton.mp ho
          exact ⟨i, by omega, ⟨rfl, rfl⟩, (List.getElem?_set_self hi).symm⟩
        · by_cases hij : i = j
          · exact Or.inr ⟨_, List.mem_singleton_self _, rfl, by rw [hij]; rfl⟩
          · left
            rw [getListItem_word hl.stored hj, List.getElem?_set_ne hij]
      have hlength : (xs.set i value).length = xs.length := List.length_set
      refine ⟨_, rfl, hw.owned, .present (m := m) hget ?_ ?_⟩
      · exact fun hnil => hne (List.length_eq_zero_iff.mp (by rw [← hlength, hnil]; rfl))
      · exact ⟨hl.rtype, hl.flags, hl.expireAt, hlength ▸ hl.size, hlength ▸ hl.tail,
          hw.stored hl.stored.indexed⟩

theorem lt_of_mem_enumerate {x : ℕ × Bytes} (h : x ∈ enumerate xs) : x.1 < xs.length := by
  obtain ⟨i, hi⟩ := List.mem_iff_getElem?.mp h
  rw [getElem?_enumerate, Option.map_eq_some_iff] at hi
  obtain ⟨v, hv, rfl⟩ := hi
  exact (List.getElem?_eq_some_iff.mp hv).1

theorem Seq.getElem?_insertAt (elem : Bytes) (hi : i ≤ xs.length) (j : ℕ) :
    (insertAt i elem xs)[j]? =
      if j < i then xs[j]? else if j = i then some elem else xs[j - 1]? := by
  have hlength : (xs.take i).length = i := List.length_take_of_le hi
  rw [insertAt]
  split_ifs with hlt heq
  · rw [List.getElem?_append_left (by omega), List.getElem?_take, if_pos hlt]
  · rw [List.getElem?_append_right (by omega), hlength, heq, Nat.sub_self]
    rfl
  · have hsub : j - i = j - 1 - i + 1 := by omega
    rw [List.getElem?_append_right (by omega), hlength, hsub, List.getElem?_cons_succ,
      List.getElem?_drop]
    congr 1
    omega

theorem Seq.length_insertAt (elem : Bytes) (hi : i ≤ xs.length) :
    (insertAt i elem xs).length = xs.length + 1 := by
  simp [insertAt]
  omega

section
variable {newHead : UInt64} {shift : ℕ}

theorem mem_moveOffsets (h : StoredWindow head xs (s.family kc key .listData))
    (hoffsets : ∀ i ∈ offsets, i < xs.length) (hlen : xs.length < 2 ^ 63) {o : WriteOp} :
    o ∈ moveOffsets s kc key head newHead shift offsets ↔ ∃ i ∈ offsets, ∃ v, xs[i]? = some v ∧
      o = .insertData (composeListItem kc key (word newHead (i + shift))) v := by
  simp only [moveOffsets, readOffsets, List.mem_map, List.mem_filterMap, Option.map_eq_some_iff]
  constructor
  · rintro ⟨_, ⟨i, hi, v, hv, rfl⟩, rfl⟩
    rw [show head + UInt64.ofNat i = word head i from rfl,
      getListItem_word h (by have := hoffsets i hi; omega)] at hv
    exact ⟨i, hi, v, hv, rfl⟩
  · rintro ⟨i, hi, v, hv, rfl⟩
    rw [← getListItem_word h (by have := hoffsets i hi; omega)] at hv
    exact ⟨_, ⟨i, hi, v, hv, rfl⟩, rfl⟩

end

theorem itemWrites_insert {newHead : UInt64} {shift : ℕ} {elem : Bytes}
    (h : StoredWindow head xs (s.family kc key .listData)) (hlen : xs.length < 2 ^ 63)
    (hi : i ≤ xs.length) (hoffsets : ∀ j, j ∈ offsets ↔ j < xs.length ∧ (j < i ↔ shift = 0))
    (hnew : newHead = head ∧ shift = 1 ∨ newHead = head - 1 ∧ shift = 0) :
    ItemWrites s kc key newHead (Seq.insertAt i elem xs)
      (moveOffsets s kc key head newHead shift offsets ++
        [.insertData (composeListItem kc key (word newHead i)) elem]) where
  items := by
    intro o ho
    rcases List.mem_append.mp ho with ho | ho
    · obtain ⟨j, hj, v, hv, rfl⟩ :=
        (mem_moveOffsets h (fun j hj => ((hoffsets j).mp hj).1) hlen).mp ho
      obtain ⟨hjlen, hjs⟩ := (hoffsets j).mp hj
      refine ⟨j + shift, by omega, ⟨rfl, rfl⟩, ?_⟩
      rw [Seq.getElem?_insertAt elem hi]
      rcases hnew with ⟨-, rfl⟩ | ⟨-, rfl⟩
      · rw [if_neg (by omega), if_neg (by omega), Nat.add_sub_cancel]
        exact hv.symm
      · rw [if_pos (by omega)]
        exact hv.symm
    · cases List.mem_singleton.mp ho
      refine ⟨i, by omega, ⟨rfl, rfl⟩, ?_⟩
      rw [Seq.getElem?_insertAt elem hi, if_neg (lt_irrefl i), if_pos rfl]
      rfl
  rest := by
    have hmoved : ∀ j, j ∈ offsets → ∃ o ∈ moveOffsets s kc key head newHead shift offsets ++
        [.insertData (composeListItem kc key (word newHead i)) elem],
          o.ItemAt kc key (word newHead (j + shift)) := by
      intro j hj
      have hv := List.getElem?_eq_getElem ((hoffsets j).mp hj).1
      exact ⟨_, List.mem_append_left _ ((mem_moveOffsets h (fun j hj => ((hoffsets j).mp hj).1)
        hlen).mpr ⟨j, hj, _, hv, rfl⟩), rfl, rfl⟩
    intro k hk
    rw [Seq.getElem?_insertAt elem hi]
    by_cases hki : k = i
    · subst hki
      exact Or.inr ⟨_, List.mem_append_right _ (List.mem_singleton_self _), rfl, rfl⟩
    rw [if_neg hki]
    rcases hnew with ⟨rfl, rfl⟩ | ⟨rfl, rfl⟩
    · rw [getListItem_word h hk]
      by_cases hlt : k < i
      · exact Or.inl (if_pos hlt).symm
      · rw [if_neg hlt]
        by_cases hin : k - 1 < xs.length
        · right
          have hback : k - 1 + 1 = k := by omega
          rw [← hback]
          exact hmoved (k - 1) ((hoffsets _).mpr ⟨hin, by omega⟩)
        · left
          rw [List.getElem?_eq_none (by omega), List.getElem?_eq_none (by omega)]
    · by_cases hlt : k < i
      · exact Or.inr (hmoved k ((hoffsets _).mpr ⟨by omega, by omega⟩))
      · left
        have hback : k = k - 1 + 1 := by omega
        rw [if_neg hlt]
        conv_lhs => rw [hback, UInt64.word_sub_one]
        exact getListItem_word h (by omega)

theorem linsert_spec (h : ListHeld s kc key xs) (before : Bool) (pivot elem : Bytes) :
    (xs = [] → linsert s kc key now before pivot elem = .ok (0, [])) ∧
    (xs ≠ [] → match Seq.insertPosition before pivot xs with
      | none => linsert s kc key now before pivot elem = .ok (-1, [])
      | some i => ∃ n ops, linsert s kc key now before pivot elem = .ok (n, ops) ∧
          ((Seq.insertAt i elem xs).length < 2 ^ 63 → n = (Seq.insertAt i elem xs).length) ∧
          ListLeaves s kc key ops (Seq.insertAt i elem xs)) := by
  obtain ⟨r, hr, hf⟩ := h.found now
  unfold linsert
  rw [hr]
  cases hf with
  | absent _ => exact ⟨fun _ => rfl, fun hne => absurd rfl hne⟩
  | @present m _ hne hlen hl =>
    refine ⟨fun hnil => absurd hnil hne, fun _ => ?_⟩
    have hpos := List.length_pos_of_ne_nil hne
    simp only [bind, Except.bind, if_neg (hl.size_ne_zero hne), hl.size,
      hl.tail_sub_one hne, scanForward_eq hl.stored (by omega) hne, Seq.insertPosition]
    cases hfind : (enumerate xs).find? fun x => x.2 = pivot with
    | none => rfl
    | some x =>
      obtain ⟨p, v⟩ := x
      have hp : p < xs.length := lt_of_mem_enumerate (List.mem_of_find?_eq_some hfind)
      simp only [Option.map_some]
      set i := if before = true then p else p + 1 with hi
      have hile : i ≤ xs.length := by
        rw [hi]
        split_ifs <;> omega
      have hlength := Seq.length_insertAt elem hile
      have hsize : (m.base.size + 1).toNat = (Seq.insertAt i elem xs).length := by
        rw [UInt64.toNat_add, hl.size, hlength]
        exact Nat.mod_eq_of_lt (show xs.length + 1 < 2 ^ 64 by omega)
      have hreply : (Seq.insertAt i elem xs).length < 2 ^ 63 →
          (m.base.size + 1).asI64 = (Seq.insertAt i elem xs).length := by
        intro hroom
        rw [UInt64.asI64_of_lt (hsize.trans_lt hroom), hsize]
      have hys : Seq.insertAt i elem xs ≠ [] := by
        intro hnil
        rw [hnil] at hlength
        cases hlength
      by_cases hhalf : i < xs.length / 2
      · have hw : ItemWrites s kc key (m.head - 1) (Seq.insertAt i elem xs)
            (moveOffsets s kc key m.head (m.head - 1) 0 (List.range i) ++
              [.insertData (composeListItem kc key (word (m.head - 1) i)) elem]) :=
          itemWrites_insert hl.stored hlen hile (fun j => by rw [List.mem_range]; omega)
            (Or.inr ⟨rfl, rfl⟩)
        simp only [if_pos hhalf]
        refine ⟨_, _, rfl, hreply, .commit_insert
          (w := (ListMeta.setSize { m with head := m.head - 1 } (m.base.size + 1), _))
          ⟨hw.owned, ?_⟩ hys⟩
        refine ⟨hl.rtype, hl.flags, hl.expireAt, hsize, ?_, hw.stored hl.stored.indexed⟩
        rw [hlength]
        exact hl.tail.trans (UInt64.word_sub_one _ _).symm
      · have hw : ItemWrites s kc key m.head (Seq.insertAt i elem xs)
            (moveOffsets s kc key m.head m.head 1 (List.range' i (xs.length - i)).reverse ++
              [.insertData (composeListItem kc key (word m.head i)) elem]) :=
          itemWrites_insert hl.stored hlen hile
            (fun j => by rw [List.mem_reverse, List.mem_range'_1]; omega) (Or.inl ⟨rfl, rfl⟩)
        simp only [if_neg hhalf]
        refine ⟨_, _, rfl, hreply, .commit_insert
          (w := (ListMeta.setSize { m with tail := m.tail + 1 } (m.base.size + 1), _))
          ⟨hw.owned, ?_⟩ hys⟩
        refine ⟨hl.rtype, hl.flags, hl.expireAt, hsize, ?_, hw.stored hl.stored.indexed⟩
        have htail' : m.tail + 1 = word m.head (xs.length + 1) := by
          rw [hl.tail, UInt64.word_succ]
        rwa [hlength]

end

/-! ## Removing by value -/

section
variable {s : Store} {kc : KeyComposer} {key : Key} {xs : List Bytes} {elem : Bytes} {now : UInt64}
  {limit n r w : ℕ} {acc dels : List ℕ} {visited : List (ℕ × Bytes)} {head : UInt64}

theorem collectMatches_eq (hacc : acc.length < limit) : collectMatches elem limit acc visited =
    acc ++ (Seq.matchOffsets elem visited).take (limit - acc.length) := by
  induction visited generalizing acc with
  | nil => simp [collectMatches, Seq.matchOffsets]
  | cons x visited ih =>
    obtain ⟨offset, v⟩ := x
    rw [collectMatches]
    by_cases hv : v = elem
    · have hmatch : Seq.matchOffsets elem ((offset, v) :: visited) =
          offset :: Seq.matchOffsets elem visited := by
        simp [Seq.matchOffsets, hv]
      have hroom : limit - acc.length = limit - (acc ++ [offset]).length + 1 := by
        rw [List.length_append, List.length_singleton]
        omega
      rw [if_pos hv, hmatch, hroom, List.take_succ_cons]
      by_cases hstop : (acc ++ [offset]).length ≥ limit
      · rw [if_pos hstop, Nat.sub_eq_zero_of_le hstop, List.take_zero]
      · rw [if_neg hstop, ih (by omega), List.append_assoc, List.singleton_append]
    · have hmatch : Seq.matchOffsets elem ((offset, v) :: visited) =
          Seq.matchOffsets elem visited := by
        simp [Seq.matchOffsets, hv]
      rw [if_neg hv, hmatch, ih hacc]

theorem compactLoop_spec (h : StoredWindow head xs (s.family kc key .listData))
    (hlen : xs.length < 2 ^ 63) (hrn : r + n ≤ xs.length) (hwr : w < r)
    (hsorted : dels.Pairwise (· < ·)) (hdels : ∀ d ∈ dels, r ≤ d) :
    let kept := (List.range' r n).filter fun i => i ∉ dels
    ∃ ops, compactLoop s kc key head (List.range' r n) w dels = (ops, w + kept.length) ∧
      (∀ o ∈ ops, ∃ t p, kept[t]? = some p ∧ o.ItemAt kc key (word head (w + t)) ∧
        o.value = xs[p]?) ∧
      ∀ t < kept.length, ∃ o ∈ ops, o.ItemAt kc key (word head (w + t)) := by
  induction n generalizing r w dels with
  | zero => exact ⟨[], rfl, by simp, by simp⟩
  | succ n ih =>
    have hlater : ∀ i ∈ List.range' (r + 1) n, i ≠ r := by
      intro i hi
      have := (List.mem_range'_1.mp hi).1
      omega
    rw [List.range'_succ, compactLoop]
    by_cases hdel : dels.head? = some r
    · obtain ⟨ds, rfl⟩ := List.head?_eq_some_iff.mp hdel
      have hparts := List.pairwise_cons.mp hsorted
      rw [if_pos hdel, List.filter_cons_of_neg (by simp), List.tail_cons]
      have hsame : (List.range' (r + 1) n).filter (fun i => i ∉ r :: ds) =
          (List.range' (r + 1) n).filter fun i => i ∉ ds :=
        List.filter_congr fun i hi => by simp [hlater i hi]
      rw [hsame]
      exact ih (by omega) (by omega) hparts.2 hparts.1
    · have hnot : r ∉ dels := by
        intro hmem
        cases dels with
        | nil => cases hmem
        | cons d ds =>
          have hd := hdels d List.mem_cons_self
          rcases List.mem_cons.mp hmem with rfl | hmem
          · exact hdel rfl
          · exact absurd ((List.pairwise_cons.mp hsorted).1 r hmem) (by omega)
      have hstrict : ∀ d ∈ dels, r + 1 ≤ d := by
        intro d hd
        have hle := hdels d hd
        have hne : d ≠ r := fun heq => hnot (heq ▸ hd)
        omega
      obtain ⟨ops, hloop, hops, hhits⟩ := ih (r := r + 1) (w := w + 1) (by omega) (by omega) hsorted
        hstrict
      have hget : getListItem s kc key (head + UInt64.ofNat r) = some xs[r] :=
        (getListItem_word h (by omega)).trans (List.getElem?_eq_getElem _)
      rw [if_neg hdel, hloop, List.filter_cons_of_pos (by simpa using hnot)]
      simp only [if_pos (show w ≠ r by omega), hget]
      refine ⟨_, by rw [List.length_cons, Nat.add_right_comm, Nat.add_assoc w], fun o ho => ?_,
        fun t ht => ?_⟩
      · rcases List.mem_append.mp ho with ho | ho
        · cases List.mem_singleton.mp ho
          exact ⟨0, r, rfl, ⟨rfl, rfl⟩, (List.getElem?_eq_getElem _).symm⟩
        · obtain ⟨t, p, ht, hitem, hv⟩ := hops o ho
          rw [Nat.add_right_comm, Nat.add_assoc] at hitem
          exact ⟨t + 1, p, ht, hitem, hv⟩
      · cases t with
        | zero => exact ⟨_, List.mem_append_left _ (List.mem_singleton_self _), rfl, rfl⟩
        | succ t =>
          obtain ⟨o, ho, hitem⟩ := hhits t (by simpa using ht)
          rw [Nat.add_right_comm, Nat.add_assoc] at hitem
          exact ⟨o, List.mem_append_right _ ho, hitem⟩

theorem enumerate_eq_map (xs : List Bytes) :
    enumerate xs = (List.range xs.length).map fun i => (i, xs.getD i []) := by
  refine List.ext_getElem? fun i => ?_
  rw [getElem?_enumerate, List.getElem?_map]
  by_cases hi : i < xs.length
  · simp [hi]
  · rw [List.getElem?_eq_none (not_lt.mp hi), List.getElem?_eq_none (by simpa using hi)]
    rfl

theorem Seq.matchOffsets_sublist (elem : Bytes) (xs : List Bytes) :
    (matchOffsets elem (enumerate xs)).Sublist (List.range xs.length) := by
  have hfst : (enumerate xs).map Prod.fst = List.range xs.length := by
    rw [enumerate_eq_map, List.map_map]
    exact List.map_id _
  rw [← hfst]
  exact List.filter_sublist.map Prod.fst

theorem Seq.removed_sublist (count : ℤ) (elem : Bytes) (xs : List Bytes) :
    (removed count elem xs).Sublist (List.range xs.length) := by
  refine List.Sublist.trans ?_ (matchOffsets_sublist elem xs)
  unfold removed
  split_ifs
  · exact List.Sublist.refl _
  · exact List.take_sublist _ _
  · exact List.drop_sublist _ _

theorem collected_eq (count : Int64) (elem : Bytes) (hlen : xs.length < 2 ^ 63) :
    (if count ≥ 0 then collectMatches elem (if count = 0 then usizeMax else count.toInt.natAbs) []
        (enumerate xs)
      else (collectMatches elem (if count = 0 then usizeMax else count.toInt.natAbs) []
        (enumerate xs).reverse).reverse) = Seq.removed count.toInt elem xs := by
  have hzero : count = 0 ↔ count.toInt = 0 := Int64.toInt_inj.symm
  have hsign : count ≥ 0 ↔ 0 ≤ count.toInt := Int64.le_iff_toInt_le
  have hshort := (Seq.matchOffsets_sublist elem xs).length_le
  rw [List.length_range] at hshort
  have hlimit : 0 < if count.toInt = 0 then usizeMax else count.toInt.natAbs := by
    split_ifs with h0
    · decide
    · exact Int.natAbs_pos.mpr h0
  have hback : Seq.matchOffsets elem (enumerate xs).reverse =
      (Seq.matchOffsets elem (enumerate xs)).reverse := by
    rw [Seq.matchOffsets, List.filter_reverse, List.map_reverse]
    rfl
  simp only [hzero, hsign]
  rw [collectMatches_eq hlimit, collectMatches_eq hlimit, Seq.removed, hback, List.length_nil,
    Nat.sub_zero, List.nil_append, List.nil_append, List.take_reverse, List.reverse_reverse]
  by_cases h0 : count.toInt = 0
  · rw [if_pos h0, if_pos h0, if_pos h0.ge, List.take_of_length_le]
    unfold usizeMax
    omega
  rw [if_neg h0, if_neg h0]
  by_cases hpos : 0 ≤ count.toInt
  · rw [if_pos hpos, if_pos (by omega)]
  · rw [if_neg hpos, if_neg (by omega)]

theorem Seq.without_cons {d : ℕ} (hsub : (d :: dels).Sublist (List.range xs.length)) :
    without (d :: dels) xs = (List.range d ++ (List.range' (d + 1)
      (xs.length - (d + 1))).filter fun i => i ∉ dels).map fun i => xs.getD i [] := by
  have hsorted := List.pairwise_lt_range.sublist hsub
  have hd : d < xs.length := List.mem_range.mp (hsub.subset List.mem_cons_self)
  have hrange : List.range xs.length =
      List.range d ++ d :: List.range' (d + 1) (xs.length - (d + 1)) := by
    have hn : xs.length = d + (xs.length - (d + 1) + 1) := by omega
    conv_lhs => rw [hn, List.range_eq_range', ← List.range'_append_1, Nat.zero_add,
      List.range'_succ, ← List.range_eq_range']
  have hbefore : ∀ i ∈ List.range d, i ∉ d :: dels := by
    intro i hi hmem
    rw [List.mem_range] at hi
    rcases List.mem_cons.mp hmem with rfl | hmem
    · omega
    · have := (List.pairwise_cons.mp hsorted).1 i hmem
      omega
  rw [without, enumerate_eq_map, List.filter_map, List.map_map, hrange, List.filter_append,
    List.filter_eq_self.mpr (fun i hi => by simpa using hbefore i hi),
    List.filter_cons_of_neg (by simp)]
  refine congrArg (fun l => (List.range d ++ l).map _) (List.filter_congr fun i hi => ?_)
  have hne : i ≠ d := by
    have := (List.mem_range'_1.mp hi).1
    omega
  simp [hne]

theorem Seq.length_without (hsub : dels.Sublist (List.range xs.length)) :
    (without dels xs).length = xs.length - dels.length := by
  have hnodup := List.nodup_range.sublist hsub
  have hperm : ((List.range xs.length).filter fun i => i ∈ dels).Perm dels := by
    refine (List.perm_ext_iff_of_nodup (List.nodup_range.filter _) hnodup).mpr fun i => ?_
    rw [List.mem_filter, decide_eq_true_eq]
    exact and_iff_right_of_imp fun hi => hsub.subset hi
  have hsplit := List.length_eq_length_filter_add (l := List.range xs.length)
    fun i => decide (i ∈ dels)
  rw [hperm.length_eq, List.length_range] at hsplit
  rw [without, enumerate_eq_map, List.filter_map, List.map_map, List.length_map]
  have hsame : ((List.range xs.length).filter ((fun x => decide (x.1 ∉ dels)) ∘ fun i =>
      (i, xs.getD i []))) = (List.range xs.length).filter fun i => !decide (i ∈ dels) :=
    List.filter_congr fun i _ => by simp
  rw [hsame]
  omega

theorem itemWrites_compact {d : ℕ} (h : StoredWindow head xs (s.family kc key .listData))
    (hlen : xs.length < 2 ^ 63) (hsub : (d :: dels).Sublist (List.range xs.length)) :
    ∃ ops w, compactLoop s kc key head (List.range' (d + 1) (xs.length - (d + 1))) d dels =
        (ops, w) ∧ ItemWrites s kc key head (Seq.without (d :: dels) xs)
        (ops ++ rmOffsets kc key head (List.range' w (xs.length - w))) := by
  have hsorted := List.pairwise_cons.mp (List.pairwise_lt_range.sublist hsub)
  have hd : d < xs.length := List.mem_range.mp (hsub.subset List.mem_cons_self)
  obtain ⟨ops, hloop, hops, hhits⟩ := compactLoop_spec (r := d + 1)
    (n := xs.length - (d + 1)) h hlen (by omega) (Nat.lt_succ_self d) hsorted.2 hsorted.1
  have hwithout := Seq.without_cons hsub
  have hlength := congrArg List.length hwithout
  rw [Seq.length_without hsub, List.length_map, List.length_append, List.length_range] at hlength
  generalize hkept : (List.range' (d + 1) (xs.length - (d + 1))).filter (fun i => i ∉ dels) = kept
    at *
  have hin : ∀ p ∈ kept, p < xs.length := by
    intro p hp
    rw [← hkept] at hp
    have := List.mem_range'_1.mp (List.mem_of_mem_filter hp)
    omega
  refine ⟨ops, _, hloop, fun o ho => ?_, fun k hk => ?_⟩
  · rcases List.mem_append.mp ho with ho | ho
    · obtain ⟨t, p, ht, hitem, hv⟩ := hops o ho
      have hlt := (List.getElem?_eq_some_iff.mp ht).1
      have hp := hin p (List.mem_of_getElem? ht)
      refine ⟨d + t, by omega, hitem, ?_⟩
      rw [hv, hwithout, List.getElem?_map, List.getElem?_append_right (by simp), List.length_range,
        Nat.add_sub_cancel_left, ht]
      simp [hp]
    · obtain ⟨i, hi, rfl⟩ := List.mem_map.mp ho
      rw [List.mem_range'_1] at hi
      refine ⟨i, by omega, ⟨rfl, rfl⟩, ?_⟩
      rw [hwithout, List.getElem?_eq_none]
      · rfl
      · rw [List.length_map, List.length_append, List.length_range]
        exact hi.1
  · by_cases hkd : k < d
    · left
      have hkn : k < xs.length := by omega
      rw [getListItem_word h hk, hwithout, List.getElem?_map,
        List.getElem?_append_left (by simpa using hkd), List.getElem?_range hkd]
      simp [hkn]
    · by_cases hkw : k < d + kept.length
      · obtain ⟨o, ho, hitem⟩ := hhits (k - d) (by omega)
        rw [Nat.add_sub_cancel' (not_lt.mp hkd)] at hitem
        exact Or.inr ⟨o, List.mem_append_left _ ho, hitem⟩
      · by_cases hkn : k < xs.length
        · right
          have hmem : k ∈ List.range' (d + kept.length) (xs.length - (d + kept.length)) := by
            rw [List.mem_range'_1]
            omega
          exact ⟨_, List.mem_append_right _ (List.mem_map_of_mem hmem), rfl, rfl⟩
        · left
          rw [getListItem_word h hk, hwithout, List.getElem?_eq_none (not_lt.mp hkn),
            List.getElem?_eq_none]
          rw [List.length_map, List.length_append, List.length_range]
          omega

theorem lrem_spec (h : ListHeld s kc key xs) (count : Int64) (elem : Bytes) :
    ∃ n ops, lrem s kc key now count elem = .ok (n, ops) ∧
      (n.toNat : ℤ) = xs.length - (Seq.remove count.toInt elem xs).length ∧
      ListLeaves s kc key ops (Seq.remove count.toInt elem xs) := by
  obtain ⟨r, hr, hf⟩ := h.found now
  have hlen := h.length_lt
  have hsub := Seq.removed_sublist count.toInt elem xs
  have hle := hsub.length_le
  rw [List.length_range] at hle
  rw [Seq.remove, Seq.length_without hsub, lrem, hr]
  cases hf with
  | absent _ =>
    rw [List.length_nil, Nat.le_zero] at hle
    refine ⟨0, [], rfl, by simp, ?_⟩
    exact h.leaves_nil
  | @present m _ hne hlen hl =>
    have hpos := List.length_pos_of_ne_nil hne
    simp only [bind, Except.bind, if_neg (hl.size_ne_zero hne), hl.size,
      hl.tail_sub_one hne, scanForward_eq hl.stored (by omega) hne,
      scanBackward_eq hl.stored (by omega) hne, collected_eq count elem hlen]
    generalize Seq.removed count.toInt elem xs = dels at hsub hle
    cases dels with
    | nil =>
      have hall : Seq.without [] xs = xs := by
        rw [Seq.without, List.filter_eq_self.mpr (by simp), map_snd_enumerate]
      rw [hall]
      exact ⟨0, [], rfl, by simp, h.leaves_nil⟩
    | cons d dels =>
      have hcount : (UInt64.ofNat (dels.length + 1)).toNat = dels.length + 1 :=
        UInt64.toNat_ofNat_of_lt'
          (by rw [List.length_cons] at hle; exact (show _ < 2 ^ 64 by omega))
      have hlength := Seq.length_without hsub
      rw [List.length_cons] at hle hlength
      have hreply : ((UInt64.ofNat (dels.length + 1)).toNat : ℤ) =
          xs.length - ((xs.length - (d :: dels).length : ℕ) : ℤ) := by
        rw [hcount, List.length_cons]
        omega
      simp only
      split_ifs with heq
      · have hnil : Seq.without (d :: dels) xs = [] := by
          rw [← List.length_eq_zero_iff, hlength, ← hl.size, ← heq, hcount, Nat.sub_self]
        rw [hnil]
        exact ⟨_, _, rfl, hreply, leaves_cleared⟩
      · obtain ⟨ops, w, hloop, hw⟩ := itemWrites_compact hl.stored hlen hsub
        have hne' : dels.length + 1 ≠ xs.length := by
          intro hall
          exact heq (UInt64.toNat_inj.mp (by rw [hcount, hl.size, hall]))
        have hsize : (m.base.size - UInt64.ofNat (dels.length + 1)).toNat =
            (Seq.without (d :: dels) xs).length := by
          rw [UInt64.toNat_sub_of_le _ _
            (UInt64.le_iff_toNat_le.mpr (by rw [hcount, hl.size]; exact hle)), hcount, hl.size, hlength]
        rw [hloop]
        refine ⟨_, _, rfl, hreply, .commit ⟨hw.owned, hl.rtype, hl.flags, hl.expireAt, hsize, ?_,
          hw.stored hl.stored.indexed⟩⟩
        rw [← hsize, word, UInt64.ofNat_toNat]
        rfl

end

end Wedb
