import Wedb.Stream.Impl

/-!
# The log a stream stores

A stored stream is its metadata and the entries of a log under their ids. The
metadata tells how many entries there are and which are the first and the last,
and no id is above the last one generated. Trimming drops entries from the front,
a deletion filters and an addition appends.
-/

namespace Wedb

abbrev EntryLog := List (StreamId × Bytes)

/-- The metadata describes the stored entries. -/
structure StreamLayout (m : StreamMeta) (xs : EntryLog) : Prop where
  rtype : m.base.rtype = .stream
  expireAt : m.base.expireAt = 0
  size : m.base.size.toNat = xs.length
  first : ∀ x ∈ xs.head?, x.1 = m.firstEntryId
  last : ∀ x ∈ xs.getLast?, x.1 = m.lastEntryId
  bounded : ∀ x ∈ xs, x.1 ≤ m.lastGeneratedId
  within : m.lastGeneratedId ≤ .max

/-- The log stored under a key, with the last id generated. -/
inductive StreamRep (s : Store) (kc : KeyComposer) (key : Key) : EntryLog → StreamId → Prop
  | absent : s.metadata.get (streamMetaKey kc key) = none → s.family kc key .streamData = ∅ →
      StreamRep s kc key [] .min
  | present {m : StreamMeta} {xs : EntryLog} : s.metadata.get (streamMetaKey kc key) = some m.encode →
      LogIn encodeId xs (s.family kc key .streamData) → StreamLayout m xs →
      StreamRep s kc key xs m.lastGeneratedId

/-- The key holds nothing but the stream. -/
structure StreamHolds (s : Store) (kc : KeyComposer) (key : Key) (xs : EntryLog) (lastId : StreamId) :
    Prop where
  only : HoldsOnly s kc key .streamMeta
  rep : StreamRep s kc key xs lastId

variable {s : Store} {kc : KeyComposer} {key : Key} {m : StreamMeta} {xs : EntryLog} {now : UInt64}
  {id lastId : StreamId} {ops : Batch}

theorem streamItem_eq_phys (kc : KeyComposer) (key : Key) (id : StreamId) :
    streamItem kc key id = Addr.phys ⟨kc, key, .sub .streamData (encodeId id)⟩ := by
  rw [streamItem, KeyComposer.composeSubkey2Stack_eq, Addr.phys_sub, encodeId]

theorem streamItem_eq_join (kc : KeyComposer) (key : Key) (id : StreamId) :
    streamItem kc key id = streamPrefix kc key ++ encodeId id := by
  rw [streamItem_eq_phys, Addr.phys_sub]
  rfl

theorem parse_encodeId (id : StreamId) : parseStreamIdFromSubkey (encodeId id) = some id := by
  have hdec := decodeId_encodeId_append id []
  rw [List.append_nil, decodeId, if_pos (encodeId_length id).ge] at hdec
  rw [parseStreamIdFromSubkey, if_pos (encodeId_length id), hdec]

theorem parse_drop_prefix (kc : KeyComposer) (key : Key) (id : StreamId) :
    parseStreamIdFromSubkey ((streamPrefix kc key ++ encodeId id).drop (streamPrefix kc key).length) =
      some id := by
  rw [List.drop_left, parse_encodeId]

theorem streamSubkeys_eq (h : LogIn encodeId xs (s.family kc key .streamData)) :
    streamSubkeys s kc key = xs.map fun x => (streamItem kc key x.1, x.1) := by
  have hentries : (SortedMap.under (streamPrefix kc key) s.data).entries =
      xs.map fun x => (encodeId x.1, x.2) := h
  rw [streamSubkeys, SortedMap.prefixed_eq_map_under, hentries, List.map_map, List.filterMap_map]
  rw [← List.filterMap_eq_map]
  refine List.filterMap_congr fun x _ => ?_
  simp only [Function.comp_apply, parse_drop_prefix, Option.map_some, streamItem_eq_join]

/-! ## Metadata -/

theorem StreamLayout.not_expired (h : StreamLayout m xs) (now : UInt64) : m.isExpired now = false := by
  rw [StreamMeta.isExpired, KeyMeta.isExpired, KeyMeta.isEmptyableType, h.rtype, h.expireAt]
  rfl

theorem getStreamMeta_absent (h : HoldsOnly s kc key .streamMeta)
    (hget : s.metadata.get (streamMetaKey kc key) = none) (now : UInt64) :
    getStreamMeta s kc key now = .ok none :=
  HoldsOnly.getMetaChecked_absent (M := StreamMeta) h hget now

theorem getStreamMeta_present (h : HoldsOnly s kc key .streamMeta)
    (hget : s.metadata.get (streamMetaKey kc key) = some m.encode) (hl : StreamLayout m xs)
    (now : UInt64) : getStreamMeta s kc key now = .ok (some m) :=
  HoldsOnly.getMetaChecked_present (M := StreamMeta) h hget (StreamMeta.decode_encode hl.rtype)
    (hl.not_expired now)

theorem StreamHolds.lookup (h : StreamHolds s kc key xs lastId) (now : UInt64) :
    (getStreamMeta s kc key now = .ok none ∧ s.metadata.get (streamMetaKey kc key) = none ∧
      s.family kc key .streamData = ∅ ∧ xs = [] ∧ lastId = .min) ∨
    ∃ m, getStreamMeta s kc key now = .ok (some m) ∧ StreamLayout m xs ∧
      LogIn encodeId xs (s.family kc key .streamData) ∧ lastId = m.lastGeneratedId := by
  obtain ⟨honly, hrep⟩ := h
  cases hrep with
  | absent hget hfam => exact Or.inl ⟨getStreamMeta_absent honly hget now, hget, hfam, rfl, rfl⟩
  | present hget hlog hl => exact Or.inr ⟨_, getStreamMeta_present honly hget hl now, hl, hlog, rfl⟩

theorem StreamHolds.log (h : StreamHolds s kc key xs lastId) :
    LogIn encodeId xs (s.family kc key .streamData) := by
  rcases h.lookup 0 with ⟨-, -, hfam, rfl, -⟩ | ⟨m, -, -, hlog, -⟩
  · rw [hfam]
    exact .nil encodeId
  · exact hlog

theorem StreamHolds.within (h : StreamHolds s kc key xs lastId) : lastId ≤ .max := by
  rcases h.lookup 0 with ⟨-, -, -, -, rfl⟩ | ⟨m, -, hl, -, rfl⟩
  · exact StreamId.min_le _
  · exact hl.within

theorem StreamLayout.size_eq_zero (h : StreamLayout m xs) : m.base.size = 0 ↔ xs = [] := by
  rw [← List.length_eq_zero_iff, ← h.size, ← UInt64.toNat_inj]
  rfl

/-! ## Committing -/

/-- The operation writes an entry of the stream. -/
def EntryOp (kc : KeyComposer) (key : Key) (o : WriteOp) : Prop :=
  ∃ id : StreamId, o.partition = .data ∧ o.key = streamItem kc key id

theorem StreamHolds.commit (honly : HoldsOnly s kc key .streamMeta)
    (hops : ∀ o ∈ ops, EntryOp kc key o) (hlog : LogIn encodeId xs ((s.apply ops).family kc key .streamData))
    (hl : StreamLayout m xs) :
    StreamHolds (s.apply (ops ++ [.insertMeta (streamMetaKey kc key) m.encode])) kc key xs
      m.lastGeneratedId := by
  have hfam : (s.apply (ops ++ [.insertMeta (streamMetaKey kc key) m.encode])).family kc key
      .streamData = (s.apply ops).family kc key .streamData := by
    rw [Store.apply_append, Store.apply_cons, Store.apply_nil]
    exact Store.family_applyOp_of_metadata rfl
  refine ⟨honly.apply fun o ho => ?_, .present ?_ (hfam ▸ hlog) hl⟩
  · rcases List.mem_append.mp ho with ho | ho
    · obtain ⟨id, hp, hk⟩ := hops o ho
      exact ⟨.sub .streamData (encodeId id), rfl, hp.symm, (streamItem_eq_phys kc key id).symm.trans hk.symm,
        by simp, fun u hu => by cases hu⟩
    · rw [List.mem_singleton.mp ho]
      exact ⟨.metadata .streamMeta, rfl, rfl, rfl, by simp, fun u hu => by cases hu; rfl⟩
  · rw [Store.apply_append]
    exact SortedMap.get_insert_self _ _ _

theorem family_rm_entries (hlog : LogIn encodeId xs (s.family kc key .streamData)) (n : ℕ) :
    LogIn encodeId (xs.drop n) ((s.apply ((xs.take n).map fun x =>
      .rmWeakData (streamItem kc key x.1))).family kc key .streamData) := by
  induction xs generalizing s n with
  | nil =>
    rw [List.drop_nil, List.take_nil]
    exact hlog
  | cons x xs ih =>
    cases n with
    | zero => exact hlog
    | succ n =>
      refine ih (s := s.applyOp (.rmWeakData (streamItem kc key x.1))) ?_ n
      rw [streamItem_eq_phys, Store.family_rmWeak]
      exact hlog.tail encodeId_strictMono

/-! ## Trimming -/

/-- The walk deleted the first entries and found the one after them. -/
structure Trims (kc : KeyComposer) (key : Key) (xs : EntryLog) (st st' : TrimState) (n : ℕ) : Prop where
  le : n ≤ xs.length
  deleteCnt : st'.deleteCnt = st.deleteCnt + n
  ops : st'.ops = st.ops ++ (xs.take n).map fun x => .rmWeakData (streamItem kc key x.1)
  newFirstId : st'.newFirstId = xs[n]?.map Prod.fst

theorem Trims.cons {st st' : TrimState} {n : ℕ} {x : StreamId × Bytes}
    (h : Trims kc key xs (st.delete (streamItem kc key x.1) x.1) st' n) :
    Trims kc key (x :: xs) st st' (n + 1) := by
  refine ⟨Nat.succ_le_succ h.le, ?_, ?_, ?_⟩
  · rw [h.deleteCnt, TrimState.delete]
    dsimp only
    omega
  · rw [h.ops, TrimState.delete, List.take_succ_cons, List.map_cons, List.append_assoc]
    rfl
  · rw [h.newFirstId, List.getElem?_cons_succ]

variable (kc key xs) in
theorem trimLoop_spec (m : StreamMeta) (options : StreamTrim) (st : TrimState)
    (hst : st.newFirstId = none) : ∃ n, Trims kc key xs st
      (trimLoop m options (xs.map fun x => (streamItem kc key x.1, x.1)) st) n := by
  induction xs generalizing st with
  | nil => exact ⟨0, le_rfl, rfl, (List.append_nil _).symm, hst⟩
  | cons x xs ih =>
    rw [List.map_cons, trimLoop]
    by_cases hstop : trimStops m options st.deleteCnt x.1 = true
    · rw [if_pos hstop]
      exact ⟨0, Nat.zero_le _, rfl, (List.append_nil _).symm, rfl⟩
    · rw [if_neg hstop]
      obtain ⟨n, hn⟩ := ih (st.delete (streamItem kc key x.1) x.1) hst
      cases options.limit with
      | none => exact ⟨n + 1, hn.cons⟩
      | some lim =>
        by_cases hlim : (st.delete (streamItem kc key x.1) x.1).deleteCnt ≥ lim
        · simp only [if_pos hlim]
          refine ⟨1, Nat.succ_le_succ (Nat.zero_le _), rfl, rfl, ?_⟩
          rw [List.getElem?_cons_succ, List.head?_map, List.head?_eq_getElem?, Option.map_map]
          rfl
        · simp only [if_neg hlim]
          exact ⟨n + 1, hn.cons⟩

theorem StreamLayout.trimmed (h : StreamLayout m xs) {st : TrimState} {n : ℕ}
    (ht : Trims kc key xs {} st n) :
    StreamLayout (m.trimmed st) (xs.drop n) ∧ (m.trimmed st).lastGeneratedId = m.lastGeneratedId := by
  have hcnt : st.deleteCnt = n := ht.deleteCnt.trans (Nat.zero_add n)
  have hbounded : ∀ x ∈ xs.drop n, x.1 ≤ m.lastGeneratedId := fun x hx =>
    h.bounded x (List.mem_of_mem_drop hx)
  rw [StreamMeta.trimmed, hcnt]
  by_cases hpos : n > 0
  · rw [if_pos hpos]
    have hlt : xs.length < 2 ^ 64 := h.size ▸ m.base.size.toNat_lt
    have hn := ht.le
    have hsize : (m.base.size.satSub (UInt64.ofNat n)).toNat = xs.length - n := by
      rw [UInt64.toNat_satSub, h.size, UInt64.toNat_ofNat_of_lt' (show n < 2 ^ 64 by omega)]
    have hzero : m.base.size.satSub (UInt64.ofNat n) = 0 ↔ xs.length ≤ n := by
      rw [← UInt64.toNat_inj, hsize]
      exact Nat.sub_eq_zero_iff_le
    generalize m.base.size.satSub (UInt64.ofNat n) = size at hsize hzero
    have hnone : st.newFirstId = none ↔ xs.length ≤ n := by
      rw [ht.newFirstId, Option.map_eq_none_iff, List.getElem?_eq_none_iff]
    have hdel : ∀ (m' : StreamMeta), (if st.lastDeletedId > (m'.setSize size).maxDeletedEntryId then
        { m'.setSize size with maxDeletedEntryId := st.lastDeletedId } else m'.setSize size) =
        { m'.setSize size with maxDeletedEntryId :=
          if st.lastDeletedId > m'.maxDeletedEntryId then st.lastDeletedId else m'.maxDeletedEntryId } := by
      intro m'
      by_cases hgt : st.lastDeletedId > m'.maxDeletedEntryId
      · have hgt' : st.lastDeletedId > (m'.setSize size).maxDeletedEntryId := hgt
        rw [if_pos hgt, if_pos hgt']
      · have hgt' : ¬st.lastDeletedId > (m'.setSize size).maxDeletedEntryId := hgt
        rw [if_neg hgt, if_neg hgt']
        rfl
    dsimp only
    rw [hdel]
    by_cases hall : xs.length ≤ n
    · rw [if_pos (Or.inl (hzero.mpr hall)), List.drop_eq_nil_of_le hall]
      exact ⟨⟨h.rtype, h.expireAt, rfl, by simp, by simp, by simp, h.within⟩, rfl⟩
    · rw [if_neg (not_or.mpr ⟨fun h0 => hall (hzero.mp h0), fun h0 => hall (hnone.mp h0)⟩)]
      refine ⟨⟨h.rtype, h.expireAt, ?_, ?_, ?_, hbounded, h.within⟩, rfl⟩
      · rw [List.length_drop]
        exact hsize
      · intro x hx
        rw [List.head?_drop] at hx
        show x.1 = st.newFirstId.getD .min
        rw [ht.newFirstId, hx]
        rfl
      · intro x hx
        rw [List.getLast?_drop, if_neg hall] at hx
        exact h.last x hx
  · rw [if_neg hpos, Nat.eq_zero_of_not_pos hpos, List.drop_zero]
    exact ⟨h, rfl⟩

theorem StreamMeta.trimmed_of_none {st : TrimState} (h : st.deleteCnt = 0) : m.trimmed st = m := by
  rw [StreamMeta.trimmed, h]
  rfl

/-- Trimming drops entries from the front, and with none to drop the metadata stays. -/
theorem trimStreamInternal_spec (h : StreamLayout m xs)
    (hlog : LogIn encodeId xs (s.family kc key .streamData)) (options : StreamTrim) :
    ∃ n m', trimStreamInternal s kc key m options =
        (n, m', (xs.take n).map fun x => .rmWeakData (streamItem kc key x.1)) ∧
      StreamLayout m' (xs.drop n) ∧ m'.lastGeneratedId = m.lastGeneratedId ∧
      n ≤ xs.length ∧ (n = 0 → m' = m) := by
  have hkeep : ∃ n m', ((0, m, []) : ℕ × StreamMeta × Batch) =
      (n, m', (xs.take n).map fun x => .rmWeakData (streamItem kc key x.1)) ∧
      StreamLayout m' (xs.drop n) ∧ m'.lastGeneratedId = m.lastGeneratedId ∧
      n ≤ xs.length ∧ (n = 0 → m' = m) := ⟨0, m, rfl, h, rfl, Nat.zero_le _, fun _ => rfl⟩
  rw [trimStreamInternal, streamSubkeys_eq hlog]
  split_ifs
  · exact hkeep
  · exact hkeep
  · exact hkeep
  · obtain ⟨n, ht⟩ := trimLoop_spec kc key xs m options {} rfl
    obtain ⟨hlayout, hlast⟩ := h.trimmed ht
    have hops := ht.ops
    have hcnt := ht.deleteCnt
    rw [List.nil_append] at hops
    rw [Nat.zero_add] at hcnt
    refine ⟨n, _, ?_, hlayout, hlast, ht.le, fun hzero => ?_⟩
    · dsimp only
      rw [hops, hcnt]
    · exact StreamMeta.trimmed_of_none (hcnt.trans hzero)

end Wedb
