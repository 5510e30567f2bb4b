import Wedb.ZSet.Walk

/-!
# Removing members keeps the indexes

Every removal queues both keys of each of a list of distinct members and lowers
the size by their number. The members are the stored ones among those named, the
first or last of the score index, a window of it, or those in a range.
-/

universe u

namespace Wedb

variable {s : Store} {kc : KeyComposer} {key : Key} {M : ZMembers} {m m' : ZSetMeta}
  {now : UInt64} {ops : Batch} {xs : List ZSetMemberScore}

/-! ## Committing a removal -/

/-- Distinct stored members. -/
structure ZMembers.Has (M : ZMembers) (xs : List ZSetMemberScore) : Prop where
  stored : ∀ x ∈ xs, M.get x.1 = some x.2
  nodup : (xs.map Prod.fst).Nodup

theorem ZMembers.Has.length_le (h : M.Has xs) : xs.length ≤ M.length := by
  have hsub : xs.map Prod.fst ⊆ M.entries.map Prod.fst := fun a ha => by
    obtain ⟨x, hx, rfl⟩ := List.mem_map.mp ha
    exact List.mem_map.mpr ⟨x, SortedMap.get_eq_some.mp (h.stored x hx), rfl⟩
  have hle := (h.nodup.subperm hsub).length_le
  rwa [List.length_map, List.length_map] at hle

theorem ZMembers.Has.of_sublist {ys : List ZSetMemberScore} (h : M.Has ys) (hsub : xs.Sublist ys) :
    M.Has xs :=
  ⟨fun x hx => h.stored x (hsub.subset hx), h.nodup.sublist (hsub.map _)⟩

theorem ZMembers.has_ranked (M : ZMembers) : M.Has M.ranked :=
  ⟨fun _ hx => mem_ranked.mp hx, M.nodup_ranked⟩

theorem ZMembers.has_entries (M : ZMembers) : M.Has M.entries := by
  refine ⟨fun x hx => SortedMap.get_of_mem hx, ?_⟩
  rw [List.Nodup, List.pairwise_map]
  exact M.sorted.imp fun hlt => hlt.ne

theorem ZMembers.Has.directed (h : M.Has xs) (reverse : Bool) : M.Has (Wedb.directed reverse xs) := by
  refine ⟨fun x hx => h.stored x (mem_directed.mp hx), ?_⟩
  rw [← directed_map, nodup_directed]
  exact h.nodup

theorem mem_commitZsetBatch {o : WriteOp} (ho : o ∈ commitZsetBatch (composeZsetMetaKey kc key) m) :
    o.OwnedBy kc key .zSetMeta := by
  rw [commitZsetBatch] at ho
  split_ifs at ho
  all_goals
    rw [List.mem_singleton.mp ho]
    exact ownedBy_zsetMeta rfl rfl

theorem ZSetHolds.removed (h : ZSetHolds s kc key M) (hxs : M.Has xs)
    (hl : ZSetLayout m (M.without xs)) :
    ZSetHolds (s.apply (xs.flatMap (removalOps kc key) ++
      commitZsetBatch (composeZsetMetaKey kc key) m)) kc key (M.without xs) :=
  .commit h.only (fun _ ho => mem_removals ho) (h.rep.removeAll hxs.stored hxs.nodup) hl

theorem ZSetLayout.removed (hl : ZSetLayout m M) (hxs : M.Has xs) :
    ZSetLayout (m.setSize (m.base.size.satSub (UInt64.ofNat xs.length))) (M.without xs) := by
  refine ⟨hl.rtype, hl.expireAt, ?_⟩
  have hle := hxs.length_le
  have hlt := m.base.size.toNat_lt
  have hsize := hl.size
  rw [SimpleMeta.setSize_base, UInt64.toNat_satSub, hsize,
    UInt64.toNat_ofNat_of_lt' (by rw [UInt64.size]; omega),
    ZMembers.length_without hxs.stored hxs.nodup]

theorem ZSetHolds.removed_kept (h : ZSetHolds s kc key M) (hl : ZSetLayout m M) (hxs : M.Has xs) :
    ZSetKept s kc key (xs.flatMap (removalOps kc key) ++ commitZsetBatch (composeZsetMetaKey kc key)
      (m.setSize (m.base.size.satSub (UInt64.ofNat xs.length)))) :=
  ⟨mem_append_owned (fun _ ho => mem_removals ho) fun _ ho => mem_commitZsetBatch ho, M.without xs,
    h.removed hxs (hl.removed hxs)⟩

theorem ZSetHolds.commitDeleted (h : ZSetHolds s kc key M) (hl : ZSetLayout m M) (hxs : M.Has xs) :
    (∀ o ∈ (Wedb.commitDeleted kc key m xs.length (xs.flatMap (removalOps kc key))).2,
        o.OwnedBy kc key .zSetMeta) ∧
      ZSetHolds (s.apply (Wedb.commitDeleted kc key m xs.length (xs.flatMap (removalOps kc key))).2)
        kc key (M.without xs) := by
  rw [Wedb.commitDeleted]
  by_cases hpos : xs.length > 0
  · rw [if_pos hpos]
    exact ⟨(h.removed_kept hl hxs).1, h.removed hxs (hl.removed hxs)⟩
  · rw [if_neg hpos]
    have hnil : xs = [] := List.length_eq_zero_iff.mp (by omega)
    rw [hnil]
    exact ⟨fun _ ho => (List.not_mem_nil ho).elim, h⟩

theorem ZSetHolds.commitDeleted_kept (h : ZSetHolds s kc key M) (hl : ZSetLayout m M) (hxs : M.Has xs)
    {r : ℕ × Batch}
    (hr : Wedb.commitDeleted kc key m xs.length (xs.flatMap (removalOps kc key)) = r) :
    ZSetKept s kc key r.2 := by
  rw [← hr]
  exact ⟨(h.commitDeleted hl hxs).1, _, (h.commitDeleted hl hxs).2⟩

theorem ZSetHolds.cleared_kept (h : ZSetHolds s kc key M) :
    ZSetKept s kc key (clearPrefixInBatch s .data (composeZsetScorePrefix kc key) ++
      clearPrefixInBatch s .data (composeZsetPrefix kc key) ++ [.rmMeta (composeZsetMetaKey kc key)]) := by
  have hops : ∀ o ∈ clearPrefixInBatch s .data (composeZsetScorePrefix kc key) ++
      clearPrefixInBatch s .data (composeZsetPrefix kc key), o.OwnedBy kc key .zSetMeta :=
    mem_append_owned (fun _ ho => ownedBy_clearPrefix .zSetScore rfl ho)
      fun _ ho => ownedBy_clearPrefix .zSetData rfl ho
  refine ⟨mem_append_owned hops fun o ho => ?_, ∅, .commit_rm h.only hops ?_ rfl⟩
  · rw [List.mem_singleton.mp ho]
    exact ownedBy_zsetMeta rfl rfl
  · rw [Store.apply_append]
    refine zsetRep_empty ?_ (SortedMap.ext_get fun suffix => ?_)
    · refine Store.family_apply_clear rfl fun suffix h => ?_
      exact Store.part_apply_get_none (fun o ho => Store.rmPrefixed_value ho) h
    · have hclear : (s.apply (clearPrefixInBatch s .data (composeZsetScorePrefix kc key))).family kc
          key .zSetScore = ∅ := Store.family_apply_clear rfl fun _ h => h
      have hget : (s.apply (clearPrefixInBatch s .data (composeZsetScorePrefix kc key))).at
          ⟨kc, key, .sub .zSetScore suffix⟩ = none := by
        rw [← Store.get_family, hclear]
        rfl
      rw [Store.get_family]
      exact Store.part_apply_get_none (fun o ho => Store.rmPrefixed_value ho) hget

/-! ## Named members -/

/-- What the removal loop reached: some of the stored members, queued and counted. -/
structure ZRemReached (kc : KeyComposer) (key : Key) (M : ZMembers) (m : ZSetMeta)
    (w : ZSetMeta × Batch × ℕ) (xs : List ZSetMemberScore) : Prop where
  ops : w.2.1 = xs.flatMap (removalOps kc key)
  count : w.2.2 = xs.length
  rtype : w.1.base.rtype = m.base.rtype
  expireAt : w.1.base.expireAt = m.base.expireAt
  size : w.1.base.size.toNat = m.base.size.toNat - xs.length

theorem zremStep_spec (h : ZSetRep s kc key M) {w : ZSetMeta × Batch × ℕ}
    (hw : ZRemReached kc key M m w xs) (member : Bytes) :
    ZRemReached kc key M m (zremStep s kc key w member)
      (xs ++ ((M.get member).map fun score => (member, score)).toList) := by
  rw [zremStep, get_composeZsetKey, h.members]
  cases hget : M.get member with
  | none =>
    simp only [Option.map_none, Option.toList_none, List.append_nil]
    exact hw
  | some score =>
    have htake : (encodeSortableF64 score).take 8 = encodeSortableF64 score :=
      List.take_of_length_le (by simp)
    simp only [Option.map_some, Option.toList_some, htake, encodeSortableF64_length, ge_iff_le, le_refl,
      if_true]
    refine ⟨?_, ?_, hw.rtype, hw.expireAt, ?_⟩
    · rw [List.flatMap_append, ← hw.ops, List.flatMap_singleton]
      rfl
    · rw [List.length_append, ← hw.count]
      rfl
    · rw [SimpleMeta.setSize_base, UInt64.toNat_satSub, hw.size, List.length_append]
      exact Nat.sub_sub _ _ _

theorem zremLoop_spec (h : ZSetRep s kc key M) {w : ZSetMeta × Batch × ℕ}
    (hw : ZRemReached kc key M m w xs) (members : List Bytes) :
    ZRemReached kc key M m (members.foldl (zremStep s kc key) w)
      (xs ++ members.filterMap fun a => (M.get a).map fun score => (a, score)) := by
  induction members generalizing w xs with
  | nil =>
    rw [List.filterMap_nil, List.append_nil]
    exact hw
  | cons a members ih =>
    have hrest := ih (zremStep_spec h hw a)
    rw [List.append_assoc] at hrest
    rw [List.foldl_cons, List.filterMap_cons]
    cases hget : M.get a with
    | none =>
      rw [hget] at hrest
      exact hrest
    | some score =>
      rw [hget] at hrest
      exact hrest

theorem ZMembers.has_named (M : ZMembers) {members : List Bytes} (hnodup : members.Nodup) :
    M.Has (members.filterMap fun a => (M.get a).map fun score => (a, score)) := by
  constructor
  · intro x hx
    obtain ⟨a, -, hxa⟩ := List.mem_filterMap.mp hx
    obtain ⟨score, hget, rfl⟩ := Option.map_eq_some_iff.mp hxa
    exact hget
  · rw [List.Nodup, List.pairwise_map]
    refine List.Pairwise.filterMap _ (fun a a' hne x hx x' hx' => ?_) hnodup
    obtain ⟨c, -, rfl⟩ := Option.map_eq_some_iff.mp hx
    obtain ⟨c', -, rfl⟩ := Option.map_eq_some_iff.mp hx'
    exact hne

theorem zremSingle_eq (h : ZSetRep s kc key M) (m : ZSetMeta) (member : Bytes) :
    zremSingle s kc key m member = zremStep s kc key (m, [], 0) member := by
  rw [zremSingle, zremStep, get_composeZsetKey, h.members]
  cases M.get member with
  | none => rfl
  | some score =>
    have htake : (encodeSortableF64 score).take 8 = encodeSortableF64 score :=
      List.take_of_length_le (by simp)
    simp only [Option.map_some, oldScore_decoded, htake, encodeSortableF64_length, ge_iff_le, le_refl,
      if_true]
    rfl

theorem zremMembers_spec (h : ZSetRep s kc key M) (m : ZSetMeta) (members : List Bytes) :
    ∃ xs, M.Has xs ∧ ZRemReached kc key M m (zremMembers s kc key m members) xs := by
  have hstart : ZRemReached kc key M m (m, [], 0) [] := ⟨rfl, rfl, rfl, rfl, rfl⟩
  have hloop : ∀ names : List Bytes, names.Nodup →
      ∃ xs, M.Has xs ∧ ZRemReached kc key M m (names.foldl (zremStep s kc key) (m, [], 0)) xs :=
    fun names hnodup => ⟨_, M.has_named hnodup, zremLoop_spec h hstart names⟩
  rcases members with _ | ⟨member, _ | ⟨member', rest⟩⟩
  · exact hloop [] List.nodup_nil
  · rw [zremMembers, zremSingle_eq h]
    exact hloop [member] (List.nodup_singleton member)
  · exact hloop _ (keepFirst_nodup _ _).1

theorem zrem_kept (h : ZSetHolds s kc key M) {members : List Bytes} {n : ℕ}
    (hrun : zrem s kc key now members = .ok (n, ops)) : ZSetKept s kc key ops := by
  unfold zrem at hrun
  by_cases hnil : members = []
  · rw [if_pos hnil] at hrun
    cases hrun
    exact h.kept_nil
  · rw [if_neg hnil] at hrun
    rcases h.getZsetMeta now with ⟨-, hget⟩ | ⟨-, m, hget, hl⟩
    · rw [hget] at hrun
      cases hrun
      exact h.kept_nil
    · rw [hget] at hrun
      simp only [bind, Except.bind] at hrun
      obtain ⟨xs, hxs, hw⟩ := zremMembers_spec h.rep m members
      by_cases hpos : (zremMembers s kc key m members).2.2 > 0
      · rw [if_pos hpos] at hrun
        cases hrun
        rw [hw.ops]
        refine ⟨mem_append_owned (fun _ ho => mem_removals ho) fun _ ho => mem_commitZsetBatch ho,
          M.without xs, h.removed hxs ⟨hw.rtype.trans hl.rtype, hw.expireAt.trans hl.expireAt, ?_⟩⟩
        rw [hw.size, hl.size, ZMembers.length_without hxs.stored hxs.nodup]
      · rw [if_neg hpos] at hrun
        cases hrun
        exact h.kept_nil

/-! ## The ends of the score index -/

theorem drain_spec (kc : KeyComposer) (key : Key) (xs : List ZSetMemberScore) {n : ℕ} (acc : List ZSetMemberScore) (hacc : acc.length < n) :
    foldBreak (fun st x => drainEntry kc key n st (composeZsetScoreKey kc key x.2 x.1) x.1 x.2)
      (acc, acc.flatMap (removalOps kc key)) xs =
      (acc ++ xs.take (n - acc.length), (acc ++ xs.take (n - acc.length)).flatMap (removalOps kc key)) := by
  induction xs generalizing acc with
  | nil => rw [List.take_nil, List.append_nil, foldBreak]
  | cons x xs ih =>
    have hsub : n - acc.length = n - (acc ++ [x]).length + 1 := by
      rw [List.length_append, List.length_singleton]
      omega
    have hops : acc.flatMap (removalOps kc key) ++ removalOps kc key x =
        (acc ++ [x]).flatMap (removalOps kc key) := by
      rw [List.flatMap_append, List.flatMap_singleton]
    have hlist : acc ++ (x :: xs).take (n - acc.length) =
        acc ++ [x] ++ xs.take (n - (acc ++ [x]).length) := by
      rw [hsub, List.take_succ_cons, List.append_assoc, List.singleton_append]
    rw [foldBreak, hlist]
    by_cases hn : (acc ++ [x]).length ≥ n
    · rw [if_neg (by simpa [drainEntry] using hn)]
      have hzero : n - (acc ++ [x]).length = 0 := by omega
      rw [hzero, List.take_zero, List.append_nil, ← hops]
      rfl
    · rw [if_pos (by simpa [drainEntry] using hn), ← ih (acc ++ [x]) (by omega), ← hops]
      rfl

theorem zpopOneInternal_kept (h : ZSetHolds s kc key M) {reverse : Bool} {item : Option ZSetMemberScore}
    (hrun : zpopOneInternal s kc key now reverse = .ok (item, ops)) : ZSetKept s kc key ops := by
  unfold zpopOneInternal at hrun
  rcases h.getZsetMeta now with ⟨-, hget⟩ | ⟨-, m, hget, hl⟩
  · rw [hget] at hrun
    cases hrun
    exact h.kept_nil
  · rw [hget] at hrun
    simp only [bind, Except.bind, h.rep.score_prefixed, directed_map, List.head?_map] at hrun
    by_cases hsize : m.size > 0
    · rw [if_pos hsize] at hrun
      cases hhead : (directed reverse M.ranked).head? with
      | none =>
        rw [hhead] at hrun
        cases hrun
        exact h.kept_nil
      | some x =>
        have hxs : M.Has [x] :=
          (M.has_ranked.directed reverse).of_sublist (List.singleton_sublist.mpr (List.mem_of_head? hhead))
        rw [hhead] at hrun
        simp only [Option.map_some, scoreEntry, composeZsetScoreKey_eq_append, List.prefix_append, if_true,
          List.drop_left, parseScoreSub_indexKey] at hrun
        cases hrun
        rw [← composeZsetScoreKey_eq_append]
        have hkept := h.removed_kept hl hxs
        rw [List.flatMap_singleton] at hkept
        exact hkept
    · rw [if_neg hsize] at hrun
      cases hrun
      exact h.kept_nil

theorem zpopInternal_kept (h : ZSetHolds s kc key M) {count : ℕ} {reverse : Bool}
    {items : List ZSetMemberScore} (hrun : zpopInternal s kc key now count reverse = .ok (items, ops)) :
    ZSetKept s kc key ops := by
  unfold zpopInternal at hrun
  by_cases h0 : count = 0
  · rw [if_pos h0] at hrun
    cases hrun
    exact h.kept_nil
  by_cases h1 : count = 1
  · rw [if_neg h0, if_pos h1] at hrun
    obtain ⟨r, hone, hrun⟩ := bind_eq_ok hrun
    cases hrun
    exact zpopOneInternal_kept h hone
  · rw [if_neg h0, if_neg h1] at hrun
    rcases h.getZsetMeta now with ⟨-, hget⟩ | ⟨-, m, hget, hl⟩
    · rw [hget] at hrun
      cases hrun
      exact h.kept_nil
    · rw [hget] at hrun
      simp only [bind, Except.bind, h.rep.score_prefixed, directed_map, foldBreak_scoreVisit] at hrun
      by_cases hsize : m.size > 0
      · have hpos : ([] : List ZSetMemberScore).length < min count m.size.toNat := by
          have hsize' : 0 < m.size.toNat := UInt64.lt_iff_toNat_lt.mp hsize
          rw [List.length_nil]
          omega
        have hdrain := drain_spec kc key (directed reverse M.ranked) [] hpos
        rw [List.nil_append, List.flatMap_nil, List.length_nil, Nat.sub_zero] at hdrain
        rw [if_pos hsize, hdrain] at hrun
        dsimp only at hrun
        have hxs : M.Has ((directed reverse M.ranked).take (min count m.size.toNat)) :=
          (M.has_ranked.directed reverse).of_sublist (List.take_sublist _ _)
        split_ifs at hrun
        · cases hrun
          exact h.removed_kept hl hxs
        · cases hrun
          exact h.kept_nil
      · rw [if_neg hsize] at hrun
        cases hrun
        exact h.kept_nil

/-! ## Ranks -/

/-- What the removal walk and the collecting walk have in common. -/
def RankWork.Collects (kc : KeyComposer) (key : Key) (st : RankWork) (t : ℕ × List ZSetMemberScore) :
    Prop :=
  st.currentIdx = t.1 ∧ st.deleted = t.2.length ∧ st.ops = t.2.flatMap (removalOps kc key)

theorem remRankEntry_collects (start stop count : ℕ) {st : RankWork} {t : ℕ × List ZSetMemberScore}
    (h : st.Collects kc key t) (x : ZSetMemberScore) :
    (remRankEntry kc key start stop count st (composeZsetScoreKey kc key x.2 x.1) x.1 x.2).1.Collects kc
        key (rankStep id start stop count t x).1 ∧
      (remRankEntry kc key start stop count st (composeZsetScoreKey kc key x.2 x.1) x.1 x.2).2 =
        (rankStep id start stop count t x).2 := by
  obtain ⟨hidx, hdel, hops⟩ := h
  rw [remRankEntry, rankStep, hidx]
  by_cases hge : t.1 ≥ start
  · have hqueue : st.ops ++ removeMemberOps (some (composeZsetScoreKey kc key x.2 x.1))
        (composeZsetKey kc key x.1) = (t.2 ++ [x]).flatMap (removalOps kc key) := by
      rw [List.flatMap_append, List.flatMap_singleton, hops]
      rfl
    simp only [hge, true_and, if_true, id_eq, List.length_append, List.length_singleton, hdel]
    by_cases hfull : t.2.length + 1 ≥ count
    · rw [if_pos hfull, if_pos hfull]
      exact ⟨⟨rfl, by simp, hqueue⟩, rfl⟩
    · rw [if_neg hfull, if_neg hfull, ← decide_not]
      exact ⟨⟨rfl, by simp, hqueue⟩, decide_eq_decide.mpr not_lt⟩
  · simp only [hge, false_and, if_false]
    rw [hidx, ← decide_not]
    exact ⟨⟨rfl, hdel, hops⟩, decide_eq_decide.mpr not_lt⟩

theorem remRank_spec (kc : KeyComposer) (key : Key) {start stop : ℕ} (hle : start ≤ stop)
    (xs : List ZSetMemberScore) :
    (foldBreak (fun st x => remRankEntry kc key start stop (stop - start + 1) st
      (composeZsetScoreKey kc key x.2 x.1) x.1 x.2) ⟨0, 0, []⟩ xs).deleted =
      ((xs.drop start).take (stop - start + 1)).length ∧
    (foldBreak (fun st x => remRankEntry kc key start stop (stop - start + 1) st
      (composeZsetScoreKey kc key x.2 x.1) x.1 x.2) ⟨0, 0, []⟩ xs).ops =
      ((xs.drop start).take (stop - start + 1)).flatMap (removalOps kc key) := by
  have hstart : RankWork.Collects kc key ⟨0, 0, []⟩ (0, []) := ⟨rfl, rfl, rfl⟩
  have hsim := foldBreak_sim (RankWork.Collects kc key) (fun _ _ x hst =>
    remRankEntry_collects start stop (stop - start + 1) hst x) hstart xs
  have hrank := foldBreak_rank (id : ZSetMemberScore → _) hle (Nat.zero_le stop) []
    (Nat.zero_sub start).symm xs
  rw [List.nil_append, List.length_nil, Nat.sub_zero, Nat.sub_zero, List.map_id] at hrank
  rw [← hrank]
  exact hsim.2

theorem zsetNormalizeRange_le {card : UInt64} {start stop : Int64} {first last : ℕ}
    (h : zsetNormalizeRange card start stop = some (first, last)) : first ≤ last := by
  rw [zsetNormalizeRange] at h
  generalize normalizeRange start.toInt stop.toInt card.asI64 = r at h
  obtain ⟨a, b⟩ := r
  dsimp only at h
  split_ifs at h with hle
  cases h
  omega

theorem zremrangebyrank_kept (h : ZSetHolds s kc key M) {start stop : Int64} {n : ℕ}
    (hrun : zremrangebyrank s kc key now start stop = .ok (n, ops)) : ZSetKept s kc key ops := by
  unfold zremrangebyrank at hrun
  rcases h.getZsetMeta now with ⟨-, hget⟩ | ⟨-, m, hget, hl⟩
  · rw [hget] at hrun
    cases hrun
    exact h.kept_nil
  · rw [hget] at hrun
    simp only [bind, Except.bind] at hrun
    cases hrange : zsetNormalizeRange m.size start stop with
    | none =>
      rw [hrange] at hrun
      cases hrun
      exact h.kept_nil
    | some r =>
      obtain ⟨first, last⟩ := r
      rw [hrange] at hrun
      dsimp only at hrun
      split_ifs at hrun
      · cases hrun
        exact h.cleared_kept
      · obtain ⟨hd, ho⟩ := remRank_spec kc key (zsetNormalizeRange_le hrange) M.ranked
        rw [h.rep.score_prefixed, foldBreak_scoreVisit, hd, ho] at hrun
        exact h.commitDeleted_kept hl (M.has_ranked.of_sublist
          ((List.take_sublist _ _).trans (List.drop_sublist _ _))) (Except.ok.inj hrun)

/-! ## Ranges -/

/-- A walk within a range of scores visits the members in range before the first above it. -/
theorem foldBreak_byScoreVisit {σ : Type u} (spec : RangeScore) (f : σ → Bytes → Bytes → F64 → σ × Bool)
    (st : σ) (xs : List ZSetMemberScore) :
    foldBreak (fun st x => byScoreVisit spec f st (composeZsetScoreKey kc key x.2 x.1) x.1 x.2) st xs =
      foldBreak (fun st x => f st (composeZsetScoreKey kc key x.2 x.1) x.1 x.2) st
        ((xs.takeWhile fun x => !(spec.maxex && spec.max.le x.2 || spec.max.lt x.2)).filter
          fun x => spec.check x.2) := by
  rw [← foldBreak_filter]
  exact foldBreak_takeWhile _ (fun _ _ _ => rfl) st

theorem foldBreak_byScoreVisitRev {σ : Type u} (spec : RangeScore)
    (f : σ → Bytes → Bytes → F64 → σ × Bool) (st : σ) (xs : List ZSetMemberScore) :
    foldBreak (fun st x => byScoreVisitRev spec f st (composeZsetScoreKey kc key x.2 x.1) x.1 x.2) st xs =
      foldBreak (fun st x => f st (composeZsetScoreKey kc key x.2 x.1) x.1 x.2) st
        ((xs.takeWhile fun x => !(spec.minex && x.2.le spec.min || x.2.lt spec.min)).filter
          fun x => spec.check x.2) := by
  rw [← foldBreak_filter]
  exact foldBreak_takeWhile _ (fun _ _ _ => rfl) st

/-- A walk within a range of names visits the members in range before the first above it. -/
theorem foldBreak_byLexVisit {σ : Type u} (spec : RangeLex) (f : σ → Bytes → Bytes → Bytes → σ × Bool)
    (st : σ) (xs : List ZSetMemberScore) :
    foldBreak (fun st x =>
      byLexVisit spec f st (composeZsetKey kc key x.1) (encodeSortableF64 x.2) x.1) st xs =
      foldBreak (fun st x => f st (composeZsetKey kc key x.1) (encodeSortableF64 x.2) x.1) st
        ((xs.takeWhile fun x => !(!spec.maxInfinite && (spec.maxex && decide (spec.max ≤ x.1) ||
          !spec.maxex && decide (spec.max < x.1)))).filter fun x => spec.check x.1) := by
  rw [← foldBreak_filter]
  exact foldBreak_takeWhile _ (fun _ _ _ => rfl) st

theorem foldBreak_byLexVisitRev {σ : Type u} (spec : RangeLex)
    (f : σ → Bytes → Bytes → Bytes → σ × Bool) (st : σ) (xs : List ZSetMemberScore) :
    foldBreak (fun st x =>
      byLexVisitRev spec f st (composeZsetKey kc key x.1) (encodeSortableF64 x.2) x.1) st xs =
      foldBreak (fun st x => f st (composeZsetKey kc key x.1) (encodeSortableF64 x.2) x.1) st
        ((xs.takeWhile fun x => !(!spec.minInfinite && (spec.minex && decide (x.1 ≤ spec.min) ||
          !spec.minex && decide (x.1 < spec.min)))).filter fun x => spec.check x.1) := by
  rw [← foldBreak_filter]
  exact foldBreak_takeWhile _ (fun _ _ _ => rfl) st

theorem foldBreak_removals {step : ℕ × Batch → ZSetMemberScore → (ℕ × Batch) × Bool}
    (hstep : ∀ st x, step st x = ((st.1 + 1, st.2 ++ removalOps kc key x), true))
    (xs : List ZSetMemberScore) :
    foldBreak step (0, []) xs = (xs.length, xs.flatMap (removalOps kc key)) := by
  have hacc : ∀ st : ℕ × Batch, foldBreak step st xs =
      (st.1 + xs.length, st.2 ++ xs.flatMap (removalOps kc key)) := by
    induction xs with
    | nil => simp [foldBreak]
    | cons x xs ih =>
      intro st
      rw [foldBreak, hstep, if_pos rfl, ih, List.length_cons, List.flatMap_cons, List.append_assoc,
        Nat.add_assoc, Nat.add_comm 1]
  rw [hacc, Nat.zero_add, List.nil_append]

theorem removeScored_eq (st : ℕ × Batch) (x : ZSetMemberScore) :
    removeScored kc key st (composeZsetScoreKey kc key x.2 x.1) x.1 x.2 =
      ((st.1 + 1, st.2 ++ removalOps kc key x), true) := rfl

theorem removeNamed_eq (st : ℕ × Batch) (x : ZSetMemberScore) :
    removeNamed kc key st (composeZsetKey kc key x.1) (encodeSortableF64 x.2) x.1 =
      ((st.1 + 1, st.2 ++ removalOps kc key x), true) := by
  have htake : (encodeSortableF64 x.2).take 8 = encodeSortableF64 x.2 :=
    List.take_of_length_le (by simp)
  rw [removeNamed, htake, if_pos (by simp)]
  rfl

def scoredRemovals (kc : KeyComposer) (key : Key) (spec : RangeScore) (M : ZMembers) :
    List ZSetMemberScore :=
  let bounds := scoreRangeBounds (composeZsetScorePrefix kc key) spec
  ((((M.ranked.filter fun x => bounds.1.startsAt (composeZsetScoreKey kc key x.2 x.1) &&
    bounds.2.endsAt (composeZsetScoreKey kc key x.2 x.1))).takeWhile fun x =>
      !(spec.maxex && spec.max.le x.2 || spec.max.lt x.2)).filter fun x => spec.check x.2)

theorem zremrangebyscore_eq (h : ZSetHolds s kc key M) {spec : RangeScore} (hspec : spec.isEmpty = false)
    (hget : getZsetMeta s kc key now = .ok (some m)) :
    zremrangebyscore s kc key now spec = .ok (Wedb.commitDeleted kc key m
      (scoredRemovals kc key spec M).length
      ((scoredRemovals kc key spec M).flatMap (removalOps kc key))) := by
  rw [zremrangebyscore, if_neg (by simp [hspec]), hget]
  simp only [bind, Except.bind]
  rw [h.rep.score_range fun k => prefix_of_scoreRangeBounds spec, foldBreak_scoreVisit,
    foldBreak_byScoreVisit, foldBreak_removals removeScored_eq]
  rfl

theorem scoredRemovals_has (kc : KeyComposer) (key : Key) (spec : RangeScore) (M : ZMembers) :
    M.Has (scoredRemovals kc key spec M) :=
  M.has_ranked.of_sublist (List.filter_sublist.trans
    ((List.takeWhile_sublist _).trans List.filter_sublist))

theorem zremrangebyscore_kept (h : ZSetHolds s kc key M) {spec : RangeScore} {n : ℕ}
    (hrun : zremrangebyscore s kc key now spec = .ok (n, ops)) : ZSetKept s kc key ops := by
  by_cases hspec : spec.isEmpty = true
  · rw [zremrangebyscore, if_pos hspec] at hrun
    cases hrun
    exact h.kept_nil
  · rcases h.getZsetMeta now with ⟨-, hget⟩ | ⟨-, m, hget, hl⟩
    · rw [zremrangebyscore, if_neg hspec, hget] at hrun
      cases hrun
      exact h.kept_nil
    · rw [zremrangebyscore_eq h (by simpa using hspec) hget] at hrun
      exact h.commitDeleted_kept hl (scoredRemovals_has kc key spec M) (Except.ok.inj hrun)

def namedRemovals (spec : RangeLex) (M : ZMembers) : List ZSetMemberScore :=
  ((M.entries.filter fun x => spec.check x.1).takeWhile fun x =>
    !(!spec.maxInfinite && (spec.maxex && decide (spec.max ≤ x.1) ||
      !spec.maxex && decide (spec.max < x.1)))).filter fun x => spec.check x.1

theorem zremrangebylex_eq (h : ZSetHolds s kc key M) {spec : RangeLex} (hspec : spec.isEmpty = false)
    (hget : getZsetMeta s kc key now = .ok (some m)) :
    zremrangebylex s kc key now spec = .ok (Wedb.commitDeleted kc key m
      (namedRemovals spec M).length ((namedRemovals spec M).flatMap (removalOps kc key))) := by
  rw [zremrangebylex, if_neg (by simp [hspec]), hget]
  simp only [bind, Except.bind]
  rw [h.rep.member_range fun k => prefix_of_lexRangeBounds spec, foldBreak_memberVisit,
    foldBreak_byLexVisit, foldBreak_removals removeNamed_eq]
  simp only [startsAt_lexRangeBounds, endsAt_lexRangeBounds]
  rfl

theorem namedRemovals_has (spec : RangeLex) (M : ZMembers) : M.Has (namedRemovals spec M) :=
  M.has_entries.of_sublist (List.filter_sublist.trans
    ((List.takeWhile_sublist _).trans List.filter_sublist))

theorem zremrangebylex_kept (h : ZSetHolds s kc key M) {spec : RangeLex} {n : ℕ}
    (hrun : zremrangebylex s kc key now spec = .ok (n, ops)) : ZSetKept s kc key ops := by
  by_cases hspec : spec.isEmpty = true
  · rw [zremrangebylex, if_pos hspec] at hrun
    cases hrun
    exact h.kept_nil
  · rcases h.getZsetMeta now with ⟨-, hget⟩ | ⟨-, m, hget, hl⟩
    · rw [zremrangebylex, if_neg hspec, hget] at hrun
      cases hrun
      exact h.kept_nil
    · rw [zremrangebylex_eq h (by simpa using hspec) hget] at hrun
      exact h.commitDeleted_kept hl (namedRemovals_has spec M) (Except.ok.inj hrun)

end Wedb
