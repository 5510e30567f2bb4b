import Wedb.SortedInt.Commands

/-!
# Ranges of ids

The keys between the bounds of a range are those of the ids in it, for closed and
open bounds alike, and a range that is taken for empty holds no id. A walk by rank
collects the ids between two indexes. The shortcuts for the whole set agree with
the walks they replace.
-/

namespace Wedb

variable {s : Store} {kc : KeyComposer} {key : Key} {S : IdSet} {X : Finset UInt64}
  {spec : SortedintRange} {m : SortedintMeta} {now id : UInt64} {pre : Bytes} {ops : Batch}

/-! ## Bounds -/

theorem itemKey_lt_iff {a b : UInt64} : composeSiItemKey pre a < composeSiItemKey pre b ↔ a < b := by
  rw [composeSiItemKey, composeSiItemKey, Bytes.append_lt_append_iff]
  exact UInt64.toBeBytes_lt_iff

theorem itemKey_le_iff {a b : UInt64} : composeSiItemKey pre a ≤ composeSiItemKey pre b ↔ a ≤ b := by
  rw [← not_lt, itemKey_lt_iff, UInt64.not_lt]

theorem SortedintRange.contains_iff : spec.contains id = true ↔
    (if spec.minex then spec.min < id else spec.min ≤ id) ∧
      (if spec.maxex then id < spec.max else id ≤ spec.max) := by
  rw [contains, Bool.and_eq_true, Bool.not_eq_true', Bool.not_eq_true']
  refine and_congr ?_ ?_
  · split_ifs
    · rw [decide_eq_false_iff_not, UInt64.not_le]
    · rw [decide_eq_false_iff_not, UInt64.not_lt]
  · split_ifs
    · rw [decide_eq_false_iff_not, ge_iff_le, UInt64.not_le]
    · rw [decide_eq_false_iff_not, gt_iff_lt, UInt64.not_lt]

theorem siRangeBounds_check (pre : Bytes) (spec : SortedintRange) (id : UInt64) :
    ((siRangeBounds pre spec).1.startsAt (composeSiItemKey pre id) &&
      (siRangeBounds pre spec).2.endsAt (composeSiItemKey pre id)) = spec.contains id := by
  rw [Bool.eq_iff_iff, Bool.and_eq_true, SortedintRange.contains_iff, siRangeBounds]
  dsimp only
  refine and_congr ?_ ?_
  · by_cases hex : spec.minex = true
    · simp only [hex, if_true, Bound.startsAt, decide_eq_true_eq, itemKey_lt_iff]
    · simp only [hex, if_false, Bool.false_eq_true, Bound.startsAt, decide_eq_true_eq, itemKey_le_iff]
  · by_cases hex : spec.maxex = true
    · simp only [hex, if_true, Bound.endsAt, decide_eq_true_eq, itemKey_lt_iff]
    · simp only [hex, if_false, Bool.false_eq_true, Bound.endsAt, decide_eq_true_eq, itemKey_le_iff]

theorem prefix_of_siRangeBounds {k : Bytes} (hlo : (siRangeBounds pre spec).1.startsAt k = true)
    (hhi : (siRangeBounds pre spec).2.endsAt k = true) : pre <+: k := by
  have hbelow : composeSiItemKey pre spec.min ≤ k := by
    rw [siRangeBounds] at hlo
    split_ifs at hlo
    all_goals simp only [Bound.startsAt, decide_eq_true_eq] at hlo
    · exact hlo.le
    · exact hlo.le
    · exact hlo
    · exact hlo
  have habove : k ≤ composeSiItemKey pre spec.max := by
    rw [siRangeBounds] at hhi
    split_ifs at hhi
    all_goals simp only [Bound.endsAt, decide_eq_true_eq] at hhi
    · exact hhi.le
    · exact hhi
    · exact hhi.le
    · exact hhi
  exact Bytes.prefix_of_between (List.prefix_append pre _) (List.prefix_append pre _) hbelow habove

theorem SiRep.value_range (h : SiRep s kc key X) (spec : SortedintRange) :
    s.data.range (siRangeBounds (composeSiPrefixStack kc key) spec).1
        (siRangeBounds (composeSiPrefixStack kc key) spec).2 =
      (IdSet.inOrder (IdSet.byValue X spec)).map (itemEntry kc key) := by
  rw [h.range_eq fun k hlo hhi => prefix_of_siRangeBounds hlo hhi, IdSet.byValue, IdSet.inOrder_filter]
  simp only [siRangeBounds_check, Bool.decide_eq_true]

theorem SortedintRange.contains_of_isEmptyRange (h : spec.isEmptyRange = true) (id : UInt64) :
    spec.contains id = false := by
  rw [← Bool.not_eq_true, contains_iff]
  intro ⟨hlo, hhi⟩
  have hle : spec.min ≤ id ∧ id ≤ spec.max := by
    constructor
    · split_ifs at hlo
      · exact UInt64.le_of_lt hlo
      · exact hlo
    · split_ifs at hhi
      · exact UInt64.le_of_lt hhi
      · exact hhi
  have hid := id.toNat_lt
  simp only [UInt64.le_iff_toNat_le] at hle
  rw [isEmptyRange] at h
  have hgt : ¬spec.min > spec.max := by
    rw [gt_iff_lt, UInt64.lt_iff_toNat_lt]
    omega
  rw [if_neg hgt] at h
  have heffMin : ∃ a : UInt64, (if spec.minex then
      (if spec.min = UInt64.maxVal then none else some (spec.min + 1)) else some spec.min) = some a ∧
      a.toNat ≤ id.toNat := by
    by_cases hex : spec.minex = true
    · rw [if_pos hex, UInt64.lt_iff_toNat_lt] at hlo
      have hne : spec.min ≠ UInt64.maxVal := by
        intro he
        rw [he, UInt64.toNat_maxVal] at hlo
        omega
      refine ⟨spec.min + 1, by rw [if_pos hex, if_neg hne], ?_⟩
      rw [UInt64.toNat_add, UInt64.toNat_one]
      omega
    · exact ⟨spec.min, if_neg hex, hle.1⟩
  have heffMax : ∃ b : UInt64, (if spec.maxex then
      (if spec.max = 0 then none else some (spec.max - 1)) else some spec.max) = some b ∧
      id.toNat ≤ b.toNat := by
    by_cases hex : spec.maxex = true
    · rw [if_pos hex, UInt64.lt_iff_toNat_lt] at hhi
      have hne : spec.max ≠ 0 := by
        intro he
        rw [he, UInt64.toNat_zero] at hhi
        omega
      refine ⟨spec.max - 1, by rw [if_pos hex, if_neg hne], ?_⟩
      have hone : (1 : UInt64) ≤ spec.max := by
        rw [UInt64.le_iff_toNat_le, UInt64.toNat_one]
        omega
      rw [UInt64.toNat_sub_of_le _ _ hone, UInt64.toNat_one]
      omega
    · exact ⟨spec.max, if_neg hex, hle.2⟩
  obtain ⟨a, ha, hale⟩ := heffMin
  obtain ⟨b, hb, hble⟩ := heffMax
  simp only [ha, hb, decide_eq_true_eq, gt_iff_lt, UInt64.lt_iff_toNat_lt] at h
  omega

theorem IdSet.byValue_of_isEmptyRange (h : spec.isEmptyRange = true) (X : Finset UInt64) :
    byValue X spec = ∅ := by
  refine Finset.filter_eq_empty_iff.mpr fun id _ => ?_
  rw [SortedintRange.contains_of_isEmptyRange h]
  exact Bool.false_ne_true

theorem IdSet.byValue_of_isFull (h : spec.isFull = true) (X : Finset UInt64) : byValue X spec = X := by
  simp only [SortedintRange.isFull, Bool.and_eq_true, Bool.not_eq_true', beq_iff_eq] at h
  refine Finset.filter_true_of_mem fun id _ => ?_
  have hid := id.toNat_lt
  rw [SortedintRange.contains_iff, h.1.1.1, h.1.1.2, h.1.2, h.2]
  simp only [Bool.false_eq_true, if_false, UInt64.le_iff_toNat_le, UInt64.toNat_maxVal]
  exact ⟨Nat.zero_le _, by omega⟩

/-! ## Removing a range of values -/

theorem SiHolds.cleared (h : SiHolds s kc key S) (hlive : S.live now = S.ids) (hne : S.ids ≠ ∅)
    (hl : SiLayout m S) : (siClear s kc key m).1 = (S.live now).card ∧
      SiLeaves s kc key (siClear s kc key m).2 (S.without now (S.live now)) := by
  have howned : ∀ o ∈ clearPrefixInBatch s .data (composeSiPrefixStack kc key),
      o.OwnedBy kc key .sortedIntMeta := fun o ho => ownedBy_clearPrefix .sortedIntData rfl ho
  have hrep : SiRep (s.apply (clearPrefixInBatch s .data (composeSiPrefixStack kc key))) kc key ∅ := by
    rw [SiRep, sortedIntData_clear]
    exact SetIn.empty _
  rw [hlive, IdSet.without, hlive, Finset.inter_self, if_neg hne, sdiff_self, Finset.bot_eq_empty,
    if_pos rfl]
  exact ⟨hl.size, ownedBy_append howned (ownedBy_siMeta rfl rfl), fun _ => .commit_rm h.only howned hrep⟩

theorem SiHolds.commitDeleted (h : SiHolds s kc key S) (hlive : S.live now = S.ids) (hl : SiLayout m S)
    {xs : List UInt64} (hnodup : xs.Nodup) (hsub : xs.toFinset ⊆ S.ids) :
    (commitDeletedMeta kc key m xs.length (xs.map (removeItem kc key))).1 = xs.toFinset.card ∧
      SiLeaves s kc key (commitDeletedMeta kc key m xs.length (xs.map (removeItem kc key))).2
        (S.without now xs.toFinset) := by
  rw [List.toFinset_card_of_nodup hnodup, commitDeletedMeta]
  by_cases hpos : xs.length > 0
  · rw [if_pos hpos]
    have hle : xs.length ≤ S.ids.card := by
      rw [← List.toFinset_card_of_nodup hnodup]
      exact Finset.card_le_card hsub
    have hlt := m.base.size.toNat_lt
    rw [hl.size] at hlt
    refine ⟨rfl, h.removed hlive hl ⟨rfl, rfl, ?_⟩ hnodup hsub (List.ne_nil_of_length_pos hpos)⟩
    rw [SimpleMeta.setSize_base, UInt64.toNat_satSub_ofNat (by omega), hl.size]
  · have hnil : xs = [] := List.length_eq_zero_iff.mp (by omega)
    rw [if_neg hpos, hnil, List.toFinset_nil, IdSet.without_of_inter (Finset.inter_empty _)]
    exact ⟨rfl, h.leaves_nil⟩

theorem siRemRangeByValue_spec (h : SiHolds s kc key S) (now : UInt64) (spec : SortedintRange) :
    ∃ ops, siRemRangeByValue s kc key now spec = .ok ((IdSet.byValue (S.live now) spec).card, ops) ∧
      SiLeaves s kc key ops (S.without now (IdSet.byValue (S.live now) spec)) := by
  rw [siRemRangeByValue]
  by_cases hempty : spec.isEmptyRange = true
  · rw [if_pos hempty, IdSet.byValue_of_isEmptyRange hempty,
      IdSet.without_of_inter (Finset.inter_empty _)]
    exact ⟨[], rfl, h.leaves_nil⟩
  rw [if_neg hempty]
  rcases h.getSiMeta now with ⟨hdead, hget⟩ | ⟨hlive, hne, m, hget, hl⟩
  · rw [hget, hdead, IdSet.byValue, Finset.filter_empty, IdSet.without_of_inter (Finset.inter_empty _)]
    exact ⟨[], rfl, h.leaves_nil⟩
  · rw [hget]
    simp only [bind, Except.bind]
    by_cases hfull : spec.isFull = true
    · rw [if_pos hfull, IdSet.byValue_of_isFull hfull]
      obtain ⟨hcount, hleaves⟩ := h.cleared hlive hne hl
      exact ⟨_, congrArg Except.ok (Prod.ext hcount rfl), hleaves⟩
    · have hnodup := IdSet.inOrder_nodup (IdSet.byValue S.ids spec)
      have hset : (IdSet.inOrder (IdSet.byValue S.ids spec)).toFinset = IdSet.byValue S.ids spec :=
        Finset.sort_toFinset _ _
      obtain ⟨hcount, hleaves⟩ := h.commitDeleted hlive hl hnodup
        (hset.symm ▸ Finset.filter_subset _ _)
      have hops : (s.data.range (siRangeBounds (composeSiPrefixStack kc key) spec).1
          (siRangeBounds (composeSiPrefixStack kc key) spec).2).map (fun x => WriteOp.rmWeakData x.1) =
          (IdSet.inOrder (IdSet.byValue S.ids spec)).map (removeItem kc key) := by
        rw [h.rep.value_range, List.map_map]
        rfl
      rw [if_neg hfull, hops, h.rep.value_range, List.length_map]
      rw [hset] at hcount hleaves
      rw [hlive]
      exact ⟨_, congrArg Except.ok (Prod.ext hcount rfl), hleaves⟩

/-! ## Removing a range of ranks -/

theorem foldBreak_siRankStep (kc : KeyComposer) (key : Key) (start stop : ℕ) (xs : List UInt64)
    (i n : ℕ) (ops : Batch) :
    (foldBreak (siRankStep (composeSiPrefixStack kc key) start stop) (i, n, ops)
      (xs.map (itemEntry kc key))).2 =
      (n + ((xs.drop (start - i)).take (stop + 1 - max i start)).length,
        ops ++ ((xs.drop (start - i)).take (stop + 1 - max i start)).map (removeItem kc key)) := by
  induction xs generalizing i n ops with
  | nil => simp [foldBreak]
  | cons id xs ih =>
    have hpre : composeSiPrefixStack kc key <+: (itemEntry kc key id).1 := List.prefix_append _ _
    rw [List.map_cons, foldBreak, siRankStep, if_neg (not_not.mpr hpre)]
    dsimp only
    by_cases hstop : i > stop
    · have hzero : stop + 1 - max i start = 0 := by omega
      rw [if_pos hstop, hzero, List.take_zero, List.map_nil, List.append_nil]
      rfl
    · rw [if_neg hstop]
      by_cases hge : i ≥ start
      · have hdrop : start - i = 0 := Nat.sub_eq_zero_of_le hge
        have hdrop' : start - (i + 1) = 0 := by omega
        have htake : stop + 1 - max i start = stop + 1 - max (i + 1) start + 1 := by omega
        rw [if_pos hge]
        simp only [if_true]
        rw [ih, hdrop, hdrop', htake, List.drop_zero, List.drop_zero, List.take_succ_cons,
          List.length_cons, List.map_cons, List.append_assoc, List.singleton_append,
          Nat.add_right_comm, Nat.add_assoc]
        rfl
      · have hdrop : start - i = start - (i + 1) + 1 := by omega
        have htake : max (i + 1) start = max i start := by omega
        rw [if_neg hge]
        simp only [if_true]
        rw [ih, hdrop, htake, List.drop_succ_cons]

theorem IdSet.rankBetween_iff {n r : ℕ} (hr : r < n) (start stop : Int64) :
    rankBetween n start stop r ↔ (normalizeRange start.toInt stop.toInt n).1 ≤ r ∧
      (r : ℤ) ≤ (normalizeRange start.toInt stop.toInt n).2 := by
  rw [rankBetween, normalizeRange, if_neg (show ¬(n : ℤ) ≤ 0 by omega)]
  dsimp only
  generalize (if start.toInt < 0 then (n : ℤ) + start.toInt else start.toInt) = a
  generalize (if stop.toInt < 0 then (n : ℤ) + stop.toInt else stop.toInt) = b
  refine and_congr ?_ ?_
  · by_cases ha : a < 0
    · rw [if_pos ha]
      omega
    · rw [if_neg ha]
  · by_cases hb : b ≥ n
    · rw [if_pos hb]
      omega
    · rw [if_neg hb]

theorem normalizeRange_nonneg (start stop len : ℤ) : 0 ≤ (normalizeRange start stop len).1 := by
  rw [normalizeRange]
  by_cases hlen : len ≤ 0
  · rw [if_pos hlen]
  · rw [if_neg hlen]
    dsimp only
    generalize (if start < 0 then len + start else start) = a
    by_cases ha : a < 0
    · rw [if_pos ha]
    · rw [if_neg ha]
      omega

theorem siRemRangeByRank_spec (h : SiHolds s kc key S) (hsmall : S.ids.card < 2 ^ 63) (now : UInt64)
    (start stop : Int64) :
    ∃ ops, siRemRangeByRank s kc key now start stop =
        .ok ((IdSet.byRank (S.live now) start stop).card, ops) ∧
      SiLeaves s kc key ops (S.without now (IdSet.byRank (S.live now) start stop)) := by
  rw [siRemRangeByRank]
  rcases h.getSiMeta now with ⟨hdead, hget⟩ | ⟨hlive, hne, m, hget, hl⟩
  · rw [hget, hdead, IdSet.byRank, Finset.filter_empty, IdSet.without_of_inter (Finset.inter_empty _)]
    exact ⟨[], rfl, h.leaves_nil⟩
  have hbyRank : IdSet.byRank S.ids start stop = S.ids.filter fun id =>
      (normalizeRange start.toInt stop.toInt S.ids.card).1 ≤ IdSet.rank S.ids id ∧
        (IdSet.rank S.ids id : ℤ) ≤ (normalizeRange start.toInt stop.toInt S.ids.card).2 :=
    Finset.filter_congr fun id hid => IdSet.rankBetween_iff (IdSet.rank_lt_card hid) start stop
  have hfirst := normalizeRange_nonneg start.toInt stop.toInt S.ids.card
  rw [hget]
  simp only [bind, Except.bind]
  rw [if_neg (hl.size_ne_zero hne), UInt64.asI64_of_lt (hl.size ▸ hsmall), hl.size, hlive]
  generalize normalizeRange start.toInt stop.toInt S.ids.card = r at hbyRank hfirst
  obtain ⟨first, last⟩ := r
  dsimp only at hbyRank hfirst ⊢
  by_cases hgt : first > last
  · have hnone : IdSet.byRank S.ids start stop = ∅ := by
      rw [hbyRank]
      refine Finset.filter_eq_empty_iff.mpr fun id _ hid => ?_
      omega
    rw [if_pos hgt, hnone, IdSet.without_of_inter (Finset.inter_empty _)]
    exact ⟨[], rfl, h.leaves_nil⟩
  rw [if_neg hgt]
  by_cases hall : first.toNat = 0 ∧ last.toNat + 1 ≥ S.ids.card
  · have hwhole : IdSet.byRank S.ids start stop = S.live now := by
      rw [hbyRank, hlive]
      refine Finset.filter_true_of_mem fun id hid => ?_
      have hlt := IdSet.rank_lt_card hid
      omega
    obtain ⟨hcount, hleaves⟩ := h.cleared hlive hne hl
    rw [if_pos hall, hwhole]
    exact ⟨_, congrArg Except.ok (Prod.ext hcount rfl), hleaves⟩
  · have hlist : (((IdSet.inOrder S.ids).drop (first.toNat - 0)).take
        (last.toNat + 1 - max 0 first.toNat)) = IdSet.inOrder (IdSet.byRank S.ids start stop) := by
      rw [Nat.sub_zero, IdSet.take_drop_inOrder, hbyRank]
      refine congrArg IdSet.inOrder (Finset.filter_congr fun id _ => ?_)
      omega
    have hwalk := foldBreak_siRankStep kc key first.toNat last.toNat (IdSet.inOrder S.ids) 0 0 []
    rw [hlist, Nat.zero_add, List.nil_append, ← h.rep.prefixed] at hwalk
    obtain ⟨hn, hops⟩ := Prod.ext_iff.mp hwalk
    have hset : (IdSet.inOrder (IdSet.byRank S.ids start stop)).toFinset = IdSet.byRank S.ids start stop :=
      Finset.sort_toFinset _ _
    obtain ⟨hcount, hleaves⟩ := h.commitDeleted hlive hl
      (IdSet.inOrder_nodup (IdSet.byRank S.ids start stop)) (hset.symm ▸ Finset.filter_subset _ _)
    rw [hset] at hcount hleaves
    rw [if_neg hall, hn, hops]
    exact ⟨_, congrArg Except.ok (Prod.ext hcount rfl), hleaves⟩

end Wedb
