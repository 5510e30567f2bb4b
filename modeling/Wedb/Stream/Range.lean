import Wedb.Stream.Commands

/-!
# Ranges of a stream

A query between two ids returns the entries between them in increasing order,
whether it is cut short by the recorded bounds, reads one entry or scans.
-/

namespace Wedb

variable {s : Store} {kc : KeyComposer} {key : Key} {m : StreamMeta} {xs : EntryLog}
  {now : UInt64} {id lastId start stop : StreamId}

def entryOf (x : StreamId × Bytes) : StreamEntry := (x.1, (decodeStreamEntryFields x.2).getD [])

def EntryLog.between (xs : EntryLog) (start stop : StreamId) : EntryLog :=
  xs.filter fun x => decide (start ≤ x.1) && decide (x.1 ≤ stop)

theorem mem_between {x : StreamId × Bytes} :
    x ∈ xs.between start stop ↔ x ∈ xs ∧ start ≤ x.1 ∧ x.1 ≤ stop := by
  rw [EntryLog.between, List.mem_filter, Bool.and_eq_true, decide_eq_true_eq, decide_eq_true_eq]

theorem between_eq_nil (h : ∀ x ∈ xs, start ≤ x.1 → ¬x.1 ≤ stop) : xs.between start stop = [] :=
  List.eq_nil_iff_forall_not_mem.mpr fun x hx => by
    obtain ⟨hmem, hlo, hhi⟩ := mem_between.mp hx
    exact h x hmem hlo hhi

theorem rangeEntries_eq (hlog : LogIn encodeId xs (s.family kc key .streamData))
    (start stop : StreamId) : rangeEntries s kc key start stop = xs.between start stop := by
  have hrange : (SortedMap.under (streamPrefix kc key) s.data).range (.included (encodeId start))
      (.included (encodeId stop)) = (xs.between start stop).map fun x => (encodeId x.1, x.2) :=
    hlog.range_eq encodeId_strictMono start stop
  rw [rangeEntries, streamItem_eq_join, streamItem_eq_join, SortedMap.range_append, hrange,
    List.map_map, List.filterMap_map]
  rw [← List.filterMap_some (l := xs.between start stop)]
  refine (List.filterMap_congr fun x _ => ?_).trans (by rw [List.filterMap_some])
  simp only [Function.comp_apply, parse_drop_prefix, Option.map_some]

theorem rangeScan_eq {options : StreamRange} (hcount : options.count = none)
    (hin : ∀ x ∈ xs, rangeSkips options x.1 = false ∧ rangeEnds options x.1 = false)
    (results : List StreamEntry) : rangeScan options xs results = results ++ xs.map entryOf := by
  induction xs generalizing results with
  | nil => exact (List.append_nil _).symm
  | cons x xs ih =>
    obtain ⟨hskip, hend⟩ := hin x (by simp)
    rw [rangeScan, hskip, hend, hcount]
    simp only [Bool.false_eq_true, if_false, Option.all_none, if_true]
    rw [ih (fun y hy => hin y (List.mem_cons_of_mem _ hy)), List.append_assoc]
    rfl

theorem getStreamEntry_eq (hlog : LogIn encodeId xs (s.family kc key .streamData)) (id : StreamId) :
    (getStreamEntry s kc key id).toList = (xs.between id id).map entryOf := by
  have hs := hlog.sorted encodeId_strictMono
  have hget : s.data.get (streamItem kc key id) = (s.family kc key .streamData).get (encodeId id) := by
    rw [Store.get_family, streamItem_eq_phys]
    rfl
  rw [getStreamEntry, hget]
  cases hv : (s.family kc key .streamData).get (encodeId id) with
  | none =>
    rw [between_eq_nil]
    · rfl
    · intro x hx hlo hhi
      obtain rfl := le_antisymm hhi hlo
      have hsome := (hlog.get_eq_some encodeId_strictMono).mpr hx
      rw [hv] at hsome
      cases hsome
  | some v =>
    have hmem := (hlog.get_eq_some encodeId_strictMono).mp hv
    have hone : xs.between id id = [(id, v)] := by
      have hsingle : [(id, v)].Pairwise fun x y : StreamId × Bytes => x.1 < y.1 :=
        List.pairwise_singleton _ _
      refine SortedMap.eq_of_mem_iff (hs.filter _) hsingle fun x => ?_
      rw [List.mem_singleton, mem_between]
      constructor
      · rintro ⟨hx, hlo, hhi⟩
        obtain rfl := le_antisymm hhi hlo
        have hsome := (hlog.get_eq_some encodeId_strictMono).mpr hx
        rw [hv, Option.some.injEq] at hsome
        rw [hsome]
      · rintro rfl
        exact ⟨hmem, le_rfl, le_rfl⟩
    rw [hone]
    rfl

theorem StreamLayout.first_le (h : StreamLayout m xs) (hs : xs.Pairwise fun x y => x.1 < y.1) :
    ∀ x ∈ xs, m.firstEntryId ≤ x.1 := by
  intro x hx
  cases xs with
  | nil => cases hx
  | cons y ys =>
    rw [← h.first y rfl]
    rcases List.mem_cons.mp hx with rfl | hx
    · exact le_rfl
    · exact ((List.pairwise_cons.mp hs).1 x hx).le

theorem StreamLayout.le_last (h : StreamLayout m xs) (hs : xs.Pairwise fun x y => x.1 < y.1) :
    ∀ x ∈ xs, x.1 ≤ m.lastEntryId := by
  intro x hx
  rcases List.eq_nil_or_concat xs with rfl | ⟨ys, y, rfl⟩
  · cases hx
  · rw [List.concat_eq_append] at hx hs h
    rw [← h.last y (by simp)]
    rcases List.mem_append.mp hx with hx | hx
    · exact ((List.pairwise_append.mp hs).2.2 x hx y (by simp)).le
    · rw [List.mem_singleton.mp hx]

theorem streamRange_spec (h : StreamHolds s kc key xs lastId) (now : UInt64) (start stop : StreamId) :
    streamRange s kc key now start stop none = .ok ((xs.between start stop).map entryOf) := by
  rw [streamRange, streamRangeWithOptions]
  simp only [Bool.false_and, Bool.false_eq_true, if_false, reduceCtorEq, Bool.not_false, Bool.true_and,
    Bool.or_false, decide_eq_true_eq]
  by_cases hlt : stop < start
  · rw [if_pos hlt, between_eq_nil]
    · rfl
    · exact fun x _ hlo hhi => absurd (hlo.trans hhi) (not_le.mpr hlt)
  · rw [if_neg hlt]
    rcases h.lookup now with ⟨hget, -, -, rfl, -⟩ | ⟨m, hget, hl, hlog, rfl⟩
    · rw [hget]
      rfl
    · have hs := hlog.sorted encodeId_strictMono
      rw [hget]
      simp only [bind, Except.bind]
      by_cases hzero : m.base.size = 0
      · rw [if_pos hzero]
        rw [hl.size_eq_zero] at hzero
        subst hzero
        rfl
      · rw [if_neg hzero]
        by_cases hout : (decide (m.lastEntryId < start) || decide (stop < m.firstEntryId)) = true
        · rw [if_pos hout, between_eq_nil]
          · rfl
          · rw [Bool.or_eq_true, decide_eq_true_eq, decide_eq_true_eq] at hout
            intro x hx hlo hhi
            rcases hout with hout | hout
            · exact absurd (hlo.trans (hl.le_last hs x hx)) (not_le.mpr hout)
            · exact absurd ((hl.first_le hs x hx).trans hhi) (not_le.mpr hout)
        · rw [if_neg hout]
          by_cases hpoint : start = stop
          · subst hpoint
            rw [if_pos rfl, getStreamEntry_eq hlog]
            rfl
          · rw [if_neg hpoint, rangeEntries_eq hlog, rangeScan_eq rfl]
            · rfl
            · intro x hx
              refine ⟨rfl, ?_⟩
              rw [rangeEnds]
              simp only [Bool.false_eq_true, if_false, Bool.false_and, Bool.false_or,
                decide_eq_false_iff_not, not_lt]
              exact (mem_between.mp hx).2.2

theorem streamRange_all (h : StreamHolds s kc key xs lastId) (now : UInt64) :
    streamRange s kc key now .min .max none = .ok (xs.map entryOf) := by
  rw [streamRange_spec h]
  congr 2
  refine List.filter_eq_self.mpr fun x hx => ?_
  rw [Bool.and_eq_true, decide_eq_true_eq, decide_eq_true_eq]
  refine ⟨StreamId.min_le _, ?_⟩
  rcases h.lookup now with ⟨-, -, -, rfl, -⟩ | ⟨m, -, hl, -, rfl⟩
  · cases hx
  · exact (hl.bounded x hx).trans hl.within

end Wedb
