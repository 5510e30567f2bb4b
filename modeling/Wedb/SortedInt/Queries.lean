import Wedb.SortedInt.Ranges

/-!
# What the queries of a set answer

Each query looks the metadata up, finds no set where it is absent or expired, and
otherwise reads off the stored keys what the finite set answers.
-/

namespace Wedb

variable {s : Store} {kc : KeyComposer} {key : Key} {S : IdSet} {X : Finset UInt64}
  {now : UInt64} {pre : Bytes}

theorem siCard_spec (h : SiHolds s kc key S) (now : UInt64) :
    ∃ size, siCard s kc key now = .ok size ∧ size.toNat = (S.live now).card := by
  rcases h.getSiMeta now with ⟨hdead, hget⟩ | ⟨hlive, -, m, hget, hl⟩
  · refine ⟨0, ?_, by rw [hdead]; rfl⟩
    rw [siCard, hget]
    rfl
  · refine ⟨m.base.size, ?_, hlive ▸ hl.size⟩
    rw [siCard, hget]
    rfl

theorem siExists_spec (h : SiHolds s kc key S) (now id : UInt64) :
    siExists s kc key now id = .ok (decide (id ∈ S.live now)) := by
  rcases h.getSiMeta now with ⟨hdead, hget⟩ | ⟨hlive, -, m, hget, -⟩
  · rw [siExists, hget, hdead, decide_eq_false (Finset.notMem_empty id)]
    rfl
  · rw [siExists, hget, hlive]
    refine congrArg Except.ok ?_
    rw [composeSiKey_eq, contains_itemKey h.rep]

theorem siMexist_spec (h : SiHolds s kc key S) (now : UInt64) (ids : List UInt64) :
    siMexist s kc key now ids = .ok (ids.map fun id => decide (id ∈ S.live now)) := by
  rw [siMexist]
  by_cases hnil : ids = []
  · rw [if_pos hnil, hnil]
    rfl
  rw [if_neg hnil]
  rcases h.getSiMeta now with ⟨hdead, hget⟩ | ⟨hlive, -, m, hget, -⟩
  · rw [hget, hdead]
    refine congrArg Except.ok (List.map_congr_left fun id _ => ?_)
    exact (decide_eq_false (Finset.notMem_empty id)).symm
  · rw [hget, hlive]
    exact congrArg Except.ok (List.map_congr_left fun id _ => contains_itemKey h.rep id)

theorem foldBreak_siMembersStep (acc xs : List UInt64) :
    foldBreak (siMembersStep (composeSiPrefixStack kc key)) acc (xs.map (itemEntry kc key)) = acc ++ xs := by
  induction xs generalizing acc with
  | nil => exact (List.append_nil acc).symm
  | cons id xs ih =>
    have hstep : siMembersStep (composeSiPrefixStack kc key) acc (itemEntry kc key id) =
        (acc ++ [id], true) := by
      have hpre : composeSiPrefixStack kc key <+: (itemEntry kc key id).1 := List.prefix_append _ _
      rw [siMembersStep, if_neg (not_not.mpr hpre), itemEntry, extractId_itemKey]
    rw [List.map_cons, foldBreak, hstep, if_pos rfl, ih, List.append_assoc, List.singleton_append]

theorem siMembers_spec (h : SiHolds s kc key S) (now : UInt64) :
    siMembers s kc key now = .ok (IdSet.inOrder (S.live now)) := by
  rcases h.getSiMeta now with ⟨hdead, hget⟩ | ⟨hlive, hne, m, hget, hl⟩
  · have hnil : IdSet.inOrder ∅ = [] := Finset.sort_empty (· ≤ ·)
    rw [siMembers, hget, hdead, hnil]
    rfl
  · have hpos : m.base.size > 0 := UInt64.pos_iff_ne_zero.mpr (hl.size_ne_zero hne)
    rw [siMembers, hget, hlive]
    simp only [Except.map]
    rw [if_pos hpos, h.rep.prefixed, foldBreak_siMembersStep, List.nil_append]

/-! ## Windows -/

theorem siScanEntry_itemEntry (offset : ℕ) (count : Option ℕ) (st : ℕ × List UInt64) (id : UInt64) :
    siScanEntry (composeSiPrefixStack kc key).length offset count st (itemEntry kc key id) =
      windowStep (fun id => id) offset count st id := by
  rw [siScanEntry, itemEntry, extractId_itemKey, windowStep]
  dsimp only
  by_cases hlt : st.1 < offset
  · rw [if_pos hlt, if_pos hlt]
  · rw [if_neg hlt, if_neg hlt]
    cases count with
    | none => rfl
    | some n =>
      simp only [Option.any_some, Option.all_some, List.length_append, List.length_singleton, ge_iff_le,
        ← decide_not, not_le]

theorem foldBreak_siScanEntry {offset : ℕ} {count : Option ℕ} (hcount : count ≠ some 0)
    (xs : List UInt64) :
    (foldBreak (siScanEntry (composeSiPrefixStack kc key).length offset count) (0, [])
      (xs.map (itemEntry kc key))).2 = sliceWindow offset count xs := by
  rw [foldBreak_map, foldBreak_congr (fun st id _ => siScanEntry_itemEntry offset count st id) (0, []),
    foldBreak_slice _ offset hcount, List.map_id']

theorem siRangeByValue_spec (h : SiHolds s kc key S) (now : UInt64) (spec : SortedintRange) :
    siRangeByValue s kc key now spec = .ok (sliceWindow spec.offset spec.count
      (if spec.reversed then (IdSet.inOrder (IdSet.byValue (S.live now) spec)).reverse
        else IdSet.inOrder (IdSet.byValue (S.live now) spec))) := by
  have hnil : ∀ b : Bool, sliceWindow spec.offset spec.count
      (if b then (IdSet.inOrder ∅).reverse else IdSet.inOrder ∅) = [] := by
    intro b
    refine sliceWindow_eq_nil.mpr (Or.inr ?_)
    cases b <;> simp
  rw [siRangeByValue]
  by_cases hempty : spec.isEmptyRange = true
  · rw [if_pos hempty, IdSet.byValue_of_isEmptyRange hempty, hnil]
  rw [if_neg hempty]
  by_cases hcount : spec.count = some 0
  · rw [if_pos hcount, hcount]
    rfl
  rw [if_neg hcount]
  rcases h.getSiMeta now with ⟨hdead, hget⟩ | ⟨hlive, -, m, hget, -⟩
  · rw [hget, hdead, IdSet.byValue, Finset.filter_empty, hnil]
    rfl
  · rw [hget, hlive]
    simp only [Except.map]
    rw [h.rep.value_range]
    refine congrArg Except.ok ?_
    by_cases hrev : spec.reversed = true
    · simp only [hrev, Bool.not_true, Bool.false_eq_true, if_false, if_true]
      rw [← List.map_reverse, foldBreak_siScanEntry hcount]
    · simp only [hrev, Bool.not_false, Bool.false_eq_true, if_false, if_true]
      rw [foldBreak_siScanEntry hcount]

theorem siRevRangeByValue_spec (h : SiHolds s kc key S) (now : UInt64) (spec : SortedintRange) :
    siRevRangeByValue s kc key now spec = .ok (sliceWindow spec.offset spec.count
      (IdSet.inOrder (IdSet.byValue (S.live now) spec)).reverse) :=
  siRangeByValue_spec h now { spec with reversed := true }

theorem siProcessEntry_itemEntry (cursor : UInt64) (offset limit : ℕ) (st : ℕ × List UInt64)
    (id : UInt64) :
    siProcessEntry (composeSiPrefixStack kc key).length cursor offset limit st (itemEntry kc key id) =
      if !decide (cursor > 0 ∧ id = cursor) then windowStep (fun id => id) offset (some limit) st id
      else (st, true) := by
  rw [siProcessEntry, itemEntry, extractId_itemKey, windowStep]
  dsimp only
  by_cases hcursor : cursor > 0 ∧ id = cursor
  · simp [hcursor]
  · simp only [hcursor, if_false, decide_false, Bool.not_false, if_true, Option.all_some,
      List.length_append, List.length_singleton, ge_iff_le, ← decide_not, not_le]

theorem foldBreak_siProcessEntry (cursor : UInt64) {offset limit : ℕ} (hlimit : limit ≠ 0)
    (xs : List UInt64) :
    (foldBreak (siProcessEntry (composeSiPrefixStack kc key).length cursor offset limit) (0, [])
      (xs.map (itemEntry kc key))).2 =
      sliceWindow offset (some limit) (xs.filter fun id => !decide (cursor > 0 ∧ id = cursor)) := by
  rw [foldBreak_map,
    foldBreak_congr (fun st id _ => siProcessEntry_itemEntry cursor offset limit st id) (0, []),
    foldBreak_filter, foldBreak_slice _ offset (by simpa using hlimit), List.map_id']

theorem SiRep.between (h : SiRep s kc key X) (a b : UInt64) :
    s.data.range (.included (composeSiItemKey (composeSiPrefixStack kc key) a))
        (.included (composeSiItemKey (composeSiPrefixStack kc key) b)) =
      (IdSet.inOrder (X.filter fun id => a ≤ id ∧ id ≤ b)).map (itemEntry kc key) := by
  have hrange := h.value_range ⟨a, b, false, false, 0, none, false⟩
  have hset : IdSet.byValue X ⟨a, b, false, false, 0, none, false⟩ =
      X.filter fun id => a ≤ id ∧ id ≤ b := Finset.filter_congr fun id _ => SortedintRange.contains_iff
  rw [hset] at hrange
  exact hrange

theorem siRange_spec (h : SiHolds s kc key S) (now cursor : UInt64) (offset limit : ℕ)
    (reversed : Bool) : siRange s kc key now cursor offset limit reversed =
      .ok (sliceWindow offset (some limit) (IdSet.pastCursor (S.live now) cursor reversed)) := by
  have hmax : ∀ id : UInt64, id ≤ UInt64.maxVal := fun id => by
    have hid := id.toNat_lt
    rw [UInt64.le_iff_toNat_le, UInt64.toNat_maxVal]
    omega
  have hmin : ∀ id : UInt64, 0 ≤ id := fun id => by
    rw [UInt64.le_iff_toNat_le]
    exact Nat.zero_le _
  rw [siRange]
  by_cases hlimit : limit = 0
  · rw [if_pos hlimit, hlimit]
    rfl
  rw [if_neg hlimit]
  rcases h.getSiMeta now with ⟨hdead, hget⟩ | ⟨hlive, -, m, hget, -⟩
  · rw [hget, hdead, IdSet.pastCursor, Finset.filter_empty, Finset.filter_empty]
    refine congrArg Except.ok (sliceWindow_eq_nil.mpr (Or.inr ?_)).symm
    cases reversed <;> simp
  · rw [hget, hlive]
    simp only [Except.map]
    refine congrArg Except.ok ?_
    cases reversed with
    | false =>
      simp only [Bool.not_false, if_true]
      rw [h.rep.between, foldBreak_siProcessEntry cursor hlimit, IdSet.pastCursor, if_neg (by simp)]
      refine congrArg (sliceWindow offset (some limit)) ?_
      refine IdSet.eq_of_lt_of_mem_iff ((IdSet.inOrder_lt _).filter _) (IdSet.inOrder_lt _) fun id => ?_
      simp only [List.mem_filter, IdSet.mem_inOrder, Finset.mem_filter, Bool.not_eq_true',
        decide_eq_false_iff_not, not_and]
      constructor
      · intro h'
        obtain ⟨⟨hid, hge, _⟩, hne⟩ := h'
        refine ⟨hid, ?_⟩
        by_cases hzero : cursor = 0
        · exact Or.inl hzero
        · exact Or.inr (UInt64.lt_of_le_of_ne hge fun he =>
            hne (UInt64.pos_iff_ne_zero.mpr hzero) he.symm)
      · intro h'
        obtain ⟨hid, hpast⟩ := h'
        refine ⟨⟨hid, ?_, hmax id⟩, fun hpos he => ?_⟩
        · rcases hpast with rfl | hlt
          · exact hmin id
          · exact UInt64.le_of_lt hlt
        · rcases hpast with rfl | hlt
          · exact absurd hpos (UInt64.lt_irrefl 0)
          · rw [he] at hlt
            exact absurd hlt (UInt64.lt_irrefl cursor)
    | true =>
      simp only [Bool.not_true, Bool.false_eq_true, if_false]
      rw [h.rep.between, ← List.map_reverse, foldBreak_siProcessEntry cursor hlimit, IdSet.pastCursor,
        if_pos rfl, List.filter_reverse]
      refine congrArg (fun xs : List UInt64 => sliceWindow offset (some limit) xs.reverse) ?_
      refine IdSet.eq_of_lt_of_mem_iff ((IdSet.inOrder_lt _).filter _) (IdSet.inOrder_lt _) fun id => ?_
      simp only [List.mem_filter, IdSet.mem_inOrder, Finset.mem_filter, Bool.not_eq_true',
        decide_eq_false_iff_not, not_and]
      by_cases hzero : cursor = 0
      · simp [hzero, hmin id, hmax id]
      · simp only [hzero, if_false, hmin id, true_and, false_or]
        constructor
        · intro h'
          obtain ⟨⟨hid, hle⟩, hne⟩ := h'
          exact ⟨hid, UInt64.lt_of_le_of_ne hle (hne (UInt64.pos_iff_ne_zero.mpr hzero))⟩
        · intro h'
          obtain ⟨hid, hlt⟩ := h'
          exact ⟨⟨hid, UInt64.le_of_lt hlt⟩, fun _ => UInt64.ne_of_lt hlt⟩

/-! ## Ranks and counts -/

theorem siRank_spec (h : SiHolds s kc key S) (now id : UInt64) :
    siRank s kc key now id =
      .ok (if id ∈ S.live now then some (IdSet.rank (S.live now) id) else none) := by
  rcases h.getSiMeta now with ⟨hdead, hget⟩ | ⟨hlive, -, m, hget, -⟩
  · rw [siRank, hget, hdead, if_neg (Finset.notMem_empty id)]
    rfl
  · rw [siRank, hget, hlive]
    simp only [Except.map]
    rw [contains_itemKey h.rep]
    refine congrArg Except.ok ?_
    by_cases hmem : id ∈ S.ids
    · have hrange := h.rep.value_range ⟨0, id, false, true, 0, none, false⟩
      have hset : IdSet.byValue S.ids ⟨0, id, false, true, 0, none, false⟩ = S.ids.filter (· < id) := by
        refine Finset.filter_congr fun a _ => ?_
        rw [SortedintRange.contains_iff]
        simp [UInt64.le_iff_toNat_le]
      rw [hset] at hrange
      have hlen := congrArg List.length hrange
      rw [List.length_map, IdSet.length_inOrder] at hlen
      rw [if_pos hmem, decide_eq_true hmem]
      exact congrArg some hlen
    · rw [if_neg hmem, decide_eq_false hmem]
      rfl

theorem siRevrank_spec (h : SiHolds s kc key S) (now id : UInt64) :
    siRevrank s kc key now id =
      .ok (if id ∈ S.live now then some (IdSet.revrank (S.live now) id) else none) := by
  rw [siRevrank]
  rcases h.getSiMeta now with ⟨hdead, hget⟩ | ⟨hlive, -, m, hget, hl⟩
  · rw [hget, hdead, if_neg (Finset.notMem_empty id)]
    rfl
  · rw [hget]
    simp only [bind, Except.bind]
    rw [siRank_spec h, hlive]
    refine congrArg Except.ok ?_
    by_cases hmem : id ∈ S.ids
    · have hsum := IdSet.rank_add_revrank hmem
      rw [if_pos hmem, if_pos hmem, Option.map_some, hl.size]
      refine congrArg some ?_
      omega
    · rw [if_neg hmem, if_neg hmem]
      rfl

theorem siCount_spec (h : SiHolds s kc key S) (now : UInt64) (spec : SortedintRange) :
    siCount s kc key now spec = .ok (IdSet.byValue (S.live now) spec).card := by
  rw [siCount]
  by_cases hempty : spec.isEmptyRange = true
  · rw [if_pos hempty, IdSet.byValue_of_isEmptyRange hempty]
    rfl
  rw [if_neg hempty]
  rcases h.getSiMeta now with ⟨hdead, hget⟩ | ⟨hlive, -, m, hget, hl⟩
  · rw [hget, hdead, IdSet.byValue, Finset.filter_empty]
    rfl
  · rw [hget, hlive]
    simp only [Except.map]
    refine congrArg Except.ok ?_
    by_cases hfull : spec.isFull = true
    · rw [if_pos hfull, IdSet.byValue_of_isFull hfull, hl.size]
    · rw [if_neg hfull, h.rep.value_range, List.length_map, IdSet.length_inOrder]

end Wedb
