import Wedb.ZSet.Bands

/-!
# Range commands are exact

Each walk over a range visits the members between its bounds that pass the check,
in index order or against it; leaving off early loses nothing, since what follows
lies outside the range too. The commands are therefore exact where no member in
range lies outside the bounds.
-/

universe u

namespace Wedb

def reached (kc : KeyComposer) (key : Key) (spec : RangeScore) (M : ZMembers) :
    List ZSetMemberScore :=
  let bounds := scoreRangeBounds (composeZsetScorePrefix kc key) spec
  inScores spec (M.ranked.filter fun x => bounds.1.startsAt (composeZsetScoreKey kc key x.2 x.1) &&
    bounds.2.endsAt (composeZsetScoreKey kc key x.2 x.1))

variable {s : Store} {kc : KeyComposer} {key : Key} {M : ZMembers} {now : UInt64} {m : ZSetMeta}
  {spec : RangeScore} {lex : RangeLex} {xs : List ZSetMemberScore}

/-! ## Leaving off early -/

/-- A list of members in the order of the score index. -/
abbrev Ascending (xs : List ZSetMemberScore) : Prop :=
  xs.Pairwise fun x y => x.2.order ≤ y.2.order

theorem ZMembers.ascending_ranked (M : ZMembers) : Ascending M.ranked :=
  (sorted_byIndex encodeSortableF64_delimited M).imp fun h => order_le_of_indexKey_lt h

theorem filter_upTo_max (hmax : spec.max.isNan = false) (hnum : ∀ x ∈ xs, x.2.isNan = false)
    (hxs : Ascending xs) :
    (xs.takeWhile fun x => !(spec.maxex && spec.max.le x.2 || spec.max.lt x.2)).filter
      (fun x => spec.check x.2) = inScores spec xs := by
  have hstop : ∀ x ∈ xs, (spec.maxex && spec.max.le x.2 || spec.max.lt x.2) = true ↔
      spec.maxex = true ∧ spec.max.order ≤ x.2.order ∨ spec.max.order < x.2.order := fun x hx => by
    rw [Bool.or_eq_true, Bool.and_eq_true, F64.le_iff hmax (hnum x hx), F64.lt_iff hmax (hnum x hx)]
  refine filter_takeWhile (hxs.imp_of_mem fun {x y} hx hy hxy hs => ?_) fun x hx hcheck => ?_
  · rw [hstop x hx] at hs
    rw [hstop y hy]
    exact hs.imp (fun h => ⟨h.1, h.2.trans hxy⟩) fun h => h.trans_le hxy
  · rw [← Bool.not_eq_true, hstop x hx]
    rw [RangeScore.check, Bool.and_eq_true, RangeScore.maxOk] at hcheck
    rintro (⟨hex, hge⟩ | hgt)
    · rw [if_pos hex, F64.lt_iff (hnum x hx) hmax] at hcheck
      omega
    · split_ifs at hcheck
      · rw [F64.lt_iff (hnum x hx) hmax] at hcheck
        omega
      · rw [F64.le_iff (hnum x hx) hmax] at hcheck
        omega

theorem filter_downTo_min (hmin : spec.min.isNan = false) (hnum : ∀ x ∈ xs, x.2.isNan = false)
    (hxs : Ascending xs) :
    (xs.reverse.takeWhile fun x => !(spec.minex && x.2.le spec.min || x.2.lt spec.min)).filter
      (fun x => spec.check x.2) = (inScores spec xs).reverse := by
  have hstop : ∀ x ∈ xs, (spec.minex && x.2.le spec.min || x.2.lt spec.min) = true ↔
      spec.minex = true ∧ x.2.order ≤ spec.min.order ∨ x.2.order < spec.min.order := fun x hx => by
    rw [Bool.or_eq_true, Bool.and_eq_true, F64.le_iff (hnum x hx) hmin, F64.lt_iff (hnum x hx) hmin]
  rw [inScores, ← List.filter_reverse]
  refine filter_takeWhile ((List.pairwise_reverse.mpr hxs).imp_of_mem fun {x y} hx hy hxy hs => ?_)
    fun x hx hcheck => ?_
  · rw [List.mem_reverse] at hx hy
    rw [hstop x hx] at hs
    rw [hstop y hy]
    exact hs.imp (fun h => ⟨h.1, hxy.trans h.2⟩) fun h => hxy.trans_lt h
  · rw [List.mem_reverse] at hx
    rw [← Bool.not_eq_true, hstop x hx]
    rw [RangeScore.check, Bool.and_eq_true, RangeScore.minOk] at hcheck
    rintro (⟨hex, hge⟩ | hgt)
    · rw [if_pos hex, F64.lt_iff hmin (hnum x hx)] at hcheck
      omega
    · split_ifs at hcheck
      · rw [F64.lt_iff hmin (hnum x hx)] at hcheck
        omega
      · rw [F64.le_iff hmin (hnum x hx)] at hcheck
        omega

theorem filter_upTo_name (hxs : xs.Pairwise fun x y => x.1 < y.1) :
    ((xs.filter fun x => lex.check x.1).takeWhile fun x =>
      !(!lex.maxInfinite && (lex.maxex && decide (lex.max ≤ x.1) ||
        !lex.maxex && decide (lex.max < x.1)))).filter (fun x => lex.check x.1) = inNames lex xs := by
  rw [filter_takeWhile, List.filter_filter]
  · simp only [Bool.and_self]
    rfl
  · refine (hxs.filter _).imp fun {x y} hxy hs => ?_
    simp only [Bool.and_eq_true, Bool.or_eq_true, decide_eq_true_eq] at hs ⊢
    exact ⟨hs.1, hs.2.imp (fun h => ⟨h.1, h.2.trans hxy.le⟩) fun h => ⟨h.1, h.2.trans hxy⟩⟩
  · intro x _ hcheck
    rw [RangeLex.check, Bool.and_eq_true, RangeLex.maxOk] at hcheck
    by_cases hinf : lex.maxInfinite = true
    · rw [hinf]
      rfl
    · by_cases hex : lex.maxex = true
      · rw [if_neg hinf, if_pos hex, decide_eq_true_eq] at hcheck
        simp [hex, hcheck.2]
      · rw [if_neg hinf, if_neg hex, decide_eq_true_eq] at hcheck
        simp [hex, hcheck.2]

theorem filter_downTo_name (hxs : xs.Pairwise fun x y => x.1 < y.1) :
    ((xs.filter fun x => lex.check x.1).reverse.takeWhile fun x =>
      !(!lex.minInfinite && (lex.minex && decide (x.1 ≤ lex.min) ||
        !lex.minex && decide (x.1 < lex.min)))).filter (fun x => lex.check x.1) =
      (inNames lex xs).reverse := by
  rw [filter_takeWhile, List.filter_reverse, List.filter_filter]
  · simp only [Bool.and_self]
    rfl
  · refine (List.pairwise_reverse.mpr (hxs.filter _)).imp fun {x y} hxy hs => ?_
    simp only [Bool.and_eq_true, Bool.or_eq_true, decide_eq_true_eq] at hs ⊢
    exact ⟨hs.1, hs.2.imp (fun h => ⟨h.1, hxy.le.trans h.2⟩) fun h => ⟨h.1, hxy.trans h.2⟩⟩
  · intro x _ hcheck
    rw [RangeLex.check, Bool.and_eq_true, RangeLex.minOk] at hcheck
    by_cases hinf : lex.minInfinite = true
    · rw [hinf]
      rfl
    · by_cases hex : lex.minex = true
      · rw [if_neg hinf, if_pos hex, decide_eq_true_eq] at hcheck
        simp [hex, hcheck.1]
      · rw [if_neg hinf, if_neg hex, decide_eq_true_eq] at hcheck
        simp [hex, hcheck.1]

/-! ## Walks -/

theorem ZSetRep.numbers_ranked (h : ZSetRep s kc key M) {x : ZSetMemberScore} (hx : x ∈ M.ranked) :
    x.2.isNan = false := h.numbers _ _ (ZMembers.mem_ranked.mp hx)

theorem ZSetHolds.ziterRangeByscore {σ : Type u} (h : ZSetHolds s kc key M) (now : UInt64)
    (hspec : spec.isEmpty = false) (hmax : spec.max.isNan = false) (f : σ → Bytes → F64 → σ × Bool)
    (st : σ) : Wedb.ziterRangeByscore s kc key now spec f st =
      .ok (foldBreak (fun st x => f st x.1 x.2) st (reached kc key spec M)) := by
  rw [Wedb.ziterRangeByscore, if_neg (by simp [hspec])]
  rcases h.getZsetMeta now with ⟨h0, hget⟩ | ⟨-, m, hget, -⟩
  · rw [hget, reached, ZMembers.ranked_of_length h0]
    rfl
  · rw [hget]
    simp only [Except.map]
    rw [h.rep.score_range fun k => prefix_of_scoreRangeBounds spec, foldBreak_scoreVisit,
      foldBreak_byScoreVisit, filter_upTo_max hmax (fun x hx => h.rep.numbers_ranked (List.mem_filter.mp hx).1)
        (M.ascending_ranked.filter _)]
    rfl

theorem ZSetHolds.ziterRangeByscoreRev {σ : Type u} (h : ZSetHolds s kc key M) (now : UInt64)
    (hspec : spec.isEmpty = false) (hmin : spec.min.isNan = false) (f : σ → Bytes → F64 → σ × Bool)
    (st : σ) : Wedb.ziterRangeByscoreRev s kc key now spec f st =
      .ok (foldBreak (fun st x => f st x.1 x.2) st (reached kc key spec M).reverse) := by
  rw [Wedb.ziterRangeByscoreRev, if_neg (by simp [hspec])]
  rcases h.getZsetMeta now with ⟨h0, hget⟩ | ⟨-, m, hget, -⟩
  · rw [hget, reached, ZMembers.ranked_of_length h0]
    rfl
  · rw [hget]
    simp only [Except.map]
    rw [h.rep.score_range fun k => prefix_of_scoreRangeBounds spec, ← List.map_reverse,
      foldBreak_scoreVisit, foldBreak_byScoreVisitRev,
      filter_downTo_min hmin (fun x hx => h.rep.numbers_ranked (List.mem_filter.mp hx).1)
        (M.ascending_ranked.filter _)]
    rfl

theorem withScore_encode {σ : Type u} (f : σ → Bytes → F64 → σ × Bool) (st : σ) (k member : Bytes)
    (score : F64) : withScore f st k (encodeSortableF64 score) member = f st member score := by
  rw [withScore, decodeSortableF64Slice_encode]
  rfl

theorem ZSetHolds.ziterRangeBylex {σ : Type u} (h : ZSetHolds s kc key M) (now : UInt64)
    (hspec : lex.isEmpty = false) (f : σ → Bytes → F64 → σ × Bool) (st : σ) :
    Wedb.ziterRangeBylex s kc key now lex f st =
      .ok (foldBreak (fun st x => f st x.1 x.2) st (inNames lex M.entries)) := by
  rw [Wedb.ziterRangeBylex, if_neg (by simp [hspec])]
  rcases h.getZsetMeta now with ⟨h0, hget⟩ | ⟨-, m, hget, -⟩
  · rw [hget, List.length_eq_zero_iff.mp h0]
    rfl
  · rw [hget]
    simp only [Except.map]
    rw [h.rep.member_range fun k => prefix_of_lexRangeBounds lex, foldBreak_memberVisit,
      foldBreak_byLexVisit]
    simp only [startsAt_lexRangeBounds, endsAt_lexRangeBounds, withScore_encode]
    exact congrArg (fun xs => Except.ok (foldBreak _ st xs)) (filter_upTo_name M.sorted)

theorem ZSetHolds.ziterRangeBylexRev {σ : Type u} (h : ZSetHolds s kc key M) (now : UInt64)
    (hspec : lex.isEmpty = false) (f : σ → Bytes → F64 → σ × Bool) (st : σ) :
    Wedb.ziterRangeBylexRev s kc key now lex f st =
      .ok (foldBreak (fun st x => f st x.1 x.2) st (inNames lex M.entries).reverse) := by
  rw [Wedb.ziterRangeBylexRev, if_neg (by simp [hspec])]
  rcases h.getZsetMeta now with ⟨h0, hget⟩ | ⟨-, m, hget, -⟩
  · rw [hget, List.length_eq_zero_iff.mp h0]
    rfl
  · rw [hget]
    simp only [Except.map]
    rw [h.rep.member_range fun k => prefix_of_lexRangeBounds lex, ← List.map_reverse,
      foldBreak_memberVisit, foldBreak_byLexVisitRev]
    simp only [startsAt_lexRangeBounds, endsAt_lexRangeBounds, withScore_encode]
    exact congrArg (fun xs => Except.ok (foldBreak _ st xs)) (filter_downTo_name M.sorted)

theorem limitItem_eq {α : Type u} (g : Bytes → F64 → α) (offset : ℕ) (count : Option ℕ)
    (st : ℕ × List α) (x : ZSetMemberScore) :
    limitItem g offset count st x.1 x.2 = windowStep (fun x => g x.1 x.2) offset count st x := by
  rw [limitItem, windowStep]
  split_ifs
  · rfl
  · cases count with
    | none => rfl
    | some c =>
      simp only [Option.any_some, Option.all_some, List.length_append, List.length_singleton, ge_iff_le,
        ← decide_not, not_le]

theorem foldBreak_limitItem {α : Type u} (g : Bytes → F64 → α) (offset : ℕ) {count : Option ℕ}
    (hcount : count ≠ some 0) (xs : List ZSetMemberScore) :
    (foldBreak (fun st x => limitItem g offset count st x.1 x.2) (0, []) xs).2 =
      sliceWindow offset count (xs.map fun x => g x.1 x.2) := by
  rw [foldBreak_congr (fun st x _ => limitItem_eq g offset count st x) (0, []),
    foldBreak_slice _ offset hcount]
  cases count with
  | none => exact List.map_drop
  | some n => rw [sliceWindow, sliceWindow, List.map_take, List.map_drop]

theorem foldBreak_countItem (xs : List ZSetMemberScore) :
    foldBreak (fun st x => countItem st x.1 x.2) 0 xs = xs.length := by
  have hacc : ∀ n, foldBreak (fun st (x : ZSetMemberScore) => countItem st x.1 x.2) n xs =
      n + xs.length := by
    induction xs with
    | nil => exact fun _ => rfl
    | cons x xs ih =>
      intro n
      rw [foldBreak, countItem, if_pos rfl, ih, List.length_cons, Nat.add_right_comm, Nat.add_assoc]
  rw [hacc, Nat.zero_add]

/-! ## Commands -/

theorem ZSetHolds.zrangebyscore (h : ZSetHolds s kc key M) (now : UInt64)
    (hspec : spec.isEmpty = false) (hmax : spec.max.isNan = false) :
    Wedb.zrangebyscore s kc key now spec =
      .ok (sliceWindow spec.offset spec.count (reached kc key spec M)) := by
  rw [Wedb.zrangebyscore]
  by_cases hcount : spec.count = some 0
  · rw [if_pos (Or.inl hcount), hcount]
    rfl
  · rw [if_neg (by simp [hcount, hspec]), h.ziterRangeByscore now hspec hmax, Except.map,
      foldBreak_limitItem _ _ hcount]
    simp

theorem ZSetHolds.zrevrangebyscore (h : ZSetHolds s kc key M) (now : UInt64)
    (hspec : spec.isEmpty = false) (hmin : spec.min.isNan = false) :
    Wedb.zrevrangebyscore s kc key now spec =
      .ok (sliceWindow spec.offset spec.count (reached kc key spec M).reverse) := by
  have hswap : ¬spec.max.lt spec.min = true := by
    intro hlt
    simp only [F64.lt, Bool.and_eq_true, decide_eq_true_eq] at hlt
    rw [RangeScore.isEmpty, decide_eq_true (F64.totalOrder_lt_of_order_lt hlt.2)] at hspec
    cases hspec
  rw [Wedb.zrevrangebyscore]
  by_cases hcount : spec.count = some 0
  · rw [if_pos (Or.inl hcount), hcount]
    rfl
  · rw [if_neg (by simp [hcount, hspec]), if_neg hswap]
    dsimp only
    rw [h.ziterRangeByscoreRev now hspec hmin, Except.map, foldBreak_limitItem _ _ hcount]
    simp

theorem ZSetHolds.zcount (h : ZSetHolds s kc key M) (now : UInt64) (hspec : spec.isEmpty = false)
    (hmax : spec.max.isNan = false) :
    Wedb.zcount s kc key now spec = .ok (reached kc key spec M).length := by
  rw [Wedb.zcount, if_neg (by simp [hspec]), h.ziterRangeByscore now hspec hmax, foldBreak_countItem]

theorem ZSetHolds.storedMembers_without (h : ZSetHolds s kc key M) (p : ZSetMemberScore → Bool)
    (hxs : ∀ x, x ∈ xs ↔ x ∈ M.entries ∧ p x = true) {t : Store}
    (ht : ZSetHolds t kc key (M.without xs)) :
    storedMembers t kc key = (storedMembers s kc key).filter fun x => !p x := by
  rw [ht.rep.storedMembers_eq, h.rep.storedMembers_eq]
  refine SortedMap.eq_of_mem_iff (M.without xs).sorted (M.sorted.filter _) fun y => ?_
  rw [← SortedMap.get_eq_some, ZMembers.get_without, List.mem_filter, ← SortedMap.get_eq_some,
    Bool.not_eq_true']
  by_cases hy : M.get y.1 = some y.2
  · have hmem : (∃ x ∈ xs, x.1 = y.1) ↔ p y = true := by
      constructor
      · intro ⟨x, hx, hname⟩
        obtain ⟨hmem, hp⟩ := (hxs x).mp hx
        have hscore := SortedMap.get_of_mem hmem
        rw [hname, hy, Option.some.injEq] at hscore
        rwa [Prod.ext (x := x) hname hscore.symm] at hp
      · exact fun hp => ⟨y, (hxs y).mpr ⟨SortedMap.get_eq_some.mp hy, hp⟩, rfl⟩
    by_cases hp : p y = true
    · rw [if_pos (List.mem_map.mpr (hmem.mpr hp)), hp]
      simp
    · rw [if_neg fun hy' => hp (hmem.mp (List.mem_map.mp hy'))]
      simp [hp]
  · refine iff_of_false (fun he => hy ?_) fun he => hy he.1
    split_ifs at he
    exact he

theorem ZSetHolds.removed_of_eq (h : ZSetHolds s kc key M) (hl : ZSetLayout m M) (hxs : M.Has xs)
    (p : ZSetMemberScore → Bool) (hp : ∀ x, x ∈ xs ↔ x ∈ M.entries ∧ p x = true)
    {run : Except Error (ℕ × Batch)}
    (hrun : run = .ok (Wedb.commitDeleted kc key m xs.length (xs.flatMap (removalOps kc key)))) :
    ∃ ops, run = .ok (xs.length, ops) ∧
      storedMembers (s.apply ops) kc key = (storedMembers s kc key).filter fun x => !p x := by
  refine ⟨(Wedb.commitDeleted kc key m xs.length (xs.flatMap (removalOps kc key))).2, ?_,
    h.storedMembers_without p hp (h.commitDeleted hl hxs).2⟩
  rw [hrun, Wedb.commitDeleted]
  split_ifs <;> rfl

theorem ZSetHolds.removed_nil (h : ZSetHolds s kc key M) (p : ZSetMemberScore → Bool)
    (hp : ∀ x ∈ M.entries, ¬p x = true) {run : Except Error (ℕ × Batch)} (hrun : run = .ok (0, [])) :
    ∃ ops, run = .ok (0, ops) ∧
      storedMembers (s.apply ops) kc key = (storedMembers s kc key).filter fun x => !p x := by
  refine ⟨[], hrun, ?_⟩
  rw [Store.apply_nil, h.rep.storedMembers_eq]
  refine (List.filter_eq_self.mpr fun x hx => ?_).symm
  simpa using hp x hx

theorem mem_inScores {x : ZSetMemberScore} :
    x ∈ inScores spec M.ranked ↔ x ∈ M.entries ∧ spec.check x.2 = true := by
  rw [inScores, List.mem_filter, ZMembers.mem_ranked, SortedMap.get_eq_some]

theorem mem_inNames {x : ZSetMemberScore} :
    x ∈ inNames lex M.entries ↔ x ∈ M.entries ∧ lex.check x.1 = true := List.mem_filter

/-! ## Scores -/

theorem ZSetHolds.scoreExact_of_reached (h : ZSetHolds s kc key M) (hspec : spec.isEmpty = false)
    (hmin : spec.min.isNan = false) (hmax : spec.max.isNan = false)
    (hreached : reached kc key spec M = inScores spec M.ranked) (now : UInt64) :
    ScoreExact s kc key now spec := by
  have hin : inScores spec (indexedMembers s kc key) = reached kc key spec M := by
    rw [h.rep.indexedMembers_eq, hreached]
  refine ⟨?_, ?_, ?_, ?_⟩
  · rw [hin, h.zrangebyscore now hspec hmax]
  · rw [hin, h.zrevrangebyscore now hspec hmin]
  · rw [hin, h.zcount now hspec hmax]
  · rw [hin]
    have hmem : ∀ x, x ∈ reached kc key spec M ↔ x ∈ M.entries ∧ spec.check x.2 = true := fun x => by
      rw [hreached, mem_inScores]
    rcases h.getZsetMeta now with ⟨h0, hget⟩ | ⟨-, m, hget, hl⟩
    · have hnil : M.entries = [] := List.length_eq_zero_iff.mp h0
      rw [hreached, ZMembers.ranked_of_length h0]
      refine h.removed_nil _ (fun x hx => ?_) ?_
      · rw [hnil] at hx
        cases hx
      · rw [zremrangebyscore, if_neg (by simp [hspec]), hget]
        rfl
    · have hremovals : scoredRemovals kc key spec M = reached kc key spec M :=
        filter_upTo_max hmax (fun x hx => h.rep.numbers_ranked (List.mem_filter.mp hx).1)
          (M.ascending_ranked.filter _)
      have hrun := zremrangebyscore_eq h hspec hget
      rw [hremovals] at hrun
      exact h.removed_of_eq hl (hremovals ▸ scoredRemovals_has kc key spec M) _ hmem hrun

theorem ZSetHolds.scoreExact_iff_of_isEmpty (h : ZSetHolds s kc key M) (hspec : spec.isEmpty = true)
    (now : UInt64) : ScoreExact s kc key now spec ↔ ∀ x ∈ M.entries, ¬spec.check x.2 = true := by
  have hnil : inScores spec M.ranked = [] ↔ ∀ x ∈ M.entries, ¬spec.check x.2 = true := by
    rw [List.eq_nil_iff_forall_not_mem]
    refine forall_congr' fun x => ?_
    rw [mem_inScores, not_and]
  rw [← hnil]
  constructor
  · intro hexact
    have hcount := hexact.count
    rw [Wedb.zcount, if_pos hspec, h.rep.indexedMembers_eq, Except.ok.injEq] at hcount
    exact List.length_eq_zero_iff.mp hcount.symm
  · intro hin
    refine ⟨?_, ?_, ?_, ?_⟩
    · rw [Wedb.zrangebyscore, if_pos (Or.inr hspec), h.rep.indexedMembers_eq, hin,
        sliceWindow_eq_nil.mpr (Or.inr (Nat.zero_le _))]
    · rw [Wedb.zrevrangebyscore, if_pos (Or.inr hspec), h.rep.indexedMembers_eq, hin, List.reverse_nil,
        sliceWindow_eq_nil.mpr (Or.inr (Nat.zero_le _))]
    · rw [Wedb.zcount, if_pos hspec, h.rep.indexedMembers_eq, hin]
      rfl
    · rw [h.rep.indexedMembers_eq, hin]
      refine h.removed_nil _ (hnil.mp hin) ?_
      rw [zremrangebyscore, if_pos hspec]
      rfl

theorem inBounds_iff {x : ZSetMemberScore} (hspec : spec.isEmpty = false)
    (hmin : spec.min.isNan = false) (hmax : spec.max.isNan = false) (hx : x.2.isNan = false)
    (hcheck : spec.check x.2 = true) :
    ((scoreRangeBounds (composeZsetScorePrefix kc key) spec).1.startsAt
        (composeZsetScoreKey kc key x.2 x.1) &&
      (scoreRangeBounds (composeZsetScorePrefix kc key) spec).2.endsAt
        (composeZsetScoreKey kc key x.2 x.1)) = true ↔ ¬Missed spec x := by
  have hzeros : ¬(spec.min = .zero ∧ spec.max = .negZero ∧ spec.minex = false ∧ spec.maxex = false ∧
      x.2.eq .zero = true) := by
    intro hzeros
    rw [RangeScore.isEmpty, hzeros.1, hzeros.2.1] at hspec
    cases hspec
  have hok : spec.minOk x.2 = true ∧ spec.maxOk x.2 = true := by
    rwa [RangeScore.check, Bool.and_eq_true] at hcheck
  rw [Bool.and_eq_true, composeZsetScoreKey_eq_append, endsAt_scoreRangeBounds hmax hx hok.2,
    startsAt_scoreRangeBounds (zero_mem_composeZsetScorePrefix kc key) hmin hx hok.1, Missed,
    and_iff_left rfl, or_iff_right hzeros, hcheck]
  simp

theorem ZSetHolds.scoreExact_iff (h : ZSetHolds s kc key M) (hmin : spec.min.isNan = false)
    (hmax : spec.max.isNan = false) (now : UInt64) :
    ScoreExact s kc key now spec ↔ ∀ x ∈ storedMembers s kc key, ¬Missed spec x := by
  have hnum : ∀ x ∈ M.entries, x.2.isNan = false := fun x hx => h.rep.numbers _ _ (SortedMap.get_of_mem hx)
  rw [h.rep.storedMembers_eq]
  by_cases hspec : spec.isEmpty = true
  · rw [h.scoreExact_iff_of_isEmpty hspec]
    refine forall₂_congr fun x hx => not_congr ?_
    have hzeros := RangeScore.isEmpty_check hmin hmax (hnum x hx) hspec
    exact ⟨fun hcheck => Or.inl (hzeros.mp hcheck), fun hm => hm.elim hzeros.mpr fun hm => hm.2.2.1⟩
  · rw [Bool.not_eq_true] at hspec
    have hreached : reached kc key spec M = (inScores spec M.ranked).filter _ := List.filter_comm _ _ _
    constructor
    · intro hexact x hx hmissed
      have hcount := hexact.count
      rw [h.zcount now hspec hmax, h.rep.indexedMembers_eq, Except.ok.injEq, hreached,
        List.length_filter_eq_length_iff] at hcount
      have hcheck : spec.check x.2 = true := by
        rcases hmissed with ⟨hlo, hhi, -⟩ | hm
        · rw [RangeScore.isEmpty, hlo, hhi] at hspec
          cases hspec
        · exact hm.2.2.1
      exact (inBounds_iff hspec hmin hmax (hnum x hx) hcheck).mp
        (hcount x (mem_inScores.mpr ⟨hx, hcheck⟩)) hmissed
    · intro hnone
      refine h.scoreExact_of_reached hspec hmin hmax ?_ now
      rw [hreached]
      refine List.filter_eq_self.mpr fun x hx => ?_
      obtain ⟨hmem, hcheck⟩ := mem_inScores.mp hx
      exact (inBounds_iff hspec hmin hmax (hnum x hmem) hcheck).mpr (hnone x hmem)

/-! ## Names -/

theorem RangeLex.isEmpty_check (hempty : lex.isEmpty = true) (member : Bytes) :
    ¬lex.check member = true := by
  intro hcheck
  simp only [isEmpty, Bool.and_eq_true, Bool.not_eq_true', Bool.or_eq_true, decide_eq_true_eq,
    beq_iff_eq] at hempty
  obtain ⟨⟨hlo, hhi⟩, hbounds⟩ := hempty
  rw [check, Bool.and_eq_true, minOk, maxOk, hlo, hhi] at hcheck
  simp only [Bool.false_eq_true, if_false] at hcheck
  have hle : lex.min ≤ member ∧ member ≤ lex.max := by
    obtain ⟨h1, h2⟩ := hcheck
    constructor
    · split_ifs at h1
      · exact (of_decide_eq_true h1).le
      · exact of_decide_eq_true h1
    · split_ifs at h2
      · exact (of_decide_eq_true h2).le
      · exact of_decide_eq_true h2
  rcases hbounds with hlt | ⟨heq, hex | hex⟩
  · exact absurd (hle.1.trans hle.2) hlt.not_ge
  · rw [if_pos hex, decide_eq_true_eq] at hcheck
    exact absurd (hcheck.1.trans_le (hle.2.trans heq.ge)) (lt_irrefl _)
  · rw [if_pos hex, decide_eq_true_eq] at hcheck
    exact absurd (hcheck.2.trans_le (heq.ge.trans hle.1)) (lt_irrefl _)

theorem ZSetHolds.lexExact_of_isEmpty (h : ZSetHolds s kc key M) (hspec : lex.isEmpty = true)
    (now : UInt64) : LexExact s kc key now lex := by
  have hnil : inNames lex M.entries = [] :=
    List.filter_eq_nil_iff.mpr fun x _ => RangeLex.isEmpty_check hspec x.1
  refine ⟨?_, ?_, ?_, ?_⟩
  · rw [Wedb.zrangebylex, if_pos (Or.inr hspec), h.rep.storedMembers_eq, hnil, List.map_nil,
      sliceWindow_eq_nil.mpr (Or.inr (Nat.zero_le _))]
  · rw [Wedb.zrevrangebylex, if_pos (Or.inr hspec), h.rep.storedMembers_eq, hnil, List.reverse_nil,
      List.map_nil, sliceWindow_eq_nil.mpr (Or.inr (Nat.zero_le _))]
  · rw [Wedb.zlexcount, if_pos hspec, h.rep.storedMembers_eq, hnil]
    rfl
  · rw [h.rep.storedMembers_eq, hnil, ← h.rep.storedMembers_eq]
    refine h.removed_nil _ (fun x _ => RangeLex.isEmpty_check hspec x.1) ?_
    rw [zremrangebylex, if_pos hspec]
    rfl

theorem ZSetHolds.lexExact (h : ZSetHolds s kc key M) (lex : RangeLex) (now : UInt64) :
    LexExact s kc key now lex := by
  by_cases hempty : lex.isEmpty = true
  · exact h.lexExact_of_isEmpty hempty now
  · rw [Bool.not_eq_true] at hempty
    refine ⟨?_, ?_, ?_, ?_⟩
    · rw [Wedb.zrangebylex, h.rep.storedMembers_eq]
      by_cases hcount : lex.count = some 0
      · rw [if_pos (Or.inl hcount), hcount]
        rfl
      · rw [if_neg (by simp [hcount, hempty]), h.ziterRangeBylex now hempty, Except.map,
          foldBreak_limitItem _ _ hcount]
    · rw [Wedb.zrevrangebylex, h.rep.storedMembers_eq]
      by_cases hcount : lex.count = some 0
      · rw [if_pos (Or.inl hcount), hcount]
        rfl
      · rw [if_neg (by simp [hcount, hempty]), h.ziterRangeBylexRev now hempty, Except.map,
          foldBreak_limitItem _ _ hcount]
    · rw [Wedb.zlexcount, if_neg (by simp [hempty]), h.ziterRangeBylex now hempty, foldBreak_countItem,
        h.rep.storedMembers_eq]
    · have hin : inNames lex (storedMembers s kc key) = inNames lex M.entries := by
        rw [h.rep.storedMembers_eq]
      rw [hin]
      rcases h.getZsetMeta now with ⟨h0, hget⟩ | ⟨-, m, hget, hl⟩
      · have hnil : M.entries = [] := List.length_eq_zero_iff.mp h0
        rw [inNames, hnil]
        refine h.removed_nil _ (fun x hx => ?_) ?_
        · rw [hnil] at hx
          cases hx
        · rw [zremrangebylex, if_neg (by simp [hempty]), hget]
          rfl
      · have hremovals : namedRemovals lex M = inNames lex M.entries := filter_upTo_name M.sorted
        have hrun := zremrangebylex_eq h hempty hget
        rw [hremovals] at hrun
        exact h.removed_of_eq hl (hremovals ▸ namedRemovals_has lex M) _ (fun _ => mem_inNames) hrun

/-- Ranges of names are exact, ranges of scores are where no member in range is passed over. -/
theorem zset_ranges_exact {e : Engine} (h : ZSetReachable e) (kc : KeyComposer) (key : Key)
    (now : UInt64) :
    (∀ lex, LexExact e.store kc key now lex) ∧
      ∀ spec : RangeScore, spec.min.isNan = false → spec.max.isNan = false →
        (ScoreExact e.store kc key now spec ↔
          ∀ x ∈ storedMembers e.store kc key, ¬Missed spec x) := by
  obtain ⟨M, hM⟩ := h.holds kc key
  exact ⟨fun lex => hM.lexExact lex now, fun spec hmin hmax => hM.scoreExact_iff hmin hmax now⟩

theorem zset_ranges_exact_sample : ∃ e, replayZset .empty sampleZset = some e ∧
    ScoreExact e.store ⟨0, 0⟩ sampleKey 4 ⟨.zero, ⟨0x3FF0000000000000⟩, true, false, 0, none⟩ := by
  have hrun : (replayZset .empty sampleZset).map (fun e => storedMembers e.store ⟨0, 0⟩ sampleKey) =
      some [([97], ⟨0x3FF0000000000000⟩)] := by
    decide +kernel
  obtain ⟨e, he, hstored⟩ := Option.map_eq_some_iff.mp hrun
  have hexact := zset_ranges_exact (.replay .start he) ⟨0, 0⟩ sampleKey 4
  refine ⟨e, he, (hexact.2 _ (by decide) (by decide)).mpr fun x hx => ?_⟩
  rw [hstored, List.mem_singleton] at hx
  rw [hx]
  intro hmissed
  rcases hmissed with ⟨-, hmax, -⟩ | ⟨-, -, -, hname, -⟩
  · exact absurd hmax (by decide)
  · exact absurd hname (by decide)

def missedZset : List ZSetCall :=
  [⟨⟨0, 0⟩, sampleKey, 1, 1, .zadd [(⟨0x3FF0000000000001⟩, []), (.zero, [97])] []⟩]

def aboveOne : RangeScore := ⟨⟨0x3FF0000000000000⟩, .infinity, true, false, 0, none⟩

def betweenZeros : RangeScore := ⟨.zero, .negZero, false, false, 0, none⟩

theorem zset_ranges_miss : ∃ e, ZSetReachable e ∧
    zcount e.store ⟨0, 0⟩ sampleKey 2 aboveOne = .ok 0 ∧
    ¬ScoreExact e.store ⟨0, 0⟩ sampleKey 2 aboveOne ∧
    zcount e.store ⟨0, 0⟩ sampleKey 2 betweenZeros = .ok 0 ∧
    ¬ScoreExact e.store ⟨0, 0⟩ sampleKey 2 betweenZeros := by
  have hrun : (replayZset .empty missedZset).map (fun e =>
      (zcount e.store ⟨0, 0⟩ sampleKey 2 aboveOne, zcount e.store ⟨0, 0⟩ sampleKey 2 betweenZeros,
        indexedMembers e.store ⟨0, 0⟩ sampleKey)) =
        some (.ok 0, .ok 0, [([97], .zero), ([], ⟨0x3FF0000000000001⟩)]) := by
    decide +kernel
  obtain ⟨e, he, hvals⟩ := Option.map_eq_some_iff.mp hrun
  simp only [Prod.mk.injEq] at hvals
  obtain ⟨habove, hzeros, hindexed⟩ := hvals
  refine ⟨e, .replay .start he, habove, fun hexact => ?_, hzeros, fun hexact => ?_⟩
  · have hcount := hexact.count
    rw [habove, hindexed, Except.ok.injEq] at hcount
    exact absurd hcount (by decide)
  · have hcount := hexact.count
    rw [hzeros, hindexed, Except.ok.injEq] at hcount
    exact absurd hcount (by decide)

end Wedb
