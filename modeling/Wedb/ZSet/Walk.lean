import Wedb.ZSet.Add

/-!
# Walks over the indexes

A walk over the keys of an index is a walk over the members in the order of that
index. A range of keys is the part of the members whose keys lie between the bounds.
-/

section

universe u

namespace Wedb

variable {s : Store} {kc : KeyComposer} {key : Key} {M : ZMembers}

def ZMembers.ranked (M : ZMembers) : List ZSetMemberScore := byIndex encodeSortableF64 M

theorem ZMembers.mem_ranked {x : ZSetMemberScore} : x ∈ M.ranked ↔ M.get x.1 = some x.2 := mem_byIndex

theorem ZMembers.length_ranked (M : ZMembers) : M.ranked.length = M.length := length_byIndex _ _

theorem ZMembers.nodup_ranked (M : ZMembers) : (M.ranked.map Prod.fst).Nodup := nodup_keys_byIndex _ _

def scoreEntry (kc : KeyComposer) (key : Key) (x : ZSetMemberScore) : Bytes × Bytes :=
  (composeZsetScoreKey kc key x.2 x.1, [])

def memberEntry (kc : KeyComposer) (key : Key) (x : ZSetMemberScore) : Bytes × Bytes :=
  (composeZsetKey kc key x.1, encodeSortableF64 x.2)

theorem directed_map {α β : Type u} (reverse : Bool) (g : α → β) (xs : List α) :
    directed reverse (xs.map g) = (directed reverse xs).map g := by
  cases reverse
  · rfl
  · exact List.map_reverse.symm

theorem mem_directed {α : Type u} {reverse : Bool} {xs : List α} {x : α} :
    x ∈ directed reverse xs ↔ x ∈ xs := by
  cases reverse
  · rfl
  · exact List.mem_reverse

theorem nodup_directed {α : Type u} {reverse : Bool} {xs : List α} :
    (directed reverse xs).Nodup ↔ xs.Nodup := by
  cases reverse
  · rfl
  · exact List.nodup_reverse

theorem ZSetRep.score_entries (h : ZSetRep s kc key M) :
    (s.family kc key .zSetScore).entries = M.ranked.map fun x => (indexKey encodeSortableF64 x, []) :=
  h.index.entries_eq encodeSortableF64_delimited

theorem ZSetRep.score_prefixed (h : ZSetRep s kc key M) :
    SortedMap.prefixed (composeZsetScorePrefix kc key) s.data = M.ranked.map (scoreEntry kc key) := by
  have hentries : (SortedMap.under (composeZsetScorePrefix kc key) s.data).entries = _ :=
    h.score_entries
  rw [SortedMap.prefixed_eq_map_under, hentries, List.map_map]
  refine List.map_congr_left fun x _ => ?_
  rw [Function.comp_apply, scoreEntry, composeZsetScoreKey_eq_append]

theorem ZSetRep.score_range (h : ZSetRep s kc key M) {lo hi : Bound Bytes}
    (hb : ∀ k, lo.startsAt k = true → hi.endsAt k = true → composeZsetScorePrefix kc key <+: k) :
    s.data.range lo hi = (M.ranked.filter fun x =>
      lo.startsAt (composeZsetScoreKey kc key x.2 x.1) &&
        hi.endsAt (composeZsetScoreKey kc key x.2 x.1)).map (scoreEntry kc key) := by
  have hentries : (SortedMap.under (composeZsetScorePrefix kc key) s.data).entries = _ :=
    h.score_entries
  rw [SortedMap.range_eq_map_under hb, hentries, List.filter_map, List.map_map]
  simp only [Function.comp_def, composeZsetScoreKey_eq_append]
  refine List.map_congr_left fun x _ => ?_
  rw [scoreEntry, composeZsetScoreKey_eq_append]

theorem ZSetRep.member_range (h : ZSetRep s kc key M) {lo hi : Bound Bytes}
    (hb : ∀ k, lo.startsAt k = true → hi.endsAt k = true → composeZsetPrefix kc key <+: k) :
    s.data.range lo hi = (M.entries.filter fun x =>
      lo.startsAt (composeZsetPrefix kc key ++ x.1) &&
        hi.endsAt (composeZsetPrefix kc key ++ x.1)).map (memberEntry kc key) := by
  have hentries : (SortedMap.under (composeZsetPrefix kc key) s.data).entries = _ := h.data_entries
  rw [SortedMap.range_eq_map_under hb, hentries, List.filter_map, List.map_map]
  refine List.map_congr_left fun x _ => ?_
  rw [Function.comp_apply, memberEntry, composeZsetKey_eq_append]

theorem foldBreak_scoreVisit {σ : Type u} (f : σ → Bytes → Bytes → F64 → σ × Bool) (st : σ)
    (xs : List ZSetMemberScore) :
    foldBreak (scoreVisit (composeZsetScorePrefix kc key) f) st (xs.map (scoreEntry kc key)) =
      foldBreak (fun st x => f st (composeZsetScoreKey kc key x.2 x.1) x.1 x.2) st xs := by
  rw [foldBreak_map]
  refine foldBreak_congr (fun t x _ => ?_) st
  rw [scoreVisit, scoreEntry]
  dsimp only
  rw [composeZsetScoreKey_eq_append, if_neg (not_not.mpr (List.prefix_append _ _)), List.drop_left,
    parseScoreSub_indexKey]

theorem foldBreak_memberVisit {σ : Type u} (f : σ → Bytes → Bytes → Bytes → σ × Bool) (st : σ)
    (xs : List ZSetMemberScore) :
    foldBreak (memberVisit (composeZsetPrefix kc key) f) st (xs.map (memberEntry kc key)) =
      foldBreak (fun st x => f st (composeZsetKey kc key x.1) (encodeSortableF64 x.2) x.1) st xs := by
  rw [foldBreak_map]
  refine foldBreak_congr (fun t x _ => ?_) st
  rw [memberVisit, memberEntry]
  dsimp only
  rw [composeZsetKey_eq_append, if_neg (not_not.mpr (List.prefix_append _ _)), List.drop_left]

end Wedb

end

/-!
## Bounds of the two indexes

The keys between the bounds of a range all lie under the prefix of their index. In
the member index they are those of the members in range. The upper bound of a score
covers the keys that start with it; as an open lower bound the same key is itself
left out.
-/

section

namespace Wedb

variable {kc : KeyComposer} {key : Key} {pre k : Bytes} {spec : RangeScore} {lex : RangeLex}

theorem zero_mem_composeZsetScorePrefix (kc : KeyComposer) (key : Key) :
    (0 : UInt8) ∈ composeZsetScorePrefix kc key := by
  rw [composeZsetScorePrefix, KeyComposer.composePrefixStack_eq, KeyComposer.encodeScopePrefix]
  simp

theorem prefix_of_scoreRangeBounds (spec : RangeScore)
    (hlo : (scoreRangeBounds (composeZsetScorePrefix kc key) spec).1.startsAt k = true)
    (hhi : (scoreRangeBounds (composeZsetScorePrefix kc key) spec).2.endsAt k = true) :
    composeZsetScorePrefix kc key <+: k := by
  have hzero := zero_mem_composeZsetScorePrefix kc key
  set pre := composeZsetScorePrefix kc key
  have hle : pre ≤ k := by
    rw [scoreRangeBounds] at hlo
    dsimp only at hlo
    by_cases hinf : spec.min = .negInfinity
    · rw [if_pos hinf] at hlo
      exact of_decide_eq_true hlo
    · rw [if_neg hinf] at hlo
      generalize (if spec.min.eq F64.zero = true then (if spec.minex = true then F64.zero else F64.negZero)
        else spec.min) = minVal at hlo
      by_cases hex : spec.minex = true
      · rw [if_pos hex, startsAt_prefixUpperBound
          (prefixUpperBound_ne_unbounded (List.mem_append_left _ hzero) (by decide))] at hlo
        rw [not_or, not_le] at hlo
        exact (Bytes.le_append pre _).trans hlo.1.1.le
      · rw [if_neg hex] at hlo
        exact (Bytes.le_append pre _).trans (of_decide_eq_true hlo)
  rw [scoreRangeBounds] at hhi
  dsimp only at hhi
  by_cases hinf : spec.max = .infinity
  · rw [if_pos hinf] at hhi
    exact prefix_of_endsAt (t := []) hle (Or.inl (by rwa [List.append_nil]))
  · rw [if_neg hinf] at hhi
    split_ifs at hhi
    all_goals first
      | exact prefix_of_endsAt hle (Or.inl hhi)
      | exact prefix_of_endsAt hle (Or.inr (le_of_lt (by simpa only [Bound.endsAt, decide_eq_true_eq] using hhi)))

theorem startsAt_lexRangeBounds (pre f : Bytes) (spec : RangeLex) :
    (lexRangeBounds pre spec).1.startsAt (pre ++ f) = spec.minOk f := by
  rw [lexRangeBounds, RangeLex.minOk]
  dsimp only
  by_cases hinf : spec.minInfinite = true
  · rw [if_pos hinf, if_pos hinf]
    exact decide_eq_true (Bytes.le_append pre f)
  · rw [if_neg hinf, if_neg hinf]
    by_cases hex : spec.minex = true
    · rw [if_pos hex, if_pos hex]
      exact decide_eq_decide.mpr Bytes.append_lt_append_iff
    · rw [if_neg hex, if_neg hex]
      exact decide_eq_decide.mpr Bytes.append_le_append_iff

theorem endsAt_lexRangeBounds (pre f : Bytes) (spec : RangeLex) :
    (lexRangeBounds pre spec).2.endsAt (pre ++ f) = spec.maxOk f := by
  rw [lexRangeBounds, RangeLex.maxOk]
  dsimp only
  by_cases hinf : spec.maxInfinite = true
  · rw [if_pos hinf, if_pos hinf, (endsAt_prefixUpperBound pre _).mpr (Or.inr (List.prefix_append _ _))]
  · rw [if_neg hinf, if_neg hinf]
    by_cases hex : spec.maxex = true
    · rw [if_pos hex, if_pos hex]
      exact decide_eq_decide.mpr Bytes.append_lt_append_iff
    · rw [if_neg hex, if_neg hex]
      exact decide_eq_decide.mpr Bytes.append_le_append_iff

theorem prefix_of_lexRangeBounds (lex : RangeLex) (hlo : (lexRangeBounds pre lex).1.startsAt k = true)
    (hhi : (lexRangeBounds pre lex).2.endsAt k = true) : pre <+: k := by
  have hle : pre ≤ k := by
    rw [lexRangeBounds] at hlo
    dsimp only at hlo
    split_ifs at hlo
    · exact of_decide_eq_true hlo
    · simp only [Bound.startsAt, decide_eq_true_eq] at hlo
      exact (Bytes.le_append pre _).trans hlo.le
    · exact (Bytes.le_append pre _).trans (of_decide_eq_true hlo)
  rw [lexRangeBounds] at hhi
  dsimp only at hhi
  split_ifs at hhi
  · exact prefix_of_endsAt (t := []) hle (Or.inl (by rwa [List.append_nil]))
  · simp only [Bound.endsAt, decide_eq_true_eq] at hhi
    exact prefix_of_endsAt hle (Or.inr hhi.le)
  · exact prefix_of_endsAt hle (Or.inr (of_decide_eq_true hhi))

end Wedb

end
