import Wedb.ZSet.Rank

/-!
# Ranges of scores and names

The members within a range, as the check of the range selects them in the order of
the index. The bounds of a range of scores leave out one kind of member: the empty
name stored at the score that follows an open lower bound, whose key is the bound
itself. A range from the positive zero to the negative one is taken for empty
although the zeros pass its check. A range of names misses nothing.
-/

universe u

namespace Wedb

def indexedMembers (s : Store) (kc : KeyComposer) (key : Key) : List ZSetMemberScore :=
  (s.family kc key .zSetScore).entries.filterMap fun x => (parseScoreSub x.1).map Prod.swap

def inScores (spec : RangeScore) (xs : List ZSetMemberScore) : List ZSetMemberScore :=
  xs.filter fun x => spec.check x.2

def inNames (spec : RangeLex) (xs : List ZSetMemberScore) : List ZSetMemberScore :=
  xs.filter fun x => spec.check x.1

/-- The commands over scores act on the members that pass the check. -/
structure ScoreExact (s : Store) (kc : KeyComposer) (key : Key) (now : UInt64) (spec : RangeScore) :
    Prop where
  range : zrangebyscore s kc key now spec =
    .ok (sliceWindow spec.offset spec.count (inScores spec (indexedMembers s kc key)))
  revrange : zrevrangebyscore s kc key now spec =
    .ok (sliceWindow spec.offset spec.count (inScores spec (indexedMembers s kc key)).reverse)
  count : zcount s kc key now spec = .ok (inScores spec (indexedMembers s kc key)).length
  removed : ∃ ops, zremrangebyscore s kc key now spec =
      .ok ((inScores spec (indexedMembers s kc key)).length, ops) ∧
    storedMembers (s.apply ops) kc key = (storedMembers s kc key).filter fun x => !spec.check x.2

/-- The commands over names act on the members that pass the check. -/
structure LexExact (s : Store) (kc : KeyComposer) (key : Key) (now : UInt64) (spec : RangeLex) :
    Prop where
  range : zrangebylex s kc key now spec =
    .ok (sliceWindow spec.offset spec.count ((inNames spec (storedMembers s kc key)).map Prod.fst))
  revrange : zrevrangebylex s kc key now spec =
    .ok (sliceWindow spec.offset spec.count
      ((inNames spec (storedMembers s kc key)).reverse.map Prod.fst))
  count : zlexcount s kc key now spec = .ok (inNames spec (storedMembers s kc key)).length
  removed : ∃ ops, zremrangebylex s kc key now spec =
      .ok ((inNames spec (storedMembers s kc key)).length, ops) ∧
    storedMembers (s.apply ops) kc key = (storedMembers s kc key).filter fun x => !spec.check x.1

/-- A member in range that the commands pass over. -/
def Missed (spec : RangeScore) (x : ZSetMemberScore) : Prop :=
  spec.min = .zero ∧ spec.max = .negZero ∧ spec.minex = false ∧ spec.maxex = false ∧
      x.2.eq .zero = true ∨
    spec.minex = true ∧ spec.min ≠ .negInfinity ∧ spec.check x.2 = true ∧ x.1 = [] ∧
      prefixUpperBound (encodeSortableF64 spec.min.ceilZero) = .excluded (encodeSortableF64 x.2)

variable {s : Store} {kc : KeyComposer} {key : Key} {M : ZMembers} {now : UInt64}
  {x : ZSetMemberScore} {spec : RangeScore} {lex : RangeLex} {pre : Bytes}

theorem ZSetRep.indexedMembers_eq (h : ZSetRep s kc key M) : indexedMembers s kc key = M.ranked := by
  rw [indexedMembers, h.score_entries, List.filterMap_map]
  refine (List.filterMap_congr fun x _ => ?_).trans List.filterMap_some
  rw [Function.comp_apply, parseScoreSub_indexKey]
  rfl

/-! ## Bounds of scores -/

theorem RangeScore.minOk_order (hmin : spec.min.isNan = false) (hx : x.2.isNan = false)
    (hok : spec.minOk x.2 = true) : spec.min.order ≤ x.2.order := by
  rw [minOk] at hok
  split_ifs at hok
  · exact ((F64.lt_iff hmin hx).mp hok).le
  · exact (F64.le_iff hmin hx).mp hok

theorem RangeScore.maxOk_order (hmax : spec.max.isNan = false) (hx : x.2.isNan = false)
    (hok : spec.maxOk x.2 = true) : x.2.order ≤ spec.max.order := by
  rw [maxOk] at hok
  split_ifs at hok
  · exact ((F64.lt_iff hx hmax).mp hok).le
  · exact (F64.le_iff hx hmax).mp hok

theorem startsAt_scoreRangeBounds (hpre : (0 : UInt8) ∈ pre) (hmin : spec.min.isNan = false)
    (hx : x.2.isNan = false) (hok : spec.minOk x.2 = true) :
    (scoreRangeBounds pre spec).1.startsAt (pre ++ indexKey encodeSortableF64 x) = true ↔
      ¬(spec.minex = true ∧ spec.min ≠ .negInfinity ∧ x.1 = [] ∧
        prefixUpperBound (encodeSortableF64 spec.min.ceilZero) = .excluded (encodeSortableF64 x.2)) := by
  rw [scoreRangeBounds]
  by_cases hinf : spec.min = .negInfinity
  · rw [if_pos hinf]
    exact iff_of_true (decide_eq_true (Bytes.le_append pre _)) fun h => h.2.1 hinf
  · by_cases hex : spec.minex = true
    · have hlt : spec.min.ceilZero.totalOrder < x.2.totalOrder := by
        rw [RangeScore.minOk, if_pos hex, F64.lt_iff hmin hx] at hok
        exact F64.totalOrder_lt_of_order_lt (by rwa [F64.order_ceilZero])
      have hbelow : ¬(pre ++ indexKey encodeSortableF64 x ≤ pre ++ encodeSortableF64 spec.min.ceilZero ∨
          pre ++ encodeSortableF64 spec.min.ceilZero <+: pre ++ indexKey encodeSortableF64 x) := by
        rw [not_or, not_le, Bytes.append_lt_append_iff, List.prefix_append_right_inj]
        refine ⟨?_, fun hp => ?_⟩
        · have h := encodeSortableF64_append_lt_iff (s := []) (t := x.1).mpr (Or.inl hlt)
          rwa [List.append_nil] at h
        · have heq := encodeSortableF64_delimited.eq_of_prefix hp
          rw [heq] at hlt
          exact absurd hlt (lt_irrefl _)
      have hkey : prefixUpperBound (pre ++ encodeSortableF64 spec.min.ceilZero) =
          .excluded (pre ++ indexKey encodeSortableF64 x) ↔
          x.1 = [] ∧ prefixUpperBound (encodeSortableF64 spec.min.ceilZero) =
            .excluded (encodeSortableF64 x.2) := by
        rw [prefixUpperBound_append_eq_iff (by simp [indexKey]) (List.ne_nil_of_length_pos (by simp))]
        constructor
        · intro h
          have hlen := length_le_of_prefixUpperBound h
          rw [indexKey, List.length_append, encodeSortableF64_length, encodeSortableF64_length] at hlen
          have hnil : x.1 = [] := List.length_eq_zero_iff.mp (by omega)
          rw [indexKey, hnil, List.append_nil] at h
          exact ⟨hnil, h⟩
        · intro h
          rw [indexKey, h.1, List.append_nil]
          exact h.2
      simp only [hinf, hex, if_true, if_false, ne_eq, not_false_eq_true, true_and]
      rw [show (if spec.min.eq F64.zero = true then F64.zero else spec.min) = spec.min.ceilZero from rfl,
        startsAt_prefixUpperBound (prefixUpperBound_ne_unbounded (List.mem_append_left _ hpre) (by decide)),
        ne_eq, hkey]
      exact and_iff_right hbelow
    · have hle := F64.totalOrder_floorZero_le hmin (RangeScore.minOk_order hmin hx hok)
      simp only [hinf, hex, if_false, Bool.false_eq_true, false_and, not_false_eq_true, iff_true]
      refine decide_eq_true (Bytes.append_le_append_iff.mpr (le_of_not_gt fun hgt => ?_))
      have hgt' : encodeSortableF64 x.2 ++ x.1 < encodeSortableF64 spec.min.floorZero ++ [] := by
        rwa [List.append_nil]
      rcases encodeSortableF64_append_lt_iff.mp hgt' with hscore | ⟨-, hname⟩
      · exact absurd hscore hle.not_gt
      · exact absurd hname (List.not_lt_nil _)

theorem endsAt_scoreRangeBounds (hmax : spec.max.isNan = false) (hx : x.2.isNan = false)
    (hok : spec.maxOk x.2 = true) :
    (scoreRangeBounds pre spec).2.endsAt (pre ++ indexKey encodeSortableF64 x) = true := by
  rw [scoreRangeBounds]
  by_cases hinf : spec.max = .infinity
  · rw [if_pos hinf]
    exact (endsAt_prefixUpperBound pre _).mpr (Or.inr (List.prefix_append _ _))
  · by_cases hex : spec.maxex = true
    · simp only [hinf, hex, if_true, if_false]
      have hlt : x.2.totalOrder < spec.max.floorZero.totalOrder := by
        rw [RangeScore.maxOk, if_pos hex, F64.lt_iff hx hmax] at hok
        exact F64.totalOrder_lt_of_order_lt (by rwa [F64.order_floorZero])
      simp only [Bound.endsAt, decide_eq_true_eq]
      refine Bytes.append_lt_append_iff.mpr ?_
      have h := encodeSortableF64_append_lt_iff (s := x.1) (t := []).mpr (Or.inl hlt)
      rwa [List.append_nil] at h
    · simp only [hinf, hex, if_false, Bool.false_eq_true]
      have hle := F64.totalOrder_le_ceilZero hmax (RangeScore.maxOk_order hmax hx hok)
      refine (endsAt_prefixUpperBound _ _).mpr ?_
      rcases hle.lt_or_eq with hlt | heq
      · refine Or.inl (Bytes.append_le_append_iff.mpr (le_of_lt ?_))
        have h := encodeSortableF64_append_lt_iff (s := x.1) (t := []).mpr (Or.inl hlt)
        rwa [List.append_nil] at h
      · have hmaxEq : x.2 = if spec.max.eq F64.zero = true then F64.zero else spec.max :=
          F64.ext_totalOrder heq
        rw [← hmaxEq]
        refine Or.inr ((List.prefix_append_right_inj pre).mpr (List.prefix_append _ _))

theorem RangeScore.isEmpty_check (hmin : spec.min.isNan = false) (hmax : spec.max.isNan = false)
    (hx : x.2.isNan = false) (hempty : spec.isEmpty = true) :
    spec.check x.2 = true ↔ spec.min = .zero ∧ spec.max = .negZero ∧ spec.minex = false ∧
      spec.maxex = false ∧ x.2.eq .zero = true := by
  constructor
  · intro hcheck
    rw [check, Bool.and_eq_true] at hcheck
    have hlo := minOk_order hmin hx hcheck.1
    have hhi := maxOk_order hmax hx hcheck.2
    have hopen : ∀ b : Bool, spec.min.order = spec.max.order → b = spec.minex ∨ b = spec.maxex →
        b = false := by
      intro b ho hb
      rw [← Bool.not_eq_true]
      intro hb'
      rcases hb with rfl | rfl
      · have hlt := hcheck.1
        rw [minOk, if_pos hb', F64.lt_iff hmin hx] at hlt
        omega
      · have hlt := hcheck.2
        rw [maxOk, if_pos hb', F64.lt_iff hx hmax] at hlt
        omega
    rw [isEmpty, Bool.or_eq_true, decide_eq_true_eq] at hempty
    rcases hempty with htotal | hbits
    · have ho : spec.max.order = spec.min.order :=
        le_antisymm (F64.order_le_of_totalOrder_le htotal.le) (hlo.trans hhi)
      obtain ⟨hmaxZero, hminZero⟩ := zeros_of_order_eq htotal ho
      refine ⟨hminZero, hmaxZero, hopen _ ho.symm (Or.inl rfl), hopen _ ho.symm (Or.inr rfl), ?_⟩
      refine F64.eq_zero_of_order hx ?_
      rw [hminZero, F64.order_zero] at hlo
      rw [hmaxZero, F64.order_negZero] at hhi
      omega
    · rw [Bool.and_eq_true, beq_iff_eq, Bool.or_eq_true] at hbits
      have ho : spec.min.order = spec.max.order := by
        rw [show spec.min = spec.max from congrArg F64.mk hbits.1]
      rcases hbits.2 with h | h
      · rw [hopen _ ho (Or.inl rfl)] at h
        cases h
      · rw [hopen _ ho (Or.inr rfl)] at h
        cases h
  · rintro ⟨hminZero, hmaxZero, hminex, hmaxex, hzero⟩
    have ho := F64.order_eq_zero_of_eq hzero
    rw [check, minOk, maxOk, hminex, hmaxex, hminZero, hmaxZero, Bool.and_eq_true]
    simp only [Bool.false_eq_true, if_false]
    rw [F64.le_iff (by decide) hx, F64.le_iff hx (by decide), ho, F64.order_zero, F64.order_negZero]
    simp

end Wedb
