import Wedb.Stream.Range
import Wedb.Ordered.Scan

/-!
# Answers of range queries

A query asks for the entries of an interval in one direction, cut to a count. Whether it
is answered from the recorded bounds, by one lookup or by a scan, it returns exactly
these, and the ranged length counts the entries on one side of an id.
-/

namespace Wedb

variable {s : Store} {kc : KeyComposer} {key : Key} {m : StreamMeta} {xs ys : EntryLog}
  {now : UInt64} {id lastId : StreamId} {options : StreamRange}

/-! ## The interval asked for -/

namespace StreamRange

def low (options : StreamRange) : StreamId := if options.reverse then options.stop else options.start

def high (options : StreamRange) : StreamId := if options.reverse then options.start else options.stop

def excludesLow (options : StreamRange) : Bool :=
  if options.reverse then options.excludeEnd else options.excludeStart

def excludesHigh (options : StreamRange) : Bool :=
  if options.reverse then options.excludeStart else options.excludeEnd

def Covers (options : StreamRange) (id : StreamId) : Prop :=
  (if options.excludesLow then options.low < id else options.low ≤ id) ∧
    if options.excludesHigh then id < options.high else id ≤ options.high

instance (options : StreamRange) (id : StreamId) : Decidable (options.Covers id) :=
  inferInstanceAs (Decidable (_ ∧ _))

theorem Covers.low_le (h : options.Covers id) : options.low ≤ id := by
  have hlow := h.1
  split_ifs at hlow
  · exact hlow.le
  · exact hlow

theorem Covers.le_high (h : options.Covers id) : id ≤ options.high := by
  have hhigh := h.2
  split_ifs at hhigh
  · exact hhigh.le
  · exact hhigh

end StreamRange

def cutTo {α : Type} (count : Option ℕ) (l : List α) : List α := count.elim l l.take

@[simp]
theorem cutTo_nil {α : Type} (count : Option ℕ) : cutTo count ([] : List α) = [] := by
  cases count <;> simp [cutTo]

def EntryLog.answer (xs : EntryLog) (options : StreamRange) : EntryLog :=
  let hits := xs.filter fun x => decide (options.Covers x.1)
  cutTo options.count (if options.reverse then hits.reverse else hits)

theorem answer_eq_nil (h : ∀ x ∈ xs, ¬options.Covers x.1) : xs.answer options = [] := by
  have hnone : (xs.filter fun x => decide (options.Covers x.1)) = [] := by
    rw [List.filter_eq_nil_iff]
    simpa using h
  rw [EntryLog.answer, hnone]
  split_ifs <;> exact cutTo_nil _

/-! ## The scan -/

def rangeHits (options : StreamRange) (id : StreamId) : Bool :=
  !rangeSkips options id && !rangeEnds options id

/-- Past the end of the interval nothing is hit, so a scan returns the first hits. -/
theorem rangeScan_spec (results : List StreamEntry)
    (hends : ys.Pairwise fun x y => rangeEnds options x.1 = true → rangeEnds options y.1 = true)
    (hroom : ∀ c ∈ options.count, results.length < c) :
    rangeScan options ys results = results ++
      (cutTo (options.count.map (· - results.length))
        (ys.filter fun x => rangeHits options x.1)).map entryOf := by
  induction ys generalizing results with
  | nil => simp [rangeScan]
  | cons x ys ih =>
    rw [List.pairwise_cons] at hends
    rw [rangeScan]
    by_cases hskip : rangeSkips options x.1 = true
    · rw [if_pos hskip, ih results hends.2 hroom, List.filter_cons_of_neg (by simp [rangeHits, hskip])]
    rw [if_neg hskip]
    by_cases hend : rangeEnds options x.1 = true
    · have hnone : ((x :: ys).filter fun x => rangeHits options x.1) = [] := by
        rw [List.filter_eq_nil_iff]
        intro y hy
        rcases List.mem_cons.mp hy with rfl | hy
        · simp [rangeHits, hend]
        · simp [rangeHits, hends.1 y hy hend]
      rw [if_pos hend, hnone, cutTo_nil, List.map_nil, List.append_nil]
    · have hhit : rangeHits options x.1 = true := by simp [rangeHits, hskip, hend]
      have hfilter : ((x :: ys).filter fun x => rangeHits options x.1) =
          x :: ys.filter fun x => rangeHits options x.1 := by simp [hhit]
      rw [if_neg hend, hfilter]
      cases hcount : options.count with
      | none =>
        have hrest := ih (results ++ [entryOf x]) hends.2 (by simp [hcount])
        simp only [hcount, Option.all_none, if_true] at hrest ⊢
        exact hrest.trans (by simp [cutTo])
      | some c =>
        have hlt := hroom c hcount
        have hlen : (results ++ [entryOf x]).length = results.length + 1 := by simp
        by_cases hfull : results.length + 1 < c
        · have hrest := ih (results ++ [entryOf x]) hends.2 (by simpa [hcount] using hfull)
          have hsub : c - results.length = (c - (results.length + 1)) + 1 := by omega
          simp only [hcount, Option.all_some, Option.map_some, hlen, cutTo, Option.elim_some] at hrest ⊢
          rw [hsub, List.take_succ_cons]
          simpa [entryOf, hfull] using hrest
        · have hsub : c - results.length = 1 := by omega
          simp [cutTo, hsub, entryOf, hfull]

theorem rangeHits_eq (hlow : options.low ≤ id) (hhigh : id ≤ options.high) :
    rangeHits options id = decide (options.Covers id) := by
  rw [Bool.eq_iff_iff, rangeHits, rangeSkips, rangeEnds, decide_eq_true_eq]
  obtain ⟨start, stop, count, reverse, excludeStart, excludeEnd⟩ := options
  simp only [StreamRange.Covers, StreamRange.low, StreamRange.high, StreamRange.excludesLow,
    StreamRange.excludesHigh] at hlow hhigh ⊢
  cases reverse with
  | false =>
    simp only [Bool.false_eq_true, if_false] at hlow hhigh ⊢
    cases excludeStart <;> cases excludeEnd <;> simp [hlow, hhigh]
  | true =>
    simp only [if_true] at hlow hhigh ⊢
    cases excludeStart <;> cases excludeEnd <;> simp [hlow, hhigh, and_comm]

theorem filter_between (xs : EntryLog) (options : StreamRange) :
    ((xs.between options.low options.high).filter fun x => rangeHits options x.1) =
      xs.filter fun x => decide (options.Covers x.1) := by
  have hbetween : xs.filter (fun x => decide (options.Covers x.1)) =
      (xs.between options.low options.high).filter fun x => decide (options.Covers x.1) := by
    rw [EntryLog.between, List.filter_filter]
    refine List.filter_congr fun x _ => ?_
    by_cases hcovers : options.Covers x.1
    · simp [hcovers, hcovers.low_le, hcovers.le_high]
    · simp [hcovers]
  rw [hbetween]
  refine List.filter_congr fun x hx => ?_
  obtain ⟨-, hlow, hhigh⟩ := mem_between.mp hx
  exact rangeHits_eq hlow hhigh

def EntryLog.scanned (xs : EntryLog) (options : StreamRange) : EntryLog :=
  if options.reverse then (xs.between options.low options.high).reverse
  else xs.between options.low options.high

theorem scanned_ends (hs : xs.Pairwise fun x y => x.1 < y.1) :
    (xs.scanned options).Pairwise fun x y =>
      rangeEnds options x.1 = true → rangeEnds options y.1 = true := by
  have hbetween := hs.sublist (List.filter_sublist (l := xs)
    (p := fun x => decide (options.low ≤ x.1) && decide (x.1 ≤ options.high)))
  rw [EntryLog.scanned]
  cases hreverse : options.reverse with
  | false =>
    refine hbetween.imp fun hlt => ?_
    simp only [rangeEnds, hreverse, Bool.false_eq_true, if_false, Bool.or_eq_true, Bool.and_eq_true,
      decide_eq_true_eq]
    intro hend
    rcases hend with ⟨hexcl, hle⟩ | hgt
    · exact Or.inl ⟨hexcl, hle.trans hlt.le⟩
    · exact Or.inr (hgt.trans hlt)
  | true =>
    rw [if_pos rfl, List.pairwise_reverse]
    refine hbetween.imp fun hlt => ?_
    simp only [rangeEnds, hreverse, if_true, Bool.or_eq_true, Bool.and_eq_true, decide_eq_true_eq]
    intro hend
    rcases hend with ⟨hexcl, hle⟩ | hgt
    · exact Or.inl ⟨hexcl, hlt.le.trans hle⟩
    · exact Or.inr (hlt.trans hgt)

theorem rangeScan_scanned (hs : xs.Pairwise fun x y => x.1 < y.1) (hcount : options.count ≠ some 0) :
    rangeScan options (xs.scanned options) [] = (xs.answer options).map entryOf := by
  have hroom : ∀ c ∈ options.count, ([] : List StreamEntry).length < c := by
    intro c hc
    refine Nat.pos_of_ne_zero fun hzero => hcount ?_
    rw [hc, hzero]
  have hkeep : options.count.map (· - ([] : List StreamEntry).length) = options.count := by
    cases options.count <;> rfl
  rw [rangeScan_spec [] (scanned_ends hs) hroom, List.nil_append, hkeep, EntryLog.scanned,
    EntryLog.answer, ← filter_between]
  cases options.reverse with
  | false => rfl
  | true =>
    simp only [if_true, List.filter_reverse]

theorem not_covers_of_empty (hempty : (!options.reverse && decide (options.stop < options.start) ||
    options.reverse && decide (options.start < options.stop)) = true) (id : StreamId) :
    ¬options.Covers id := by
  intro hcovers
  have hle := hcovers.low_le.trans hcovers.le_high
  simp only [StreamRange.low, StreamRange.high, Bool.or_eq_true, Bool.and_eq_true,
    Bool.not_eq_true', decide_eq_true_eq] at hempty hle
  rcases hempty with ⟨hforward, hlt⟩ | ⟨hreverse, hlt⟩
  · simp only [hforward, Bool.false_eq_true, if_false] at hle
    exact absurd hle (not_le.mpr hlt)
  · simp only [hreverse, if_true] at hle
    exact absurd hle (not_le.mpr hlt)

theorem not_covers_of_outside {first last : StreamId} {x : StreamId × Bytes}
    (hfirst : first ≤ x.1) (hlast : x.1 ≤ last) (hout : last < options.low ∨ options.high < first) :
    ¬options.Covers x.1 := by
  intro hcovers
  rcases hout with hout | hout
  · exact absurd (hcovers.low_le.trans hlast) (not_le.mpr hout)
  · exact absurd (hfirst.trans hcovers.le_high) (not_le.mpr hout)

theorem not_covers_of_open_point (hpoint : options.start = options.stop)
    (hexcl : (options.excludeStart || options.excludeEnd) = true) (id : StreamId) :
    ¬options.Covers id := by
  intro hcovers
  have hopen : (options.excludesLow || options.excludesHigh) = true := by
    rw [StreamRange.excludesLow, StreamRange.excludesHigh]
    split_ifs
    · rw [Bool.or_comm]
      exact hexcl
    · exact hexcl
  have hsame : options.low = options.high := by
    simp [StreamRange.low, StreamRange.high, hpoint]
  have hlow := hcovers.low_le
  have hhigh := hcovers.le_high
  rw [StreamRange.Covers, ← hsame] at hcovers
  rw [← hsame] at hhigh
  rw [Bool.or_eq_true] at hopen
  rcases hopen with hopen | hopen
  · rw [if_pos hopen] at hcovers
    exact absurd hcovers.1 (not_lt.mpr hhigh)
  · rw [if_pos hopen] at hcovers
    exact absurd hcovers.2 (not_lt.mpr hlow)

theorem answer_of_point (hpoint : options.start = options.stop) (hstart : options.excludeStart = false)
    (hend : options.excludeEnd = false) (hcount : options.count ≠ some 0)
    (hlog : LogIn encodeId xs (s.family kc key .streamData)) :
    xs.answer options = xs.between options.start options.start := by
  have hfilter : (xs.filter fun x => decide (options.Covers x.1)) =
      xs.between options.start options.start := by
    refine List.filter_congr fun x _ => ?_
    simp [StreamRange.Covers, StreamRange.low, StreamRange.high, StreamRange.excludesLow,
      StreamRange.excludesHigh, hstart, hend, ← hpoint]
  have hlen : (xs.between options.start options.start).length ≤ 1 := by
    have hone := congrArg List.length (getStreamEntry_eq hlog options.start)
    rw [List.length_map] at hone
    rw [← hone]
    exact Option.length_toList_le
  have hreverse : (xs.between options.start options.start).reverse =
      xs.between options.start options.start := by
    generalize xs.between options.start options.start = ys at hlen
    cases ys with
    | nil => rfl
    | cons y ys =>
      have hnil : ys = [] := by simpa using hlen
      rw [hnil, List.reverse_singleton]
  rw [EntryLog.answer, hfilter, hreverse, ite_self]
  cases hc : options.count with
  | none => rfl
  | some c =>
    have hpos : 1 ≤ c := Nat.one_le_iff_ne_zero.mpr fun hzero => hcount (by rw [hc, hzero])
    exact List.take_of_length_le (hlen.trans hpos)

/-- A query fails on an exclusive start at the greatest id or an exclusive end at the least
one, and else returns what it asks for. -/
theorem streamRangeWithOptions_spec (h : StreamHolds s kc key xs lastId) (now : UInt64)
    (options : StreamRange) : streamRangeWithOptions s kc key now options =
      if options.excludeStart && options.start.isMax then
        .error (.invalidData errInvalidStartIdInterval)
      else if options.excludeEnd && options.stop.isMin then
        .error (.invalidData errInvalidEndIdInterval)
      else .ok ((xs.answer options).map entryOf) := by
  have hnone : (∀ x ∈ xs, ¬options.Covers x.1) → .ok [] =
      (.ok ((xs.answer options).map entryOf) : Except Error (List StreamEntry)) := by
    intro hnone
    rw [answer_eq_nil hnone]
    rfl
  rw [streamRangeWithOptions]
  by_cases hstart : (options.excludeStart && options.start.isMax) = true
  · rw [if_pos hstart, if_pos hstart]
  rw [if_neg hstart, if_neg hstart]
  by_cases hstop : (options.excludeEnd && options.stop.isMin) = true
  · rw [if_pos hstop, if_pos hstop]
  rw [if_neg hstop, if_neg hstop]
  by_cases hzero : options.count = some 0
  · rw [if_pos hzero, EntryLog.answer, hzero]
    simp [cutTo]
  rw [if_neg hzero]
  by_cases hempty : (!options.reverse && decide (options.stop < options.start) ||
      options.reverse && decide (options.start < options.stop)) = true
  · rw [if_pos hempty]
    exact hnone fun x _ => not_covers_of_empty hempty x.1
  rw [if_neg hempty]
  rcases h.lookup now with ⟨hget, -, -, rfl, -⟩ | ⟨m, hget, hl, hlog, rfl⟩
  · rw [hget]
    exact hnone (List.forall_mem_nil _)
  · have hs := hlog.sorted encodeId_strictMono
    have hfirst := hl.first_le hs
    have hlast := hl.le_last hs
    rw [hget]
    simp only [bind, Except.bind]
    by_cases hsize : m.base.size = 0
    · rw [if_pos hsize]
      rw [hl.size_eq_zero] at hsize
      subst hsize
      exact hnone (List.forall_mem_nil _)
    rw [if_neg hsize]
    by_cases hforward : (!options.reverse &&
        (decide (m.lastEntryId < options.start) || decide (options.stop < m.firstEntryId))) = true
    · rw [if_pos hforward]
      simp only [Bool.and_eq_true, Bool.not_eq_true', Bool.or_eq_true, decide_eq_true_eq] at hforward
      refine hnone fun x hx => not_covers_of_outside (hfirst x hx) (hlast x hx) ?_
      simpa [StreamRange.low, StreamRange.high, hforward.1] using hforward.2
    rw [if_neg hforward]
    by_cases hreverse : (options.reverse &&
        (decide (options.start < m.firstEntryId) || decide (m.lastEntryId < options.stop))) = true
    · rw [if_pos hreverse]
      simp only [Bool.and_eq_true, Bool.or_eq_true, decide_eq_true_eq] at hreverse
      refine hnone fun x hx => not_covers_of_outside (hfirst x hx) (hlast x hx) ?_
      simpa [StreamRange.low, StreamRange.high, hreverse.1, or_comm] using hreverse.2
    rw [if_neg hreverse]
    by_cases hpoint : options.start = options.stop
    · rw [if_pos hpoint]
      by_cases hexcl : (options.excludeStart || options.excludeEnd) = true
      · rw [if_pos hexcl]
        exact hnone fun x _ => not_covers_of_open_point hpoint hexcl x.1
      · rw [if_neg hexcl]
        simp only [Bool.or_eq_true, not_or, Bool.not_eq_true] at hexcl
        rw [answer_of_point hpoint hexcl.1 hexcl.2 hzero hlog, ← getStreamEntry_eq hlog]
        rfl
    rw [if_neg hpoint, ← rangeScan_scanned hs hzero, EntryLog.scanned, StreamRange.low,
      StreamRange.high, rangeEntries_eq hlog, rangeEntries_eq hlog]
    split_ifs <;> rfl

/-! ## Lengths on one side of an id -/

structure StreamLen where
  entryId : StreamId := .min
  withEntryId : Bool := false
  toFirst : Bool := false
  deriving DecidableEq, Repr

def countBefore (entryId : StreamId) (count : UInt64) (id : StreamId) : UInt64 × Bool :=
  if entryId ≤ id then (count, false) else (count + 1, true)

def countAfter (entryId : StreamId) (count : UInt64) (id : StreamId) : UInt64 × Bool :=
  if entryId < id then (count + 1, true) else (count, true)

section
variable (s : Store) (kc : KeyComposer) (key : Key) (now : UInt64)

def countStep (step : UInt64 → StreamId → UInt64 × Bool) (count : UInt64) (x : Bytes × Bytes) :
    UInt64 × Bool :=
  if ¬streamPrefix kc key <+: x.1 then (count, false)
  else ((parseStreamIdFromSubkey (x.1.drop (streamPrefix kc key).length)).map (step count)).getD
    (count, true)

def streamLen : Except Error UInt64 := do
  match ← getStreamMeta s kc key now with
  | none => return 0
  | some m => return m.base.size

def streamLenWithOptions (options : StreamLen) : Except Error UInt64 := do
  match ← getStreamMeta s kc key now with
  | none => return 0
  | some m =>
    if !options.withEntryId then return m.base.size
    else if m.lastEntryId < options.entryId then
      return if options.toFirst then m.base.size else 0
    else if options.entryId < m.firstEntryId then
      return if options.toFirst then 0 else m.base.size
    else if !options.toFirst && decide (options.entryId = m.firstEntryId) ||
        options.toFirst && decide (options.entryId = m.lastEntryId) then
      return m.base.size.satSub 1
    else if options.toFirst then
      return foldBreak (countStep kc key (countBefore options.entryId)) 0
        (s.data.range (.included (streamPrefix kc key)) (.included (streamItem kc key options.entryId)))
    else
      return foldBreak (countStep kc key (countAfter options.entryId)) 0
        (s.data.range (.included (streamItem kc key options.entryId)) .unbounded)

end

def EntryLog.beside (xs : EntryLog) (options : StreamLen) : EntryLog :=
  if options.toFirst then xs.filter fun x => decide (x.1 < options.entryId)
  else xs.filter fun x => decide (options.entryId < x.1)

theorem foldBreak_countBefore (hs : xs.Pairwise fun x y => x.1 < y.1) (count : UInt64) :
    foldBreak (countBefore id) count (xs.map Prod.fst) =
      count + UInt64.ofNat (xs.filter fun x => decide (x.1 < id)).length := by
  induction xs generalizing count with
  | nil => simp [foldBreak]
  | cons x xs ih =>
    rw [List.pairwise_cons] at hs
    rw [List.map_cons, foldBreak, countBefore]
    by_cases hle : id ≤ x.1
    · have hnone : ((x :: xs).filter fun x => decide (x.1 < id)) = [] := by
        rw [List.filter_eq_nil_iff]
        intro y hy
        rcases List.mem_cons.mp hy with rfl | hy
        · simpa using hle
        · simpa using hle.trans (hs.1 y hy).le
      simp [hle, hnone]
    · have hlt := not_le.mp hle
      simp only [hle, if_false, if_true]
      rw [ih hs.2, List.filter_cons_of_pos (by simpa using hlt), List.length_cons, Nat.add_comm,
        UInt64.ofNat_add, ← UInt64.add_assoc]
      rfl

theorem foldBreak_countAfter (xs : EntryLog) (count : UInt64) :
    foldBreak (countAfter id) count (xs.map Prod.fst) =
      count + UInt64.ofNat (xs.filter fun x => decide (id < x.1)).length := by
  induction xs generalizing count with
  | nil => simp [foldBreak]
  | cons x xs ih =>
    rw [List.map_cons, foldBreak, countAfter]
    by_cases hlt : id < x.1
    · simp only [hlt, if_true]
      rw [ih, List.filter_cons_of_pos (by simpa using hlt), List.length_cons, Nat.add_comm,
        UInt64.ofNat_add, ← UInt64.add_assoc]
      rfl
    · simp only [hlt, if_false, if_true]
      rw [ih, List.filter_cons_of_neg (by simpa using hlt)]

theorem foldBreak_countStep (hlog : LogIn encodeId xs (s.family kc key .streamData))
    {lo hi : Bound Bytes} (hlo : ∀ k, lo.startsAt k = true → streamPrefix kc key ≤ k)
    (step : UInt64 → StreamId → UInt64 × Bool) (count : UInt64) :
    foldBreak (countStep kc key step) count (s.data.range lo hi) =
      foldBreak step count ((xs.filter fun x => lo.startsAt (streamItem kc key x.1) &&
        hi.endsAt (streamItem kc key x.1)).map Prod.fst) := by
  have hentries : (SortedMap.under (streamPrefix kc key) s.data).entries =
      xs.map fun x => (encodeId x.1, x.2) := hlog
  have hstep : ∀ st (x : Bytes × Bytes), countStep kc key step st x =
      if ¬streamPrefix kc key <+: x.1 then (st, false)
      else ((parseStreamIdFromSubkey (x.1.drop (streamPrefix kc key).length)).map (step st)).getD
        (st, true) := fun st x => rfl
  rw [foldBreak_range_under hlo (fun suffix _ => parseStreamIdFromSubkey suffix) hstep,
    hentries, List.filter_map, List.filterMap_map]
  congr 1
  rw [← List.filterMap_eq_map]
  refine (List.filterMap_congr fun x _ => ?_).trans (congrArg _ (List.filter_congr fun x _ => ?_))
  · simp only [Function.comp_apply, parse_encodeId]
  · simp only [Function.comp_apply, streamItem_eq_join]

theorem streamItem_le_iff {a b : StreamId} : streamItem kc key a ≤ streamItem kc key b ↔ a ≤ b := by
  rw [streamItem_eq_join, streamItem_eq_join, Bytes.append_le_append_iff,
    encodeId_strictMono.le_iff_le]

theorem prefix_le_streamItem (id : StreamId) : streamPrefix kc key ≤ streamItem kc key id := by
  rw [streamItem_eq_join]
  exact Bytes.le_append _ _

theorem count_before_spec (hlog : LogIn encodeId xs (s.family kc key .streamData)) (id : StreamId) :
    foldBreak (countStep kc key (countBefore id)) 0
        (s.data.range (.included (streamPrefix kc key)) (.included (streamItem kc key id))) =
      UInt64.ofNat (xs.filter fun x => decide (x.1 < id)).length := by
  have hs := hlog.sorted encodeId_strictMono
  have hlo : ∀ k, (Bound.included (streamPrefix kc key)).startsAt k = true → streamPrefix kc key ≤ k :=
    fun k hk => of_decide_eq_true hk
  rw [foldBreak_countStep hlog hlo, foldBreak_countBefore (hs.filter _),
    UInt64.zero_add, List.filter_filter]
  congr 2
  refine List.filter_congr fun x _ => ?_
  simp only [Bound.startsAt, Bound.endsAt, prefix_le_streamItem, streamItem_le_iff, decide_true,
    Bool.true_and]
  by_cases hlt : x.1 < id
  · simp [hlt, hlt.le]
  · simp [hlt]

theorem count_after_spec (hlog : LogIn encodeId xs (s.family kc key .streamData)) (id : StreamId) :
    foldBreak (countStep kc key (countAfter id)) 0
        (s.data.range (.included (streamItem kc key id)) .unbounded) =
      UInt64.ofNat (xs.filter fun x => decide (id < x.1)).length := by
  have hlo : ∀ k, (Bound.included (streamItem kc key id)).startsAt k = true → streamPrefix kc key ≤ k :=
    fun k hk => (prefix_le_streamItem id).trans (of_decide_eq_true hk)
  rw [foldBreak_countStep hlog hlo, foldBreak_countAfter, UInt64.zero_add, List.filter_filter]
  congr 2
  refine List.filter_congr fun x _ => ?_
  simp only [Bound.startsAt, Bound.endsAt, streamItem_le_iff, Bool.and_true]
  by_cases hlt : id < x.1
  · simp [hlt, hlt.le]
  · simp [hlt]

theorem length_above_first (hs : xs.Pairwise fun x y => x.1 < y.1) (hfirst : ∀ x ∈ xs.head?, x.1 = id) :
    (xs.filter fun x => decide (id < x.1)).length = xs.length - 1 := by
  cases xs with
  | nil => rfl
  | cons x xs =>
    have hx : x.1 = id := hfirst x rfl
    rw [List.pairwise_cons] at hs
    have hall : (xs.filter fun y => decide (id < y.1)) = xs :=
      List.filter_eq_self.mpr fun y hy => decide_eq_true (hx ▸ hs.1 y hy)
    rw [List.filter_cons_of_neg (by simp [hx]), hall, List.length_cons, Nat.add_sub_cancel]

theorem length_below_last (hs : xs.Pairwise fun x y => x.1 < y.1) (hlast : ∀ x ∈ xs.getLast?, x.1 = id) :
    (xs.filter fun x => decide (x.1 < id)).length = xs.length - 1 := by
  rcases List.eq_nil_or_concat xs with rfl | ⟨ys, y, rfl⟩
  · rfl
  · rw [List.concat_eq_append] at hs hlast ⊢
    have hy : y.1 = id := hlast y (by simp)
    have hall : (ys.filter fun x => decide (x.1 < id)) = ys :=
      List.filter_eq_self.mpr fun x hx =>
        decide_eq_true (hy ▸ (List.pairwise_append.mp hs).2.2 x hx y (by simp))
    rw [List.filter_append, hall, List.filter_cons_of_neg (by simp [hy])]
    simp

theorem beside_toFirst (options : StreamLen) (h : options.toFirst = true) :
    xs.beside options = xs.filter fun x => decide (x.1 < options.entryId) := if_pos h

theorem beside_toLast (options : StreamLen) (h : options.toFirst = false) :
    xs.beside options = xs.filter fun x => decide (options.entryId < x.1) := by
  rw [EntryLog.beside, h]
  rfl

theorem streamLenWithOptions_spec (h : StreamHolds s kc key xs lastId) (now : UInt64)
    (options : StreamLen) : ∃ n : UInt64, streamLenWithOptions s kc key now options = .ok n ∧
      n.toNat = if options.withEntryId then (xs.beside options).length else xs.length := by
  rcases h.lookup now with ⟨hget, -, -, rfl, -⟩ | ⟨m, hget, hl, hlog, rfl⟩
  · refine ⟨0, ?_, ?_⟩
    · rw [streamLenWithOptions, hget]
      rfl
    · rw [EntryLog.beside]
      split_ifs <;> rfl
  have hs := hlog.sorted encodeId_strictMono
  have hfirst := hl.first_le hs
  have hlast := hl.le_last hs
  rw [streamLenWithOptions, hget]
  simp only [bind, Except.bind]
  by_cases hwith : options.withEntryId = true
  · have hlen : ∀ p : StreamId × Bytes → Bool, (UInt64.ofNat (xs.filter p).length).toNat =
        (xs.filter p).length := by
      intro p
      have hle := List.length_filter_le p xs
      have hlt := hl.size ▸ m.base.size.toNat_lt
      exact UInt64.toNat_ofNat_of_lt' (hle.trans_lt hlt)
    rw [if_pos hwith, if_neg (by simpa using hwith)]
    by_cases habove : m.lastEntryId < options.entryId
    · have hall : ∀ x ∈ xs, x.1 < options.entryId := fun x hx => (hlast x hx).trans_lt habove
      rw [if_pos habove]
      refine ⟨_, rfl, ?_⟩
      cases hfirstSide : options.toFirst with
      | true =>
        rw [beside_toFirst options hfirstSide, List.filter_eq_self.mpr (by simpa using hall), if_pos rfl,
          hl.size]
      | false =>
        rw [beside_toLast options hfirstSide, List.filter_eq_nil_iff.mpr
          (by simpa using fun a b hx => (hall (a, b) hx).le)]
        rfl
    rw [if_neg habove]
    by_cases hbelow : options.entryId < m.firstEntryId
    · have hall : ∀ x ∈ xs, options.entryId < x.1 := fun x hx => hbelow.trans_le (hfirst x hx)
      rw [if_pos hbelow]
      refine ⟨_, rfl, ?_⟩
      cases hfirstSide : options.toFirst with
      | true =>
        rw [beside_toFirst options hfirstSide, List.filter_eq_nil_iff.mpr
          (by simpa using fun a b hx => (hall (a, b) hx).le)]
        rfl
      | false =>
        rw [beside_toLast options hfirstSide, List.filter_eq_self.mpr (by simpa using hall),
          if_neg Bool.false_ne_true, hl.size]
    rw [if_neg hbelow]
    cases hfirstSide : options.toFirst with
    | true =>
      rw [beside_toFirst options hfirstSide]
      by_cases hend : options.entryId = m.lastEntryId
      · rw [if_pos (by simp [hend])]
        refine ⟨_, rfl, ?_⟩
        rw [UInt64.toNat_satSub, hl.size, hend, length_below_last hs hl.last]
        rfl
      · rw [if_neg (by simp [hend]), if_pos rfl]
        refine ⟨_, rfl, ?_⟩
        rw [count_before_spec hlog, hlen]
    | false =>
      rw [beside_toLast options hfirstSide]
      by_cases hend : options.entryId = m.firstEntryId
      · rw [if_pos (by simp [hend])]
        refine ⟨_, rfl, ?_⟩
        rw [UInt64.toNat_satSub, hl.size, hend, length_above_first hs hl.first]
        rfl
      · rw [if_neg (by simp [hend]), if_neg Bool.false_ne_true]
        refine ⟨_, rfl, ?_⟩
        rw [count_after_spec hlog, hlen]
  · refine ⟨m.base.size, ?_, ?_⟩
    · rw [if_pos (by simpa using hwith)]
      rfl
    · rw [if_neg hwith, hl.size]

end Wedb
