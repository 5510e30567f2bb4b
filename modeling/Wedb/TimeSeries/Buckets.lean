import Wedb.Ordered.Grid
import Wedb.TimeSeries.Aggregator

/-!
# Buckets of a series

Bucket aggregation against the grid of buckets: the results are one entry for every bucket
that holds a sample, and for every one passed over when empty buckets are asked for. The
pass without limit is followed first; the limit cuts its results. Empty buckets are found
a duration apart from the bucket before, which is no bucket's start after the shorter
bucket in front of the alignment.
-/

universe u

namespace Wedb

namespace Aggregator

variable {α : Type u} {agg : Aggregator} {A : Arith α} {samples rest slice : List (UInt64 × α)}
  {countLimit : Option ℕ} {isReturnEmpty : Bool} {bucketTimestampType : BucketTimestampType}
  {results : List (UInt64 × α)} {st : SplitState α} {curr bkt next : UInt64} {i : ℕ}

/-! ## The pass without limit -/

def gapStarts (agg : Aggregator) (bkt next : UInt64) : List UInt64 :=
  if 0 < agg.bucketDuration ∧ next < bkt then
    next :: gapStarts agg bkt (next.satAdd agg.bucketDuration)
  else []
termination_by bkt.toNat - next.toNat
decreasing_by
  rename_i h
  have hlt := UInt64.lt_iff_toNat_lt.mp h.2
  have hstep := UInt64.lt_iff_toNat_lt.mp (UInt64.lt_satAdd h.2 h.1)
  omega

def gapEntries (agg : Aggregator) (A : Arith α) (isReturnEmpty : Bool) (curr bkt : UInt64) (val : α) :
    List (UInt64 × α) :=
  if isReturnEmpty then
    (agg.gapStarts bkt (curr.satAdd agg.bucketDuration)).map fun s =>
      (s, if agg.aggType = .last then val else A.zero)
  else []

def entriesFrom (agg : Aggregator) (A : Arith α) (isReturnEmpty : Bool) (curr : UInt64) :
    List (UInt64 × α) → List (UInt64 × α) → List (UInt64 × α)
  | slice, [] => [(curr, agg.aggregate A slice)]
  | slice, s :: rest =>
    if agg.calculateAlignedBucketLeft s.1 = curr then entriesFrom agg A isReturnEmpty curr (slice ++ [s]) rest
    else
      (curr, agg.aggregate A slice) ::
        (gapEntries agg A isReturnEmpty curr (agg.calculateAlignedBucketLeft s.1) (agg.aggregate A slice) ++
          entriesFrom agg A isReturnEmpty (agg.calculateAlignedBucketLeft s.1) [s] rest)

def entries (agg : Aggregator) (A : Arith α) (isReturnEmpty : Bool) :
    List (UInt64 × α) → List (UInt64 × α)
  | [] => []
  | s :: rest => entriesFrom agg A isReturnEmpty (agg.calculateAlignedBucketLeft s.1) [s] rest

def stamp (agg : Aggregator) (bucketTimestampType : BucketTimestampType) (e : UInt64 × α) : UInt64 × α :=
  (bucketTimestampType.calculateTimestamp e.1 agg.bucketDuration, e.2)

def cut (countLimit : Option ℕ) (l : List (UInt64 × α)) : List (UInt64 × α) :=
  match countLimit with
  | some limit => l.take limit
  | none => l

/-- An early return is what the limit leaves of the results. -/
def Follows (countLimit : Option ℕ) (full : List (UInt64 × α)) :
    Except (List (UInt64 × α)) (List (UInt64 × α)) → Prop
  | .error results => results.IsPrefix full ∧ countLimit = some results.length
  | .ok results => results = full ∧ limitReached countLimit full.length = false

theorem cut_of_follows {full more : List (UInt64 × α)}
    (h : Follows countLimit full (.error results)) : cut countLimit (full ++ more) = results := by
  obtain ⟨tail, rfl⟩ := h.1
  rw [h.2, cut, List.append_assoc, List.take_left']
  rfl

theorem limitReached_push (h : limitReached countLimit results.length = false)
    {e : UInt64 × α} (hpush : limitReached countLimit (results ++ [e]).length = true) :
    countLimit = some (results ++ [e]).length := by
  cases countLimit with
  | none => cases hpush
  | some limit =>
    simp only [limitReached, Option.any_some, decide_eq_false_iff_not, decide_eq_true_eq] at h hpush
    rw [List.length_append, List.length_singleton] at hpush ⊢
    exact congrArg some (by omega)

variable (agg bucketTimestampType bkt next) in
theorem fillEmpty_follows (emptyVal : α) (h : limitReached countLimit results.length = false) :
    Follows countLimit
      (results ++ ((agg.gapStarts bkt next).map fun s => (s, emptyVal)).map (agg.stamp bucketTimestampType))
      (agg.fillEmpty countLimit bucketTimestampType emptyVal bkt next results) := by
  induction hn : bkt.toNat - next.toNat using Nat.strong_induction_on generalizing next results with
  | h n ih =>
    rw [fillEmpty, gapStarts]
    by_cases hnext : 0 < agg.bucketDuration ∧ next < bkt
    · rw [if_pos hnext, if_pos hnext, List.map_cons, List.map_cons]
      dsimp only
      split_ifs with hpush
      · exact ⟨List.prefix_append_right_inj _ |>.mpr (List.prefix_append _ _),
          limitReached_push h hpush⟩
      · have hlt := UInt64.lt_iff_toNat_lt.mp hnext.2
        have hstep := UInt64.lt_iff_toNat_lt.mp (UInt64.lt_satAdd hnext.2 hnext.1)
        have hrec := ih (bkt.toNat - (next.satAdd agg.bucketDuration).toNat) (by omega) _
          (Bool.eq_false_iff.mpr hpush) rfl
        rw [List.append_assoc] at hrec
        exact hrec
    · rw [if_neg hnext, if_neg hnext, List.map_nil, List.map_nil, List.append_nil]
      exact ⟨rfl, h⟩

variable (agg A isReturnEmpty bucketTimestampType bkt) in
theorem closeBucket_follows (hslice : (samples.drop st.startIdx).take (i - st.startIdx) ≠ [])
    (h : limitReached countLimit st.results.length = false) :
    Follows countLimit
      (st.results ++ ((st.currBucket,
          agg.aggregate A ((samples.drop st.startIdx).take (i - st.startIdx))) ::
        gapEntries agg A isReturnEmpty st.currBucket bkt
          (agg.aggregate A ((samples.drop st.startIdx).take (i - st.startIdx)))).map
        (agg.stamp bucketTimestampType))
      (agg.closeBucket A samples countLimit isReturnEmpty bucketTimestampType st i bkt) := by
  have hempty : ((samples.drop st.startIdx).take (i - st.startIdx)).isEmpty = false :=
    List.isEmpty_eq_false_iff.mpr hslice
  rw [closeBucket, gapEntries, hempty, List.map_cons]
  generalize (samples.drop st.startIdx).take (i - st.startIdx) = bucketSlice
  cases isReturnEmpty with
  | true =>
    simp only [if_true]
    generalize (if agg.aggType = .last then agg.aggregate A bucketSlice else A.zero) = emptyVal
    split_ifs with hpush
    · exact ⟨(List.prefix_append_right_inj _).mpr (List.prefix_append [_] _),
        limitReached_push h hpush⟩
    · have hfill := fillEmpty_follows agg bucketTimestampType bkt
        (st.currBucket.satAdd agg.bucketDuration) emptyVal (Bool.eq_false_iff.mpr hpush)
      rw [List.append_assoc] at hfill
      exact hfill
  | false =>
    simp only [Bool.false_eq_true, if_false, Bool.not_false, if_true]
    split_ifs with hpush
    · exact ⟨List.prefix_rfl, limitReached_push h hpush⟩
    · exact ⟨rfl, Bool.eq_false_iff.mpr hpush⟩

variable (agg A isReturnEmpty bucketTimestampType st slice) in
theorem splitLoop_finish (hslice : slice ≠ []) (hi : st.startIdx ≤ i)
    (htake : (samples.drop st.startIdx).take (i - st.startIdx) = slice)
    (hrest : samples.drop i = rest) (h : limitReached countLimit st.results.length = false) :
    agg.finishSplit A samples countLimit isReturnEmpty bucketTimestampType
        (agg.splitLoop A samples countLimit isReturnEmpty bucketTimestampType rest i st) =
      cut countLimit (st.results ++
        (entriesFrom agg A isReturnEmpty st.currBucket slice rest).map (agg.stamp bucketTimestampType)) := by
  induction rest generalizing st i slice with
  | nil =>
    have hall : samples.drop st.startIdx = slice := by
      rw [← htake, List.take_of_length_le]
      rw [List.drop_eq_nil_iff] at hrest
      rw [List.length_drop]
      omega
    simp only [splitLoop, finishSplit, entriesFrom, hall, List.isEmpty_eq_false_iff.mpr hslice]
    rfl
  | cons s rest ih =>
    have hnext : samples.drop (i + 1) = rest := by
      rw [← List.drop_drop, hrest, List.drop_one, List.tail_cons]
    have hget : (samples.drop i).take 1 = [s] := by rw [hrest]; rfl
    rw [splitLoop, entriesFrom]
    by_cases hbkt : agg.calculateAlignedBucketLeft s.1 = st.currBucket
    · rw [if_neg (not_not.mpr hbkt), if_pos hbkt]
      have hlonger : (samples.drop st.startIdx).take (i + 1 - st.startIdx) = slice ++ [s] := by
        rw [show i + 1 - st.startIdx = i - st.startIdx + 1 by omega, List.take_add, htake,
          List.drop_drop, Nat.add_sub_cancel' hi, hget]
      exact ih (slice ++ [s]) st (by simp) (by omega) hlonger hnext h
    · rw [if_pos hbkt, if_neg hbkt]
      have hclose := closeBucket_follows agg A isReturnEmpty bucketTimestampType
        (agg.calculateAlignedBucketLeft s.1) (by rw [htake]; exact hslice) h
      rw [htake] at hclose
      rw [List.map_cons, List.map_append, List.append_cons, ← List.append_assoc]
      cases hrun : agg.closeBucket A samples countLimit isReturnEmpty bucketTimestampType st i
          (agg.calculateAlignedBucketLeft s.1) with
      | error results =>
        rw [hrun, List.map_cons, List.append_cons] at hclose
        exact (cut_of_follows hclose).symm
      | ok results =>
        rw [hrun, List.map_cons, List.append_cons] at hclose
        have hrec := ih [s] ⟨results, agg.calculateAlignedBucketLeft s.1, i⟩ (by simp)
          (Nat.le_succ i) (by simpa using hget) hnext (by rw [hclose.1]; exact hclose.2)
        rw [hclose.1] at hrec ⊢
        exact hrec

theorem splitAndAggregate_eq (h : countLimit ≠ some 0) :
    agg.splitAndAggregate A samples countLimit isReturnEmpty bucketTimestampType =
      cut countLimit ((entries agg A isReturnEmpty samples).map (agg.stamp bucketTimestampType)) := by
  have hroom : limitReached countLimit 0 = false := by
    cases countLimit with
    | none => rfl
    | some limit => simpa [limitReached, Nat.pos_iff_ne_zero] using h
  cases samples with
  | nil => cases countLimit <;> simp [splitAndAggregate, entries, cut]
  | cons first rest =>
    have hrun := @splitLoop_finish α agg A (first :: rest) rest [first] countLimit isReturnEmpty
      bucketTimestampType ⟨[], agg.calculateAlignedBucketLeft first.1, 0⟩ 1 (by simp) (Nat.zero_le 1) rfl rfl hroom
    rw [splitAndAggregate, entries, splitLoop, if_neg (not_not.mpr rfl)]
    exact hrun

/-! ## A limit of zero -/

theorem splitLoop_same (h : ∀ s ∈ rest, agg.calculateAlignedBucketLeft s.1 = st.currBucket) :
    agg.splitLoop A samples countLimit isReturnEmpty bucketTimestampType rest i st = .ok st := by
  induction rest generalizing i with
  | nil => rfl
  | cons s rest ih =>
    rw [splitLoop, if_neg (not_not.mpr (h s (List.mem_cons_self ..)))]
    exact ih fun x hx => h x (List.mem_cons_of_mem s hx)

theorem splitLoop_zero (h : ∃ s ∈ rest, agg.calculateAlignedBucketLeft s.1 ≠ st.currBucket)
    (hi : st.startIdx < i) (hrest : samples.drop i = rest) :
    ∃ results, results ≠ [] ∧
      agg.splitLoop A samples (some 0) isReturnEmpty bucketTimestampType rest i st = .error results := by
  induction rest generalizing i with
  | nil =>
    obtain ⟨s, hs, -⟩ := h
    cases hs
  | cons s rest ih =>
    rw [splitLoop]
    by_cases hbkt : agg.calculateAlignedBucketLeft s.1 = st.currBucket
    · rw [if_neg (not_not.mpr hbkt)]
      obtain ⟨x, hx, hne⟩ := h
      have hmem : x ∈ rest := (List.mem_cons.mp hx).resolve_left fun hxs => hne (hxs ▸ hbkt)
      have hnext : samples.drop (i + 1) = rest := by
        rw [← List.drop_drop, hrest, List.drop_one, List.tail_cons]
      exact ih ⟨x, hmem, hne⟩ (by omega) hnext
    · rw [if_pos hbkt]
      have hslice : ((samples.drop st.startIdx).take (i - st.startIdx)).isEmpty = false := by
        have hlen := congrArg List.length hrest
        rw [List.length_drop, List.length_cons] at hlen
        rw [List.isEmpty_eq_false_iff, ← List.length_pos_iff, List.length_take, List.length_drop]
        omega
      have hreached : ∀ n, limitReached (some 0) n = true := by
        intro n
        simp [limitReached]
      refine ⟨st.results ++ [(bucketTimestampType.calculateTimestamp st.currBucket agg.bucketDuration,
        agg.aggregate A ((samples.drop st.startIdx).take (i - st.startIdx)))], by simp, ?_⟩
      rw [closeBucket, hslice]
      simp only [hreached, if_true, Bool.not_false, ite_self]

/-! ## Buckets on the grid -/

def width (agg : Aggregator) : ℕ := agg.bucketDuration.toNat

def offset (agg : Aggregator) : ℕ := (agg.alignment % agg.bucketDuration).toNat

theorem offset_lt (hd : 0 < agg.bucketDuration) : agg.offset < agg.width := by
  rw [offset, width, UInt64.toNat_mod]
  exact Nat.mod_lt _ hd

theorem toNat_left (hd : 0 < agg.bucketDuration) (ts : UInt64) :
    (agg.calculateAlignedBucketLeft ts).toNat = Grid.start agg.width agg.offset ts.toNat := by
  have hne : agg.bucketDuration ≠ 0 := by
    rintro hzero
    rw [hzero] at hd
    exact absurd hd (by decide)
  rw [calculateAlignedBucketLeft, if_neg hne, Grid.start]
  dsimp only
  by_cases hlt : ts < agg.alignment % agg.bucketDuration
  · have hnat : ts.toNat < agg.offset := UInt64.lt_iff_toNat_lt.mp hlt
    rw [if_pos hlt, if_pos hnat]
    rfl
  · have hle : agg.alignment % agg.bucketDuration ≤ ts := UInt64.not_lt.mp hlt
    have hnat : agg.offset ≤ ts.toNat := UInt64.le_iff_toNat_le.mp hle
    have hsub : (ts - agg.alignment % agg.bucketDuration).toNat = ts.toNat - agg.offset :=
      UInt64.toNat_sub_of_le _ _ hle
    have hdiv := Nat.div_mul_le_self (ts.toNat - agg.offset) agg.width
    have hts := ts.toNat_lt
    rw [if_neg hlt, if_neg (not_lt.mpr hnat), UInt64.toNat_add, UInt64.toNat_mul, UInt64.toNat_div,
      hsub]
    change ((ts.toNat - agg.offset) / agg.width * agg.width % 2 ^ 64 + agg.offset) % 2 ^ 64 = _
    rw [Nat.mod_eq_of_lt (a := (ts.toNat - agg.offset) / agg.width * agg.width) (by omega),
      Nat.mod_eq_of_lt (by omega)]

def startOf (agg : Aggregator) (ts : UInt64) : ℕ := Grid.start agg.width agg.offset ts.toNat

theorem offset_le_startOf (hd : 0 < agg.bucketDuration) {ts : UInt64} (h : agg.offset ≤ ts.toNat) :
    agg.offset ≤ agg.startOf ts :=
  Grid.IsStart.le_start (.inr ⟨0, by omega⟩) hd h

/-- The empty buckets found from a bucket's start on are those before the next bucket. -/
theorem gapStarts_spec (hd : 0 < agg.bucketDuration) (ha : agg.offset ≤ next.toNat)
    (hnext : Grid.IsStart agg.width agg.offset next.toNat) :
    (agg.gapStarts bkt next).Pairwise (· < ·) ∧
      ∀ s, s ∈ agg.gapStarts bkt next ↔
        Grid.IsStart agg.width agg.offset s.toNat ∧ next ≤ s ∧ s < bkt := by
  induction hn : bkt.toNat - next.toNat using Nat.strong_induction_on generalizing next with
  | h n ih =>
    rw [gapStarts]
    by_cases hlt : next < bkt
    · rw [if_pos ⟨hd, hlt⟩]
      have hltNat := UInt64.lt_iff_toNat_lt.mp hlt
      have hstep := UInt64.lt_iff_toNat_lt.mp (UInt64.lt_satAdd hlt hd)
      have hsum := UInt64.toNat_satAdd_eq_min next agg.bucketDuration
      have hbkt := bkt.toNat_lt
      -- A start after this one is a width further, or there is none.
      have hafter : ∀ s : UInt64, Grid.IsStart agg.width agg.offset s.toNat → next < s →
          next.satAdd agg.bucketDuration ≤ s := by
        intro s hs hns
        have hadd := hnext.add_le hs ha (UInt64.lt_iff_toNat_lt.mp hns)
        rw [UInt64.le_iff_toNat_le, hsum]
        exact (min_le_left _ _).trans hadd
      by_cases hfits : next.toNat + agg.bucketDuration.toNat < 2 ^ 64
      · have hnat := UInt64.toNat_satAdd hfits
        have hstart : Grid.IsStart agg.width agg.offset (next.satAdd agg.bucketDuration).toNat := by
          rw [hnat]
          exact hnext.add ha
        obtain ⟨hsorted, hmem⟩ := ih (bkt.toNat - (next.satAdd agg.bucketDuration).toNat) (by omega)
          (by omega) hstart rfl
        refine ⟨List.pairwise_cons.mpr ⟨fun s hs => ?_, hsorted⟩, fun s => ?_⟩
        · exact (UInt64.lt_satAdd hlt hd).trans_le ((hmem s).mp hs).2.1
        · rw [List.mem_cons, hmem]
          constructor
          · rintro (rfl | ⟨hs, hle, hsb⟩)
            · exact ⟨hnext, le_rfl, hlt⟩
            · exact ⟨hs, ((UInt64.lt_satAdd hlt hd).trans_le hle).le, hsb⟩
          · rintro ⟨hs, hle, hsb⟩
            rcases hle.eq_or_lt with heq | hns
            · exact .inl heq.symm
            · exact .inr ⟨hs, hafter s hs hns, hsb⟩
      · have hlast : ¬next.satAdd agg.bucketDuration < bkt := by
          rw [UInt64.lt_iff_toNat_lt]
          omega
        rw [gapStarts, if_neg fun h => hlast h.2]
        refine ⟨List.pairwise_singleton _ _, fun s => ?_⟩
        rw [List.mem_singleton]
        constructor
        · rintro rfl
          exact ⟨hnext, le_rfl, hlt⟩
        · rintro ⟨hs, hle, hsb⟩
          rcases hle.eq_or_lt with heq | hns
          · exact heq.symm
          · exact absurd ((hafter s hs hns).trans_lt hsb) hlast
    · rw [if_neg fun h => hlt h.2]
      refine ⟨List.Pairwise.nil, fun s => ⟨fun hs => absurd hs List.not_mem_nil, ?_⟩⟩
      rintro ⟨-, hle, hsb⟩
      exact absurd (hle.trans_lt hsb) hlt

theorem gapStarts_between (hd : 0 < agg.bucketDuration)
    (hcurr : Grid.IsStart agg.width agg.offset curr.toNat)
    (hgap : agg.offset ≤ curr.toNat ∨ bkt.toNat ≤ agg.offset) :
    (agg.gapStarts bkt (curr.satAdd agg.bucketDuration)).Pairwise (· < ·) ∧
      ∀ s, s ∈ agg.gapStarts bkt (curr.satAdd agg.bucketDuration) ↔
        Grid.IsStart agg.width agg.offset s.toNat ∧ curr < s ∧ s < bkt := by
  have hsum := UInt64.toNat_satAdd_eq_min curr agg.bucketDuration
  have hbktLt := bkt.toNat_lt
  have hoffset := offset_lt hd
  have hwidth : agg.width = agg.bucketDuration.toNat := rfl
  -- Where the bucket after is reached at once, no start lies between.
  have hnone : ¬curr.satAdd agg.bucketDuration < bkt →
      (∀ s : UInt64, Grid.IsStart agg.width agg.offset s.toNat → curr < s → ¬s < bkt) →
      (agg.gapStarts bkt (curr.satAdd agg.bucketDuration)).Pairwise (· < ·) ∧
        ∀ s, s ∈ agg.gapStarts bkt (curr.satAdd agg.bucketDuration) ↔
          Grid.IsStart agg.width agg.offset s.toNat ∧ curr < s ∧ s < bkt := by
    intro hstop hbetween
    rw [gapStarts, if_neg fun h => hstop h.2]
    refine ⟨List.Pairwise.nil, fun s => ⟨fun hs => absurd hs List.not_mem_nil, fun h => ?_⟩⟩
    exact absurd h.2.2 (hbetween s h.1 h.2.1)
  by_cases ha : agg.offset ≤ curr.toNat
  · have hadd : ∀ s : UInt64, Grid.IsStart agg.width agg.offset s.toNat → curr < s →
        curr.toNat + agg.width ≤ s.toNat := fun s hs hlt =>
      hcurr.add_le hs ha (UInt64.lt_iff_toNat_lt.mp hlt)
    by_cases hfits : curr.toNat + agg.bucketDuration.toNat < 2 ^ 64
    · have hnat := UInt64.toNat_satAdd hfits
      have hnext : Grid.IsStart agg.width agg.offset (curr.satAdd agg.bucketDuration).toNat := by
        rw [hnat]
        exact hcurr.add ha
      obtain ⟨hsorted, hmem⟩ := @gapStarts_spec agg bkt _ hd (by omega) hnext
      refine ⟨hsorted, fun s => (hmem s).trans ?_⟩
      have hd' : 0 < agg.bucketDuration.toNat := hd
      have hiff : Grid.IsStart agg.width agg.offset s.toNat →
          (curr.satAdd agg.bucketDuration ≤ s ↔ curr < s) := by
        intro hs
        rw [UInt64.le_iff_toNat_le, hnat]
        refine ⟨fun hle => UInt64.lt_iff_toNat_lt.mpr (by omega), fun hlt => hadd s hs hlt⟩
      constructor
      · rintro ⟨hs, hle, hsb⟩
        exact ⟨hs, (hiff hs).mp hle, hsb⟩
      · rintro ⟨hs, hlt, hsb⟩
        exact ⟨hs, (hiff hs).mpr hlt, hsb⟩
    · refine hnone (by rw [UInt64.lt_iff_toNat_lt]; omega) fun s hs hlt => ?_
      have hle := hadd s hs hlt
      have hslt := s.toNat_lt
      omega
  · have hle := hgap.resolve_left ha
    have hzero : curr.toNat = 0 := by
      rcases hcurr with hzero | ⟨k, hk⟩
      · exact hzero
      · omega
    refine hnone (by rw [UInt64.lt_iff_toNat_lt]; omega) fun s hs hlt hsb => ?_
    have hsNat := UInt64.lt_iff_toNat_lt.mp hlt
    have hsbNat := UInt64.lt_iff_toNat_lt.mp hsb
    rcases hs with hs | ⟨k, hk⟩
    · omega
    · omega

/-- The bucket in front of the alignment is followed by the next one, where empty buckets
are asked for. -/
def GapsFit (agg : Aggregator) (isReturnEmpty : Bool) (curr : UInt64) (rest : List (UInt64 × α)) : Prop :=
  isReturnEmpty = true → agg.offset ≤ curr.toNat ∨ (∀ x ∈ rest, x.1.toNat < agg.offset) ∨
    ∃ x ∈ rest, agg.startOf x.1 = agg.offset

def inBucket (agg : Aggregator) (s : UInt64) (samples : List (UInt64 × α)) : List (UInt64 × α) :=
  samples.filter fun x => decide (agg.startOf x.1 = s.toNat)

structure EntriesOf (agg : Aggregator) (A : Arith α) (isReturnEmpty : Bool) (curr : UInt64)
    (slice rest es : List (UInt64 × α)) : Prop where
  sorted : (es.map Prod.fst).Pairwise (· < ·)
  mem : ∀ s, s ∈ es.map Prod.fst ↔ s = curr ∨ (∃ x ∈ rest, agg.startOf x.1 = s.toNat) ∨
    (isReturnEmpty = true ∧ Grid.IsStart agg.width agg.offset s.toNat ∧ curr < s ∧
      ∃ x ∈ rest, s.toNat < agg.startOf x.1)
  value_curr : ∀ e ∈ es, e.1 = curr → e.2 = agg.aggregate A (slice ++ agg.inBucket curr rest)
  value : ∀ e ∈ es, e.1 ≠ curr → (∃ x ∈ rest, agg.startOf x.1 = e.1.toNat) →
    e.2 = agg.aggregate A (agg.inBucket e.1 rest)

theorem inBucket_cons_of_eq {x : UInt64 × α} {s : UInt64} (h : agg.startOf x.1 = s.toNat) :
    agg.inBucket s (x :: rest) = x :: agg.inBucket s rest :=
  List.filter_cons_of_pos (decide_eq_true h)

theorem inBucket_cons_of_ne {x : UInt64 × α} {s : UInt64} (h : agg.startOf x.1 ≠ s.toNat) :
    agg.inBucket s (x :: rest) = agg.inBucket s rest :=
  List.filter_cons_of_neg (by rw [decide_eq_true_eq]; exact h)

theorem EntriesOf.join {x : UInt64 × α} {es : List (UInt64 × α)} (hx : agg.startOf x.1 = curr.toNat)
    (h : EntriesOf agg A isReturnEmpty curr (slice ++ [x]) rest es) :
    EntriesOf agg A isReturnEmpty curr slice (x :: rest) es where
  sorted := h.sorted
  mem s := by
    rw [h.mem]
    simp only [List.mem_cons, exists_eq_or_imp, hx]
    constructor
    · rintro (hs | hs | ⟨he, hs, hlt, hr⟩)
      · exact .inl hs
      · exact .inr (.inl (.inr hs))
      · exact .inr (.inr ⟨he, hs, hlt, .inr hr⟩)
    · rintro (hs | (hs | hs) | ⟨he, hs, hlt, hr | hr⟩)
      · exact .inl hs
      · exact .inl (UInt64.toNat_inj.mp hs).symm
      · exact .inr (.inl hs)
      · exact absurd (UInt64.lt_iff_toNat_lt.mp hlt) (not_lt.mpr hr.le)
      · exact .inr (.inr ⟨he, hs, hlt, hr⟩)
  value_curr e he hcurr := by
    rw [h.value_curr e he hcurr, inBucket_cons_of_eq hx, List.append_assoc]
    rfl
  value e he hne hmem := by
    have hxne : agg.startOf x.1 ≠ e.1.toNat := fun hxe =>
      hne (UInt64.toNat_inj.mp (hxe.symm.trans hx))
    rw [inBucket_cons_of_ne hxne]
    obtain ⟨y, hy, hye⟩ := hmem
    rcases List.mem_cons.mp hy with rfl | hy
    · exact absurd hye hxne
    · exact h.value e he hne ⟨y, hy, hye⟩

theorem EntriesOf.ge {es : List (UInt64 × α)} (h : EntriesOf agg A isReturnEmpty curr slice rest es)
    (hle : ∀ x ∈ rest, curr.toNat ≤ agg.startOf x.1) {s : UInt64} (hs : s ∈ es.map Prod.fst) :
    curr ≤ s := by
  rcases (h.mem s).mp hs with rfl | ⟨x, hx, hxs⟩ | ⟨-, -, hlt, -⟩
  · exact le_rfl
  · exact UInt64.le_iff_toNat_le.mpr (hxs ▸ hle x hx)
  · exact hlt.le

theorem EntriesOf.close {x : UInt64 × α} {es : List (UInt64 × α)} (hd : 0 < agg.bucketDuration)
    (hcurr : Grid.IsStart agg.width agg.offset curr.toNat)
    (hlt : curr < agg.calculateAlignedBucketLeft x.1)
    (hle : ∀ y ∈ rest, agg.startOf x.1 ≤ agg.startOf y.1)
    (hgap : isReturnEmpty = true →
      agg.offset ≤ curr.toNat ∨ (agg.calculateAlignedBucketLeft x.1).toNat ≤ agg.offset)
    (h : EntriesOf agg A isReturnEmpty (agg.calculateAlignedBucketLeft x.1) [x] rest es) :
    EntriesOf agg A isReturnEmpty curr slice (x :: rest)
      ((curr, agg.aggregate A slice) ::
        (gapEntries agg A isReturnEmpty curr (agg.calculateAlignedBucketLeft x.1)
          (agg.aggregate A slice) ++ es)) := by
  have hleft : (agg.calculateAlignedBucketLeft x.1).toNat = agg.startOf x.1 := toNat_left hd x.1
  have hltNat : curr.toNat < agg.startOf x.1 := hleft ▸ UInt64.lt_iff_toNat_lt.mp hlt
  have hge : ∀ s, s ∈ es.map Prod.fst → agg.calculateAlignedBucketLeft x.1 ≤ s := fun s hs =>
    h.ge (fun y hy => hleft ▸ hle y hy) hs
  have hlater : ∀ y ∈ x :: rest, curr.toNat < agg.startOf y.1 := by
    intro y hy
    rcases List.mem_cons.mp hy with rfl | hy
    · exact hltNat
    · exact hltNat.trans_le (hle y hy)
  -- What the buckets passed over are.
  have hgaps : ((gapEntries agg A isReturnEmpty curr (agg.calculateAlignedBucketLeft x.1)
        (agg.aggregate A slice)).map Prod.fst).Pairwise (· < ·) ∧
      ∀ s, s ∈ (gapEntries agg A isReturnEmpty curr (agg.calculateAlignedBucketLeft x.1)
        (agg.aggregate A slice)).map Prod.fst ↔ isReturnEmpty = true ∧
          Grid.IsStart agg.width agg.offset s.toNat ∧ curr < s ∧ s < agg.calculateAlignedBucketLeft x.1 := by
    rw [gapEntries]
    by_cases hempty : isReturnEmpty = true
    · have hbetween := gapStarts_between hd hcurr (hgap hempty)
      rw [if_pos hempty, List.map_map]
      simp only [Function.comp_def, List.map_id']
      exact ⟨hbetween.1, fun s => by rw [hbetween.2, hempty]; simp⟩
    · rw [if_neg hempty]
      exact ⟨List.Pairwise.nil, fun s => by simp [hempty]⟩
  have hnotCurr : ∀ e ∈ gapEntries agg A isReturnEmpty curr (agg.calculateAlignedBucketLeft x.1)
      (agg.aggregate A slice) ++ es, e.1 ≠ curr := by
    intro e he
    rcases List.mem_append.mp he with he | he
    · exact ((hgaps.2 e.1).mp (List.mem_map_of_mem he)).2.2.1.ne'
    · exact (hlt.trans_le (hge e.1 (List.mem_map_of_mem he))).ne'
  refine ⟨?_, fun s => ?_, fun e he hc => ?_, fun e he hne hmem => ?_⟩
  · rw [List.map_cons, List.map_append, List.pairwise_cons, List.pairwise_append]
    refine ⟨fun s hs => ?_, hgaps.1, h.sorted, fun s hs t ht => ?_⟩
    · rcases List.mem_append.mp hs with hs | hs
      · exact ((hgaps.2 s).mp hs).2.2.1
      · exact hlt.trans_le (hge s hs)
    · exact ((hgaps.2 s).mp hs).2.2.2.trans_le (hge t ht)
  · rw [List.map_cons, List.map_append, List.mem_cons, List.mem_append, hgaps.2, h.mem]
    have hlt_iff : s < agg.calculateAlignedBucketLeft x.1 ↔ s.toNat < agg.startOf x.1 := by
      rw [UInt64.lt_iff_toNat_lt, hleft]
    have heq_iff : s = agg.calculateAlignedBucketLeft x.1 ↔ agg.startOf x.1 = s.toNat := by
      rw [← UInt64.toNat_inj, hleft, eq_comm]
    rw [hlt_iff, heq_iff]
    simp only [List.mem_cons, exists_eq_or_imp]
    constructor
    · rintro (hs | ⟨he, hstart, hcs, hsx⟩ | hs | hs | ⟨he, hstart, hxs, hr⟩)
      · exact .inl hs
      · exact .inr (.inr ⟨he, hstart, hcs, .inl hsx⟩)
      · exact .inr (.inl (.inl hs))
      · exact .inr (.inl (.inr hs))
      · exact .inr (.inr ⟨he, hstart, hlt.trans hxs, .inr hr⟩)
    · rintro (hs | (hs | hs) | ⟨he, hstart, hcs, hr⟩)
      · exact .inl hs
      · exact .inr (.inr (.inl hs))
      · exact .inr (.inr (.inr (.inl hs)))
      · rcases lt_trichotomy s.toNat (agg.startOf x.1) with hsx | hsx | hsx
        · exact .inr (.inl ⟨he, hstart, hcs, hsx⟩)
        · exact .inr (.inr (.inl hsx.symm))
        · have hxs : agg.calculateAlignedBucketLeft x.1 < s := by
            rw [UInt64.lt_iff_toNat_lt, hleft]
            exact hsx
          exact .inr (.inr (.inr (.inr ⟨he, hstart, hxs, hr.resolve_left (by omega)⟩)))
  · rcases List.mem_cons.mp he with rfl | he
    · have hnone : agg.inBucket curr (x :: rest) = [] := by
        rw [inBucket, List.filter_eq_nil_iff]
        intro y hy
        rw [decide_eq_true_eq]
        exact (hlater y hy).ne'
      rw [hnone, List.append_nil]
    · exact absurd hc (hnotCurr e he)
  · rcases List.mem_cons.mp he with rfl | he
    · exact absurd rfl hne
    · obtain ⟨y, hy, hye⟩ := hmem
      rcases List.mem_append.mp he with he | he
      · -- A bucket passed over holds no sample.
        have hbefore := ((hgaps.2 e.1).mp (List.mem_map_of_mem he)).2.2.2
        rw [UInt64.lt_iff_toNat_lt, hleft] at hbefore
        have hxy : agg.startOf x.1 ≤ agg.startOf y.1 := by
          rcases List.mem_cons.mp hy with rfl | hy
          · exact le_rfl
          · exact hle y hy
        omega
      · by_cases hxe : agg.startOf x.1 = e.1.toNat
        · have heq : e.1 = agg.calculateAlignedBucketLeft x.1 :=
            UInt64.toNat_inj.mp (hxe.symm.trans hleft.symm)
          rw [h.value_curr e he heq, ← heq, inBucket_cons_of_eq hxe]
          rfl
        · have hne' : e.1 ≠ agg.calculateAlignedBucketLeft x.1 := fun heq =>
            hxe (by rw [heq, hleft])
          rw [inBucket_cons_of_ne hxe]
          rcases List.mem_cons.mp hy with rfl | hy
          · exact absurd hye hxe
          · exact h.value e he hne' ⟨y, hy, hye⟩

theorem startOf_mono (hd : 0 < agg.bucketDuration) {s t : UInt64} (h : s ≤ t) :
    agg.startOf s ≤ agg.startOf t :=
  Grid.start_mono hd (UInt64.le_iff_toNat_le.mp h)

theorem entriesFrom_spec (hd : 0 < agg.bucketDuration)
    (hcurr : Grid.IsStart agg.width agg.offset curr.toNat)
    (hsorted : rest.Pairwise fun x y => x.1 ≤ y.1) (hle : ∀ x ∈ rest, curr.toNat ≤ agg.startOf x.1)
    (hgap : agg.GapsFit isReturnEmpty curr rest) :
    EntriesOf agg A isReturnEmpty curr slice rest (entriesFrom agg A isReturnEmpty curr slice rest) := by
  induction rest generalizing curr slice with
  | nil => exact ⟨List.pairwise_singleton _ _, by simp [entriesFrom], by simp [entriesFrom, inBucket],
      by simp [entriesFrom]⟩
  | cons x rest ih =>
    obtain ⟨hxle, hrest⟩ := List.pairwise_cons.mp hsorted
    have hleft : (agg.calculateAlignedBucketLeft x.1).toNat = agg.startOf x.1 := toNat_left hd x.1
    have hmono : ∀ y ∈ rest, agg.startOf x.1 ≤ agg.startOf y.1 := fun y hy =>
      startOf_mono hd (hxle y hy)
    rw [entriesFrom]
    by_cases hbkt : agg.calculateAlignedBucketLeft x.1 = curr
    · rw [if_pos hbkt]
      have hx : agg.startOf x.1 = curr.toNat := by rw [← hleft, hbkt]
      refine (ih hcurr hrest (fun y hy => hle y (List.mem_cons_of_mem x hy)) fun hempty => ?_).join hx
      rcases hgap hempty with ha | hall | ⟨y, hy, hya⟩
      · exact .inl ha
      · exact .inr (.inl fun y hy => hall y (List.mem_cons_of_mem x hy))
      · rcases List.mem_cons.mp hy with rfl | hy
        · exact .inl (by omega)
        · exact .inr (.inr ⟨y, hy, hya⟩)
    · rw [if_neg hbkt]
      have hlt : curr < agg.calculateAlignedBucketLeft x.1 := by
        have hcx := hle x List.mem_cons_self
        rw [← hleft, ← UInt64.le_iff_toNat_le] at hcx
        exact lt_of_le_of_ne hcx (Ne.symm hbkt)
      have hltNat := UInt64.lt_iff_toNat_lt.mp hlt
      have hoff : agg.offset ≤ (agg.calculateAlignedBucketLeft x.1).toNat := by
        rw [toNat_left hd] at hltNat ⊢
        exact Grid.le_of_start_ne_zero (by omega)
      have hstart : Grid.IsStart agg.width agg.offset (agg.calculateAlignedBucketLeft x.1).toNat := by
        rw [toNat_left hd]
        exact Grid.isStart_start _ _ _
      refine EntriesOf.close hd hcurr hlt hmono (fun hempty => ?_)
        (ih hstart hrest (fun y hy => hleft ▸ hmono y hy) fun _ => .inl hoff)
      rcases hgap hempty with ha | hall | ⟨y, hy, hya⟩
      · exact .inl ha
      · have hsmall := hall x List.mem_cons_self
        have hstartLe : agg.startOf x.1 ≤ x.1.toNat := Grid.start_le _ _ _
        omega
      · right
        rw [hleft, ← hya]
        rcases List.mem_cons.mp hy with rfl | hy
        · exact le_rfl
        · exact hmono y hy

/-! ## The partition -/

def Occupied (agg : Aggregator) (samples : List (UInt64 × α)) (s : UInt64) : Prop :=
  ∃ x ∈ samples, agg.startOf x.1 = s.toNat

/-- The entries of the buckets that hold a sample, and of those between them when empty
buckets are asked for. -/
structure BucketsOf (agg : Aggregator) (A : Arith α) (samples : List (UInt64 × α))
    (isReturnEmpty : Bool) (full : List (UInt64 × α)) : Prop where
  sorted : (full.map Prod.fst).Pairwise (· < ·)
  starts : ∀ s, s ∈ full.map Prod.fst ↔ Grid.IsStart agg.width agg.offset s.toNat ∧
    (agg.Occupied samples s ∨ isReturnEmpty = true ∧ ¬agg.Occupied samples s ∧
      (∃ x ∈ samples, agg.startOf x.1 < s.toNat) ∧ ∃ y ∈ samples, s.toNat < agg.startOf y.1)
  values : ∀ e ∈ full, agg.Occupied samples e.1 → e.2 = agg.aggregate A (agg.inBucket e.1 samples)

def BucketPartition (agg : Aggregator) (A : Arith α) (samples : List (UInt64 × α))
    (countLimit : Option ℕ) (isReturnEmpty : Bool) : Prop :=
  ∃ full, BucketsOf agg A samples isReturnEmpty full ∧
    agg.splitAndAggregate A samples countLimit isReturnEmpty .start = cut countLimit full

def RightIsNext (agg : Aggregator) (ts : UInt64) : Prop :=
  Grid.IsNext agg.width agg.offset ts.toNat (agg.calculateAlignedBucketRight ts).toNat

/-- A limit of zero meets one bucket at most, and the bucket in front of the alignment is
not followed by an empty one that is asked for. -/
structure SplitFits (agg : Aggregator) (samples : List (UInt64 × α)) (countLimit : Option ℕ)
    (isReturnEmpty : Bool) : Prop where
  limit : countLimit = some 0 → ∀ x ∈ samples, ∀ y ∈ samples, agg.startOf x.1 = agg.startOf y.1
  gaps : isReturnEmpty = true → countLimit ≠ some 1 → (∀ x ∈ samples, agg.offset ≤ x.1.toNat) ∨
    (∀ x ∈ samples, x.1.toNat < agg.offset) ∨ ∃ x ∈ samples, agg.startOf x.1 = agg.offset

def RightFits (agg : Aggregator) (ts : UInt64) : Prop :=
  agg.offset ≤ ts.toNat ∧ agg.startOf ts + agg.width < 2 ^ 64

theorem rightIsNext_iff (hd : 0 < agg.bucketDuration) (ts : UInt64) :
    agg.RightIsNext ts ↔ agg.RightFits ts := by
  have hright : (agg.calculateAlignedBucketRight ts).toNat =
      min (agg.startOf ts + agg.width) (2 ^ 64 - 1) := by
    rw [calculateAlignedBucketRight, UInt64.toNat_satAdd_eq_min, toNat_left hd]
    rfl
  rw [RightIsNext, hright]
  constructor
  · intro hnext
    by_cases ha : agg.offset ≤ ts.toNat
    · have heq := hnext.unique (Grid.isNext_add hd ha)
      have hfits : agg.startOf ts + agg.width ≤ 2 ^ 64 - 1 := min_eq_left_iff.mp heq
      exact ⟨ha, by omega⟩
    · have heq := hnext.unique (Grid.isNext_offset (not_le.mp ha))
      have hzero : agg.startOf ts = 0 := by rw [startOf, Grid.start, if_pos (not_le.mp ha)]
      have hlt := offset_lt hd
      have hwidth : agg.width < 2 ^ 64 := agg.bucketDuration.toNat_lt
      omega
  · intro h
    rw [min_eq_left (by have := h.2; omega)]
    exact Grid.isNext_add hd h.1

theorem bucketsOf_entries (hd : 0 < agg.bucketDuration) (hsorted : samples.Pairwise fun x y => x.1 ≤ y.1)
    (hgap : isReturnEmpty = true → (∀ x ∈ samples, agg.offset ≤ x.1.toNat) ∨
      (∀ x ∈ samples, x.1.toNat < agg.offset) ∨ ∃ x ∈ samples, agg.startOf x.1 = agg.offset) :
    BucketsOf agg A samples isReturnEmpty (entries agg A isReturnEmpty samples) := by
  cases samples with
  | nil => exact ⟨List.Pairwise.nil, fun s => by simp [entries, Occupied], by simp [entries]⟩
  | cons x rest =>
    obtain ⟨hxle, hrest⟩ := List.pairwise_cons.mp hsorted
    have hleft : (agg.calculateAlignedBucketLeft x.1).toNat = agg.startOf x.1 := toNat_left hd x.1
    have hmono : ∀ y ∈ rest, (agg.calculateAlignedBucketLeft x.1).toNat ≤ agg.startOf y.1 := fun y hy =>
      hleft ▸ startOf_mono hd (hxle y hy)
    have hstart : Grid.IsStart agg.width agg.offset (agg.calculateAlignedBucketLeft x.1).toNat :=
      hleft ▸ Grid.isStart_start _ _ _
    have hfit : agg.GapsFit isReturnEmpty (agg.calculateAlignedBucketLeft x.1) rest := by
      intro hempty
      rcases hgap hempty with hall | hall | ⟨y, hy, hya⟩
      · refine .inl ?_
        rw [hleft]
        exact offset_le_startOf hd (hall x List.mem_cons_self)
      · exact .inr (.inl fun y hy => hall y (List.mem_cons_of_mem x hy))
      · rcases List.mem_cons.mp hy with rfl | hy
        · exact .inl (by omega)
        · exact .inr (.inr ⟨y, hy, hya⟩)
    have hspec := @entriesFrom_spec α agg A rest [x] isReturnEmpty _ hd hstart hrest hmono hfit
    refine ⟨hspec.sorted, fun s => (hspec.mem s).trans ?_, fun e he hocc => ?_⟩
    · constructor
      · rintro (rfl | ⟨y, hy, hys⟩ | ⟨hempty, hs, hlt, y, hy, hsy⟩)
        · exact ⟨hstart, .inl ⟨x, List.mem_cons_self, hleft.symm⟩⟩
        · exact ⟨hys ▸ Grid.isStart_start _ _ _, .inl ⟨y, List.mem_cons_of_mem x hy, hys⟩⟩
        · refine ⟨hs, or_iff_not_imp_left.mpr fun hocc => ⟨hempty, hocc, ⟨x, List.mem_cons_self, ?_⟩,
            y, List.mem_cons_of_mem x hy, hsy⟩⟩
          exact hleft ▸ UInt64.lt_iff_toNat_lt.mp hlt
      · rintro ⟨hs, ⟨y, hy, hys⟩ | ⟨hempty, -, ⟨z, hz, hzs⟩, y, hy, hsy⟩⟩
        · rcases List.mem_cons.mp hy with rfl | hy
          · exact .inl (UInt64.toNat_inj.mp (hys.symm.trans hleft.symm))
          · exact .inr (.inl ⟨y, hy, hys⟩)
        · have hxz : agg.startOf x.1 ≤ agg.startOf z.1 := by
            rcases List.mem_cons.mp hz with rfl | hz
            · exact le_rfl
            · exact hleft ▸ hmono z hz
          have hlt : agg.calculateAlignedBucketLeft x.1 < s := by
            rw [UInt64.lt_iff_toNat_lt, hleft]
            omega
          rcases List.mem_cons.mp hy with rfl | hy
          · omega
          · exact .inr (.inr ⟨hempty, hs, hlt, y, hy, hsy⟩)
    · by_cases hx : agg.startOf x.1 = e.1.toNat
      · have heq : e.1 = agg.calculateAlignedBucketLeft x.1 :=
          UInt64.toNat_inj.mp (hx.symm.trans hleft.symm)
        rw [hspec.value_curr e he heq, ← heq, inBucket_cons_of_eq hx]
        rfl
      · have hne : e.1 ≠ agg.calculateAlignedBucketLeft x.1 := fun heq => hx (by rw [heq, hleft])
        obtain ⟨y, hy, hye⟩ := hocc
        rw [inBucket_cons_of_ne hx]
        rcases List.mem_cons.mp hy with rfl | hy
        · exact absurd hye hx
        · exact hspec.value e he hne ⟨y, hy, hye⟩

theorem exists_bucketsOf (agg : Aggregator) (A : Arith α) (samples : List (UInt64 × α))
    (isReturnEmpty : Bool) : ∃ full, BucketsOf agg A samples isReturnEmpty full := by
  classical
  have hfinite : Finite UInt64 := Finite.of_injective UInt64.toFin fun a b h => UInt64.toFin_inj.mp h
  let starts : Set UInt64 := fun s => Grid.IsStart agg.width agg.offset s.toNat ∧
    (agg.Occupied samples s ∨ isReturnEmpty = true ∧ ¬agg.Occupied samples s ∧
      (∃ x ∈ samples, agg.startOf x.1 < s.toNat) ∧ ∃ y ∈ samples, s.toNat < agg.startOf y.1)
  have hmap : (((Set.toFinite starts).toFinset.sort).map fun s =>
      (s, agg.aggregate A (agg.inBucket s samples))).map Prod.fst = (Set.toFinite starts).toFinset.sort := by
    rw [List.map_map]
    exact List.map_id _
  refine ⟨((Set.toFinite starts).toFinset.sort).map fun s => (s, agg.aggregate A (agg.inBucket s samples)),
    ?_, fun s => ?_, fun e he _ => ?_⟩
  · rw [hmap]
    exact (Finset.sortedLT_sort _).pairwise
  · rw [hmap, Finset.mem_sort, Set.Finite.mem_toFinset]
    rfl
  · obtain ⟨s, -, rfl⟩ := List.mem_map.mp he
    rfl

theorem BucketsOf.first {x : UInt64 × α} {full : List (UInt64 × α)} (hd : 0 < agg.bucketDuration)
    (hsorted : (x :: rest).Pairwise fun x y => x.1 ≤ y.1)
    (h : BucketsOf agg A (x :: rest) isReturnEmpty full) :
    ∃ more, full = (agg.calculateAlignedBucketLeft x.1,
      agg.aggregate A (agg.inBucket (agg.calculateAlignedBucketLeft x.1) (x :: rest))) :: more := by
  have hleft : (agg.calculateAlignedBucketLeft x.1).toNat = agg.startOf x.1 := toNat_left hd x.1
  have hocc : agg.Occupied (x :: rest) (agg.calculateAlignedBucketLeft x.1) :=
    ⟨x, List.mem_cons_self, hleft.symm⟩
  have hmin : ∀ y ∈ x :: rest, agg.startOf x.1 ≤ agg.startOf y.1 := by
    intro y hy
    rcases List.mem_cons.mp hy with rfl | hy
    · exact le_rfl
    · exact startOf_mono hd ((List.pairwise_cons.mp hsorted).1 y hy)
  have hmem := (h.starts (agg.calculateAlignedBucketLeft x.1)).mpr
    ⟨hleft ▸ Grid.isStart_start _ _ _, .inl hocc⟩
  cases full with
  | nil => cases hmem
  | cons e more =>
    have hge : agg.calculateAlignedBucketLeft x.1 ≤ e.1 := by
      have he := ((h.starts e.1).mp (by simp)).2
      rw [UInt64.le_iff_toNat_le, hleft]
      rcases he with ⟨y, hy, hye⟩ | ⟨-, -, ⟨y, hy, hye⟩, -⟩
      · exact hye ▸ hmin y hy
      · exact (hmin y hy).trans hye.le
    have heq : e.1 = agg.calculateAlignedBucketLeft x.1 := by
      rcases List.mem_cons.mp hmem with heq | hlater
      · exact heq.symm
      · exact absurd ((List.pairwise_cons.mp h.sorted).1 _ hlater) (not_lt.mpr hge)
    have hvalue := h.values e List.mem_cons_self (heq ▸ hocc)
    exact ⟨more, by rw [← heq, ← hvalue]⟩

/-- What the pass finds after the bucket in front of the alignment, when the next bucket
that holds a sample is not the one that follows. -/
theorem entriesFrom_short (hd : 0 < agg.bucketDuration) (ha : 0 < agg.offset)
    (hlarge : ∃ y ∈ rest, agg.offset ≤ y.1.toNat) (hne : ∀ y ∈ rest, agg.startOf y.1 ≠ agg.offset) :
    ∃ v v' more, entriesFrom agg A true 0 slice rest = (0, v) :: (agg.bucketDuration, v') :: more := by
  induction rest generalizing slice with
  | nil =>
    obtain ⟨y, hy, -⟩ := hlarge
    cases hy
  | cons x rest ih =>
    have hleft : (agg.calculateAlignedBucketLeft x.1).toNat = agg.startOf x.1 := toNat_left hd x.1
    rw [entriesFrom]
    by_cases hbkt : agg.calculateAlignedBucketLeft x.1 = 0
    · rw [if_pos hbkt]
      have hzero : agg.startOf x.1 = 0 := by rw [← hleft, hbkt]; rfl
      have hsmall : x.1.toNat < agg.offset := by
        by_contra hle
        have hstart := offset_le_startOf hd (not_lt.mp hle)
        omega
      obtain ⟨y, hy, hya⟩ := hlarge
      have hmem : y ∈ rest := by
        rcases List.mem_cons.mp hy with rfl | hy
        · omega
        · exact hy
      exact ih ⟨y, hmem, hya⟩ fun y hy => hne y (List.mem_cons_of_mem x hy)
    · rw [if_neg hbkt]
      have hpos : agg.startOf x.1 ≠ 0 := by
        rw [← hleft]
        exact fun hzero => hbkt (UInt64.toNat_inj.mp hzero)
      have hoff : agg.offset ≤ agg.startOf x.1 := Grid.le_of_start_ne_zero hpos
      have hgap : agg.offset + agg.width ≤ agg.startOf x.1 :=
        Grid.IsStart.add_le (.inr ⟨0, by omega⟩) (Grid.isStart_start _ _ _) le_rfl
          (lt_of_le_of_ne hoff (Ne.symm (hne x List.mem_cons_self)))
      have hsat : (0 : UInt64).satAdd agg.bucketDuration = agg.bucketDuration := by
        have hlt := agg.bucketDuration.toNat_lt
        rw [← UInt64.toNat_inj, UInt64.toNat_satAdd_eq_min, UInt64.toNat_zero, Nat.zero_add,
          min_eq_left (by omega)]
      have hwidth : agg.width = agg.bucketDuration.toNat := rfl
      have hlt : agg.bucketDuration < agg.calculateAlignedBucketLeft x.1 := by
        rw [UInt64.lt_iff_toNat_lt, hleft]
        omega
      have hgaps : agg.gapStarts (agg.calculateAlignedBucketLeft x.1) agg.bucketDuration =
          agg.bucketDuration :: agg.gapStarts (agg.calculateAlignedBucketLeft x.1)
            (agg.bucketDuration.satAdd agg.bucketDuration) := by
        rw [gapStarts, if_pos ⟨hd, hlt⟩]
      rw [gapEntries, hsat, hgaps]
      exact ⟨_, _, _, rfl⟩

theorem entriesFrom_take_one : (entriesFrom agg A isReturnEmpty curr slice rest).take 1 =
    (entriesFrom agg A false curr slice rest).take 1 := by
  induction rest generalizing slice with
  | nil => rfl
  | cons x rest ih =>
    rw [entriesFrom, entriesFrom]
    by_cases hbkt : agg.calculateAlignedBucketLeft x.1 = curr
    · rw [if_pos hbkt, if_pos hbkt]
      exact ih
    · rw [if_neg hbkt, if_neg hbkt]
      rfl

theorem map_stamp_start (l : List (UInt64 × α)) : l.map (agg.stamp .start) = l := List.map_id l

theorem BucketPartition.limit (h : BucketPartition agg A samples (some 0) isReturnEmpty)
    (hd : 0 < agg.bucketDuration) {x y : UInt64 × α} (hx : x ∈ samples) (hy : y ∈ samples) :
    agg.startOf x.1 = agg.startOf y.1 := by
  obtain ⟨full, -, hresult⟩ := h
  cases samples with
  | nil => cases hx
  | cons first rest =>
    have hsame : ∀ s ∈ first :: rest, agg.startOf s.1 = agg.startOf first.1 := by
      by_contra hdiffer
      push Not at hdiffer
      obtain ⟨s, hs, hne⟩ := hdiffer
      have hmem : s ∈ rest := (List.mem_cons.mp hs).resolve_left fun heq => hne (by rw [heq])
      have hbkt : agg.calculateAlignedBucketLeft s.1 ≠ agg.calculateAlignedBucketLeft first.1 := by
        intro heq
        rw [← UInt64.toNat_inj, toNat_left hd, toNat_left hd] at heq
        exact hne heq
      obtain ⟨results, hne', hrun⟩ := @splitLoop_zero α agg A (first :: rest) rest isReturnEmpty .start
        ⟨[], agg.calculateAlignedBucketLeft first.1, 0⟩ 1 ⟨s, hmem, hbkt⟩ Nat.zero_lt_one rfl
      rw [splitAndAggregate, splitLoop, if_neg (not_not.mpr rfl), hrun, finishSplit, cut,
        List.take_zero] at hresult
      exact hne' hresult
    rw [hsame x hx, hsame y hy]

theorem BucketPartition.gaps (h : BucketPartition agg A samples countLimit true)
    (hd : 0 < agg.bucketDuration) (hsorted : samples.Pairwise fun x y => x.1 ≤ y.1)
    (hone : countLimit ≠ some 1) : (∀ x ∈ samples, agg.offset ≤ x.1.toNat) ∨
    (∀ x ∈ samples, x.1.toNat < agg.offset) ∨ ∃ x ∈ samples, agg.startOf x.1 = agg.offset := by
  by_contra hnot
  push Not at hnot
  obtain ⟨⟨x, hx, hsmall⟩, ⟨y, hy, hlarge⟩, hne⟩ := hnot
  have hxzero : agg.startOf x.1 = 0 := by rw [startOf, Grid.start, if_pos hsmall]
  have hoff := offset_le_startOf hd hlarge
  have hzero : countLimit ≠ some 0 := by
    rintro rfl
    have heq := h.limit hd hx hy
    omega
  obtain ⟨full, hfull, hresult⟩ := h
  rw [splitAndAggregate_eq hzero, map_stamp_start] at hresult
  cases samples with
  | nil => cases hx
  | cons first rest =>
    have hfirst : first.1.toNat < agg.offset := by
      rcases List.mem_cons.mp hx with rfl | hx
      · exact hsmall
      · have hle := UInt64.le_iff_toNat_le.mp ((List.pairwise_cons.mp hsorted).1 x hx)
        omega
    have hleft : agg.calculateAlignedBucketLeft first.1 = 0 := by
      rw [← UInt64.toNat_inj, toNat_left hd, Grid.start, if_pos hfirst]
      rfl
    have hmem : y ∈ rest := by
      rcases List.mem_cons.mp hy with rfl | hy
      · omega
      · exact hy
    obtain ⟨v, v', more, hentries⟩ := @entriesFrom_short α agg A rest [first] hd (by omega)
      ⟨y, hmem, hlarge⟩ fun z hz => hne z (List.mem_cons_of_mem first hz)
    rw [entries, hleft, hentries] at hresult
    have hin : (agg.bucketDuration, v') ∈ cut countLimit full := by
      rw [← hresult]
      cases countLimit with
      | none => simp [cut]
      | some limit =>
        obtain ⟨n, rfl⟩ : ∃ n, limit = n + 2 := by
          refine ⟨limit - 2, ?_⟩
          have h0 : limit ≠ 0 := fun h0 => hzero (by rw [h0])
          have h1 : limit ≠ 1 := fun h1 => hone (by rw [h1])
          omega
        simp [cut]
    have hsub : (agg.bucketDuration, v') ∈ full := by
      cases countLimit with
      | none => exact hin
      | some limit => exact List.mem_of_mem_take hin
    have hstart := ((hfull.starts agg.bucketDuration).mp (List.mem_map_of_mem hsub)).1
    exact Grid.not_isStart_width (by omega) (offset_lt hd) hstart

theorem SplitFits.partition (h : agg.SplitFits samples countLimit isReturnEmpty)
    (hd : 0 < agg.bucketDuration) (hsorted : samples.Pairwise fun x y => x.1 ≤ y.1) :
    BucketPartition agg A samples countLimit isReturnEmpty := by
  obtain ⟨full, hfull⟩ := exists_bucketsOf agg A samples isReturnEmpty
  by_cases hzero : countLimit = some 0
  · subst hzero
    refine ⟨full, hfull, ?_⟩
    cases samples with
    | nil => rfl
    | cons first rest =>
      have hsame : ∀ s ∈ first :: rest,
          agg.calculateAlignedBucketLeft s.1 = agg.calculateAlignedBucketLeft first.1 := by
        intro s hs
        rw [← UInt64.toNat_inj, toNat_left hd, toNat_left hd]
        exact h.limit rfl s hs first List.mem_cons_self
      rw [splitAndAggregate, splitLoop_same hsame]
      rfl
  · by_cases hone : countLimit = some 1
    · subst hone
      refine ⟨full, hfull, ?_⟩
      rw [splitAndAggregate_eq hzero, map_stamp_start]
      cases samples with
      | nil =>
        have hnone : full = [] := by
          rw [List.eq_nil_iff_forall_not_mem]
          intro e he
          have hocc := ((hfull.starts e.1).mp (List.mem_map_of_mem he)).2
          simp [Occupied] at hocc
        rw [hnone]
        rfl
      | cons first rest =>
        have hclosed := @bucketsOf_entries α agg A (first :: rest) false hd hsorted fun htrue => by
          cases htrue
        obtain ⟨more, hmore⟩ := hfull.first hd hsorted
        obtain ⟨more', hmore'⟩ := hclosed.first hd hsorted
        rw [entries] at hmore'
        rw [cut, cut, entries, entriesFrom_take_one, hmore', hmore]
        rfl
    · by_cases hempty : isReturnEmpty = true
      · exact ⟨_, bucketsOf_entries hd hsorted fun _ => h.gaps hempty hone,
          by rw [splitAndAggregate_eq hzero, map_stamp_start]⟩
      · exact ⟨_, bucketsOf_entries hd hsorted fun htrue => absurd htrue hempty,
          by rw [splitAndAggregate_eq hzero, map_stamp_start]⟩

theorem BucketPartition.fits (h : BucketPartition agg A samples countLimit isReturnEmpty)
    (hd : 0 < agg.bucketDuration) (hsorted : samples.Pairwise fun x y => x.1 ≤ y.1) :
    agg.SplitFits samples countLimit isReturnEmpty where
  limit hzero x hx y hy := by
    subst hzero
    exact h.limit hd hx hy
  gaps hempty hone := by
    subst hempty
    exact h.gaps hd hsorted hone

/-- Ascending samples are cut into the buckets of the grid exactly where the limit is not
zero or one bucket holds them all, and no empty bucket is asked for right after the shorter
one; the bucket on the right is the next one from the alignment on, below the last. -/
theorem bucketPartition_iff (hd : 0 < agg.bucketDuration)
    (hsorted : samples.Pairwise fun x y => x.1 ≤ y.1) (ts : UInt64) :
    BucketPartition agg A samples countLimit isReturnEmpty ∧ agg.RightIsNext ts ↔
      agg.SplitFits samples countLimit isReturnEmpty ∧ agg.RightFits ts := by
  rw [rightIsNext_iff hd]
  exact and_congr_left fun _ => ⟨fun h => h.fits hd hsorted, fun h => h.partition hd hsorted⟩

def sampleAggregator : Aggregator := ⟨.sum, 10, 13⟩

def sampleArith : Arith (Extended ℚ) := Extended.arith fun x => x

def spreadSamples : List (UInt64 × Extended ℚ) := [(1, .fin 2), (7, .fin 3), (9, .fin 4), (35, .fin 5)]

theorem bucketPartition_iff_spread :
    BucketPartition sampleAggregator sampleArith spreadSamples (some 3) true ∧
      sampleAggregator.RightIsNext 35 := by
  refine (bucketPartition_iff (by decide) (by decide) 35).mpr ⟨⟨by simp, fun _ _ => ?_⟩, ?_⟩
  · exact .inr (.inr ⟨(7, .fin 3), by simp [spreadSamples], by decide⟩)
  · exact ⟨by decide, by decide⟩

/-- The empty bucket after the shorter one is not found at its start. -/
theorem bucketPartition_short_lost : ¬∀ (agg : Aggregator) (samples : List (UInt64 × Extended ℚ))
    (countLimit : Option ℕ) (isReturnEmpty : Bool), 0 < agg.bucketDuration →
    (samples.Pairwise fun x y => x.1 ≤ y.1) →
    BucketPartition agg sampleArith samples countLimit isReturnEmpty := by
  intro hclaim
  have hpart := hclaim sampleAggregator [(1, .fin 2), (35, .fin 5)] none true (by decide) (by decide)
  have hgaps := hpart.gaps (by decide) (by decide) (by simp)
  exact absurd hgaps (by decide)

end Aggregator

end Wedb
