import Wedb.Ordered.ByteString
import Wedb.Ordered.Saturating
import Wedb.TimeSeries.Reducer

/-!
# Bucket aggregation

An aggregator cuts the line of time into buckets of one duration from an alignment on. One
pass over ascending samples closes a bucket where the next sample lies in another, and
fills the buckets passed over when empty buckets are asked for; it ends early when the
number of results reaches the limit.
-/

universe u

namespace UInt64

theorem lt_satAdd {a b d : UInt64} (hab : a < b) (hd : 0 < d) : a < a.satAdd d := by
  have hb := b.toNat_lt
  have hd' : 0 < d.toNat := hd
  have hab' : a.toNat < b.toNat := hab
  rw [UInt64.lt_iff_toNat_lt, toNat_satAdd_eq_min]
  omega

end UInt64

namespace Wedb

inductive BucketTimestampType
  | start
  | end_
  | mid
  deriving DecidableEq, Repr

def BucketTimestampType.calculateTimestamp (bucketLeft bucketDuration : UInt64) :
    BucketTimestampType → UInt64
  | start => bucketLeft
  | end_ => bucketLeft.satAdd bucketDuration
  | mid => bucketLeft.satAdd (bucketDuration / 2)

structure Aggregator where
  aggType : AggregationType
  bucketDuration : UInt64
  alignment : UInt64
  deriving DecidableEq, Repr

namespace Aggregator

variable {α : Type u} (agg : Aggregator)

def calculateAlignedBucketLeft (ts : UInt64) : UInt64 :=
  if agg.bucketDuration = 0 then ts
  else
    let align := agg.alignment % agg.bucketDuration
    if ts < align then 0
    else (ts - align) / agg.bucketDuration * agg.bucketDuration + align

def calculateAlignedBucketRight (ts : UInt64) : UInt64 :=
  (agg.calculateAlignedBucketLeft ts).satAdd agg.bucketDuration

variable (A : Arith α)

def aggregate (samples : List (UInt64 × α)) : α := Reducer.reduceSamples A samples agg.aggType

/-- A vector never has `usize::MAX` entries, so that no limit is never reached. -/
def limitReached (countLimit : Option ℕ) (len : ℕ) : Bool :=
  countLimit.any fun limit => decide (limit ≤ len)

structure SplitState (α : Type u) where
  results : List (UInt64 × α)
  currBucket : UInt64
  startIdx : ℕ

section
variable (samples : List (UInt64 × α)) (countLimit : Option ℕ) (isReturnEmpty : Bool)
  (bucketTimestampType : BucketTimestampType)

def fillEmpty (emptyVal : α) (bkt nextBucket : UInt64) (results : List (UInt64 × α)) :
    Except (List (UInt64 × α)) (List (UInt64 × α)) :=
  if 0 < agg.bucketDuration ∧ nextBucket < bkt then
    let emptyTs := bucketTimestampType.calculateTimestamp nextBucket agg.bucketDuration
    let results := results ++ [(emptyTs, emptyVal)]
    if limitReached countLimit results.length then .error results
    else fillEmpty emptyVal bkt (nextBucket.satAdd agg.bucketDuration) results
  else .ok results
termination_by bkt.toNat - nextBucket.toNat
decreasing_by
  rename_i h _
  have hlt := UInt64.lt_iff_toNat_lt.mp h.2
  have hstep := UInt64.lt_iff_toNat_lt.mp (UInt64.lt_satAdd h.2 h.1)
  omega

def closeBucket (st : SplitState α) (i : ℕ) (bkt : UInt64) :
    Except (List (UInt64 × α)) (List (UInt64 × α)) :=
  let bucketSlice := (samples.drop st.startIdx).take (i - st.startIdx)
  let aggTs := bucketTimestampType.calculateTimestamp st.currBucket agg.bucketDuration
  let val := agg.aggregate A bucketSlice
  let results := st.results ++ [(aggTs, val)]
  if isReturnEmpty then
    if limitReached countLimit results.length then .error results
    else
      let emptyVal := if agg.aggType = .last then val else A.zero
      agg.fillEmpty countLimit bucketTimestampType emptyVal bkt
        (st.currBucket.satAdd agg.bucketDuration) results
  else if !bucketSlice.isEmpty then
    if limitReached countLimit results.length then .error results else .ok results
  else .ok st.results

def splitLoop : List (UInt64 × α) → ℕ → SplitState α →
    Except (List (UInt64 × α)) (SplitState α)
  | [], _, st => .ok st
  | (ts, _) :: rest, i, st =>
    let bkt := agg.calculateAlignedBucketLeft ts
    if bkt ≠ st.currBucket then
      match agg.closeBucket A samples countLimit isReturnEmpty bucketTimestampType st i bkt with
      | .error results => .error results
      | .ok results => splitLoop rest (i + 1) ⟨results, bkt, i⟩
    else splitLoop rest (i + 1) st

def finishSplit : Except (List (UInt64 × α)) (SplitState α) → List (UInt64 × α)
  | .error results => results
  | .ok st =>
    let bucketSlice := samples.drop st.startIdx
    let aggTs := bucketTimestampType.calculateTimestamp st.currBucket agg.bucketDuration
    let results :=
      if !bucketSlice.isEmpty || isReturnEmpty then
        st.results ++ [(aggTs, agg.aggregate A bucketSlice)]
      else st.results
    match countLimit with
    | some limit => results.take limit
    | none => results

def splitAndAggregate : List (UInt64 × α) :=
  match samples with
  | [] => []
  | first :: _ =>
    agg.finishSplit A samples countLimit isReturnEmpty bucketTimestampType
      (agg.splitLoop A samples countLimit isReturnEmpty bucketTimestampType samples 0
        ⟨[], agg.calculateAlignedBucketLeft first.1, 0⟩)

end

end Aggregator

end Wedb
