import Wedb.TDigest.Centroid
import Wedb.Ordered.Heap
import Mathlib.Data.List.Sort
import Mathlib.Data.UInt

/-!
# Digests

A digest keeps its centroids and a buffer of values that are merged into them when the
buffer is full or the digest is read. Merging several digests feeds all their centroids
to one merger. Digests that are merged into another one lose their centroids to it.
-/

namespace Wedb

def f64Max : ℚ := (2 ^ 53 - 1) * 2 ^ 971

def asU32 (x : ℚ) : ℕ := min ⌊x⌋₊ (2 ^ 32 - 1)

def defaultCompression : ℕ := 100
def maxCapacity : ℕ := 1024

def calculateCapacity (compression : ℕ) : ℕ :=
  let cap := compression * 6 + 10
  if cap > maxCapacity then maxCapacity else cap

structure CentroidHeapItem where
  mean : ℚ
  listIdx : ℕ
  deriving DecidableEq

/-- The heap compares means with tolerances, which is no order: it may give up any item. -/
abbrev CentroidHeap := BinaryHeap fun _ : CentroidHeapItem => ()

structure CentroidsWithDelta where
  centroids : List Centroid
  delta : ℕ
  min : ℚ
  max : ℚ
  totalWeight : ℚ
  deriving DecidableEq

structure TDigestState where
  compression : ℚ
  capacity : ℕ
  centroids : List Centroid
  unmergedBuffer : List ℚ
  totalWeight : ℚ
  mergedWeight : ℚ
  totalObservations : UInt64
  mergeTimes : UInt64
  min : ℚ
  max : ℚ
  deriving DecidableEq

def lower (m v : ℚ) : ℚ := if v < m then v else m

def raise (m v : ℚ) : ℚ := if m < v then v else m

def singletons (values : List ℚ) : List Centroid := values.map fun v => ⟨v, 1⟩

section

variable (scaler : Scaler) (tol : Tolerance) (heap : CentroidHeap)

/-- What is left of the streams is in `lists`, and the heap has an item for each of them. -/
structure Streams where
  items : List CentroidHeapItem
  lists : List (List Centroid)
  merger : TDigestMerger × List Centroid

def Streams.pull (s : Streams) (items : List CentroidHeapItem) (listIdx : ℕ) : Streams :=
  match s.lists[listIdx]? with
  | some (c :: rest) =>
    { items := (rest.head?.map fun next => heap.push items ⟨next.mean, listIdx⟩).getD items
      lists := s.lists.set listIdx rest
      merger := TDigestMerger.add scaler s.merger c }
  | _ => { s with items := items }

def pushFirsts (items : List CentroidHeapItem) : ℕ → List (List Centroid) → List CentroidHeapItem
  | _, [] => items
  | i, list :: lists =>
    pushFirsts ((list.head?.map fun c => heap.push items ⟨c.mean, i⟩).getD items) (i + 1) lists

def Streams.size (s : Streams) : ℕ := s.items.length + s.lists.flatten.length

theorem flatten_set_perm {lists : List (List Centroid)} {i : ℕ} {c : Centroid}
    {rest : List Centroid} (h : lists[i]? = some (c :: rest)) :
    lists.flatten.Perm (c :: (lists.set i rest).flatten) := by
  induction lists generalizing i with
  | nil => cases h
  | cons list lists ih =>
    cases i with
    | zero =>
      obtain rfl : list = c :: rest := by simpa using h
      exact .refl _
    | succ i =>
      rw [List.getElem?_cons_succ] at h
      rw [List.set_cons_succ, List.flatten_cons, List.flatten_cons]
      exact ((ih h).append_left list).trans List.perm_middle

variable {scaler heap} in
theorem Streams.size_pull {s : Streams} {items : List CentroidHeapItem} {it : CentroidHeapItem}
    (hpop : heap.pop s.items = some (it, items)) (listIdx : ℕ) :
    (s.pull scaler heap items listIdx).size < s.size := by
  have hitems := heap.length_of_pop hpop
  unfold pull
  split
  · rename_i c rest hlist
    have hlen := (flatten_set_perm hlist).length_eq
    rw [List.length_cons] at hlen
    cases rest with
    | nil =>
      simp only [size, List.head?_nil, Option.map_none, Option.getD_none]
      omega
    | cons next rest =>
      simp only [size, List.head?_cons, Option.map_some, Option.getD_some, heap.length_push]
      omega
  · simp only [size]
    omega

def addHeap (s : Streams) (buffer : List ℚ) : TDigestMerger × List Centroid :=
  match _hpop : heap.pop s.items with
  | none =>
    match buffer with
    | [] => s.merger
    | v :: vs => addHeap { s with merger := TDigestMerger.add scaler s.merger ⟨v, 1⟩ } vs
  | some (item, items) =>
    match buffer with
    | [] => addHeap (s.pull scaler heap items item.listIdx) []
    | v :: vs =>
      if doubleCompare tol (.fin item.mean) (.fin v) = .lt then
        addHeap (s.pull scaler heap items item.listIdx) (v :: vs)
      else addHeap { s with merger := TDigestMerger.add scaler s.merger ⟨v, 1⟩ } vs
termination_by s.size + buffer.length
decreasing_by
  · simp only [Streams.size, List.length_cons]
    omega
  · have h := @Streams.size_pull scaler _ _ _ _ _hpop item.listIdx
    omega
  · have h := @Streams.size_pull scaler _ _ _ _ _hpop item.listIdx
    omega
  · simp only [Streams.size, List.length_cons]
    omega

def tdigestMergeBufferAndCentroids (buffer : List ℚ) (centroidsList : List CentroidsWithDelta)
    (delta : ℕ) : CentroidsWithDelta :=
  let effectiveDelta := Max.max delta 10
  let sortedBuf := buffer.insertionSort (· ≤ ·)
  let active := centroidsList.filter fun list => !list.centroids.isEmpty
  let totalW := active.foldl (fun w list => w + list.totalWeight) (buffer.length : ℚ)
  let minVal := active.foldl (fun m list => lower m list.min) (buffer.foldl lower f64Max)
  let maxVal := active.foldl (fun m list => raise m list.max) (buffer.foldl raise (-f64Max))
  let start := ((TDigestMerger.new effectiveDelta).reset totalW, ([] : List Centroid))
  let finish (m : TDigestMerger × List Centroid) : CentroidsWithDelta :=
    ⟨m.2, effectiveDelta, minVal, maxVal, totalW⟩
  match sortedBuf, active with
  | [], [] => ⟨[], effectiveDelta, f64Max, -f64Max, 0⟩
  | buf, [] => finish ((singletons buf).foldl (TDigestMerger.add scaler) start)
  | buf, [list] =>
    if buf = [] ∧ list.delta = effectiveDelta then finish (start.1, list.centroids)
    else finish (TDigestMerger.addTwo scaler tol list.centroids (singletons buf) start)
  | [], [list₀, list₁] =>
    finish (TDigestMerger.addTwo scaler tol list₀.centroids list₁.centroids start)
  | buf, lists =>
    let cursors := lists.map CentroidsWithDelta.centroids
    finish (addHeap scaler tol heap ⟨pushFirsts heap [] 0 cursors, cursors, start⟩ buf)

def tdigestMergeCentroidsList (centroidsList : List CentroidsWithDelta) (delta : ℕ) :
    CentroidsWithDelta :=
  tdigestMergeBufferAndCentroids scaler tol heap [] centroidsList delta

namespace TDigestState

def new (compression : ℚ) : TDigestState :=
  let comp := if compression ≤ 0 then (defaultCompression : ℚ) else compression
  { compression := comp
    capacity := calculateCapacity (asU32 comp)
    centroids := []
    unmergedBuffer := []
    totalWeight := 0
    mergedWeight := 0
    totalObservations := 0
    mergeTimes := 0
    min := f64Max
    max := -f64Max }

def isEmpty (td : TDigestState) : Bool := td.totalObservations == 0 && decide (td.totalWeight ≤ 0)

def reset (td : TDigestState) : TDigestState :=
  { td with
    centroids := []
    unmergedBuffer := []
    totalWeight := 0
    mergedWeight := 0
    totalObservations := 0
    mergeTimes := 0
    min := f64Max
    max := -f64Max }

def compress (td : TDigestState) : TDigestState :=
  if td.unmergedBuffer = [] then td
  else
    let effectiveDelta := Max.max (asU32 td.compression) 10
    let merger := (TDigestMerger.new effectiveDelta).reset td.totalWeight
    let buffer := td.unmergedBuffer.insertionSort (· ≤ ·)
    { td with
      centroids := (TDigestMerger.addTwo scaler tol td.centroids (singletons buffer) (merger, [])).2
      unmergedBuffer := []
      mergedWeight := td.totalWeight
      mergeTimes := td.mergeTimes + 1 }

def ensureMerged (td : TDigestState) : TDigestState :=
  if td.unmergedBuffer = [] then td else td.compress scaler tol

def compressIfFull (td : TDigestState) : TDigestState :=
  if td.capacity ≤ td.unmergedBuffer.length then td.compress scaler tol else td

def observe (td : TDigestState) (val weight : ℚ) : TDigestState :=
  { td with
    totalWeight := td.totalWeight + weight
    totalObservations := td.totalObservations + 1
    min := lower td.min val
    max := raise td.max val }

def add (td : TDigestState) (val weight : ℚ) : TDigestState :=
  if weight ≤ 0 then td
  else
    let stored :=
      if weight = 1 then { td with unmergedBuffer := td.unmergedBuffer ++ [val] }
      else
        let merged := td.ensureMerged scaler tol
        compress scaler tol
          { merged with
            centroids := merged.centroids ++ [⟨val, weight⟩]
            mergedWeight := merged.mergedWeight + weight }
    (stored.observe val weight).compressIfFull scaler tol

def addBatch (td : TDigestState) (values : List ℚ) : TDigestState :=
  values.foldl (fun td val =>
    (observe { td with unmergedBuffer := td.unmergedBuffer ++ [val] } val 1).compressIfFull
      scaler tol) td

def withDelta (td : TDigestState) : CentroidsWithDelta :=
  ⟨td.centroids, asU32 td.compression, td.min, td.max, td.mergedWeight⟩

def consumed (td : TDigestState) : TDigestState := { td with centroids := [] }

def mergeFrom (td other : TDigestState) : TDigestState × TDigestState :=
  let other := other.ensureMerged scaler tol
  if other.isEmpty then (td, other)
  else
    let td := td.ensureMerged scaler tol
    let delta := Max.max (asU32 td.compression) (asU32 other.compression)
    let merged := tdigestMergeCentroidsList scaler tol heap [td.withDelta, other.withDelta] delta
    ({ td with
        compression := delta
        capacity := calculateCapacity delta
        centroids := merged.centroids
        mergedWeight := merged.totalWeight
        totalWeight := merged.totalWeight
        totalObservations := td.totalObservations + other.totalObservations
        mergeTimes := td.mergeTimes + 1
        min := merged.min
        max := merged.max },
      other.consumed)

def mergeWithOptions (td : TDigestState) (sources : List TDigestState) (overrideDest : Bool)
    (compression : Option ℕ) (destExisted : Bool) : TDigestState × List TDigestState :=
  let td := td.ensureMerged scaler tol
  let sources := sources.map (ensureMerged scaler tol)
  let maxSourceComp := sources.foldl (fun c s => Max.max c (asU32 s.compression)) defaultCompression
  let finalComp : ℕ :=
    match compression with
    | some c => c
    | none => if overrideDest || !destExisted then maxSourceComp else asU32 td.compression
  let own := if !overrideDest && destExisted && !td.isEmpty then [td] else []
  let parts := own ++ sources.filter fun s => !s.isEmpty
  let totalObs := parts.foldl (fun n s => n + s.totalObservations) 0
  let left := sources.map fun s => if s.isEmpty then s else s.consumed
  if parts = [] then
    ({ td.reset with compression := finalComp, capacity := calculateCapacity finalComp }, left)
  else
    let merged := tdigestMergeCentroidsList scaler tol heap (parts.map withDelta) finalComp
    ({ td with
        compression := finalComp
        capacity := calculateCapacity finalComp
        centroids := merged.centroids
        mergedWeight := merged.totalWeight
        totalWeight := merged.totalWeight
        totalObservations := totalObs
        mergeTimes := td.mergeTimes + 1
        min := merged.min
        max := merged.max }, left)

end TDigestState

end

end Wedb
