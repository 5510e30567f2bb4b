import Wedb.Cuckoo.Pages

/-!
# Cuckoo filter commands

An item is tried in the sub-filters from the newest to the oldest, then by
kicking out items of the newest one, then in a new sub-filter. All items of a
call share one page cache, and the pages written are committed with the metadata
at the end. `hash` is the item hash and `victim` the random slots drawn.
-/

namespace Wedb

open CuckooFilterHelper

inductive CfReserve
  | bucketSize (bs : UInt8)
  | maxIterations (mi : UInt16)
  | expansion (exp : UInt16)
  | pageSize (ps : UInt32)
  deriving DecidableEq, Repr

inductive CfInsert
  | capacity (c : UInt64)
  | bucketSize (bs : UInt8)
  | maxIterations (mi : UInt16)
  | expansion (exp : UInt16)
  | pageSize (ps : UInt32)
  | noCreate
  | nx
  deriving DecidableEq, Repr

structure CuckooFilterInsert where
  capacity : UInt64 := 1024
  bucketSize : UInt8 := 2
  maxIterations : UInt16 := 20
  expansion : UInt16 := 1
  pageSize : UInt32 := 2048
  autoCreate : Bool := true
  nx : Bool := false
  deriving DecidableEq, Repr

def CuckooFilterInsert.apply (opt : CuckooFilterInsert) : CfInsert → CuckooFilterInsert
  | .capacity c => { opt with capacity := c }
  | .bucketSize bs => { opt with bucketSize := bs }
  | .maxIterations mi => { opt with maxIterations := mi }
  | .expansion exp => { opt with expansion := exp }
  | .pageSize ps => { opt with pageSize := ps }
  | .noCreate => { opt with autoCreate := false }
  | .nx => { opt with nx := true }

def CuckooFilterInsert.fromOptions (options : List CfInsert) : CuckooFilterInsert :=
  options.foldl .apply {}

def checkCuckooShape (capacity : UInt64) (bucketSize : UInt8) (maxIterations expansion : UInt16)
    (pageSize : UInt32) : Except Error Unit :=
  if capacity = 0 then .error (.invalidData "capacity must be larger than 0")
  else if capacity < 2 then .error (.invalidData "capacity must be at least 2")
  else if bucketSize = 0 then .error (.invalidData "bucket_size must be between 1 and 255")
  else if maxIterations = 0 then .error (.invalidData "max_iterations must be larger than 0")
  else if pageSize = 0 then .error (.invalidData "page_size must be larger than 0")
  else if pageSize < bucketSize.toUInt32 then
    .error (.invalidData "page_size must be at least bucket_size")
  else if expansion > maxExpansion then
    .error (.invalidData "expansion must be between 0 and 32768")
  else (calculateRequiredBuckets capacity bucketSize).map fun _ => ()

namespace CuckooPageCache

variable (c : CuckooPageCache) (f : UInt16) (nb : UInt32)

/-- Each step writes a victim's slot and tries the victim in its alternate bucket. -/
def kickoutLoop (victim : ℕ → ℕ) : ℕ → ℕ → CuckooPages → List PageSlotUndo → UInt32 → UInt8 →
    Bool × CuckooPages
  | 0, _, pages, undoLog, _, _ => (false, applyUndoLog pages undoLog)
  | n + 1, i, pages, undoLog, curI, curFp =>
    let victimSlot := victim i % c.bucketSize.toNat
    let (oldFp, pages) := c.getBucketSlot f nb curI pages victimSlot
    let (pages, undoLog) := c.setBucketSlotRecorded f nb curI pages victimSlot curFp undoLog
    if oldFp = 0 then (true, pages)
    else
      let altBucketIdx := getAltBucketIndex curI oldFp nb
      match c.tryInsertInBucketRecorded f nb altBucketIdx pages oldFp undoLog with
      | (true, pages, _) => (true, pages)
      | (false, pages, undoLog) => kickoutLoop victim n (i + 1) pages undoLog altBucketIdx oldFp

def tryCuckooKickout (maxIterations : UInt16) (victim : ℕ → ℕ) (pages : CuckooPages)
    (hash : UInt64) (fp : UInt8) : Bool × CuckooPages :=
  c.kickoutLoop f nb victim maxIterations.toNat 0 pages [] (firstBucket hash nb) fp

def onPair (op : UInt32 → CuckooPages → Bool × CuckooPages) (hash : UInt64) (fp : UInt8)
    (pages : CuckooPages) : Bool × CuckooPages :=
  let b1 := firstBucket hash nb
  let b2 := getAltBucketIndex b1 fp nb
  let (hit, pages) := op b1 pages
  if hit then (true, pages)
  else if b1 ≠ b2 then op b2 pages
  else (false, pages)

def containsPair (hash : UInt64) (fp : UInt8) (pages : CuckooPages) : Bool × CuckooPages :=
  onPair nb (fun b pages => c.containsInBucket f nb b pages fp) hash fp pages

def insertPair (hash : UInt64) (fp : UInt8) (pages : CuckooPages) : Bool × CuckooPages :=
  onPair nb (fun b pages => c.tryInsertInBucket f nb b pages fp) hash fp pages

def deletePair (hash : UInt64) (fp : UInt8) (pages : CuckooPages) : Bool × CuckooPages :=
  onPair nb (fun b pages => c.deleteFromBucket f nb b pages fp) hash fp pages

def countPair (hash : UInt64) (fp : UInt8) (pages : CuckooPages) : ℕ × CuckooPages :=
  let b1 := firstBucket hash nb
  let b2 := getAltBucketIndex b1 fp nb
  let (n1, pages) := c.countInBucket f nb b1 pages fp
  if b1 ≠ b2 then
    let (n2, pages) := c.countInBucket f nb b2 pages fp
    (n1 + n2, pages)
  else (n1, pages)

end CuckooPageCache

def anyFilter (m : CuckooChainMeta)
    (op : UInt16 → UInt32 → CuckooPages → Bool × CuckooPages) :
    ℕ → CuckooPages → Except Error (Bool × CuckooPages)
  | 0, pages => .ok (false, pages)
  | n + 1, pages => do
    let numBuckets ← m.subFilterNumBuckets (UInt16.ofNat n)
    match op (UInt16.ofNat n) numBuckets pages with
    | (true, pages) => .ok (true, pages)
    | (false, pages) => anyFilter m op n pages

def countFilters (m : CuckooChainMeta) (op : UInt16 → UInt32 → CuckooPages → ℕ × CuckooPages) :
    ℕ → ℕ → CuckooPages → Except Error ℕ
  | 0, total, _ => .ok total
  | n + 1, total, pages => do
    let numBuckets ← m.subFilterNumBuckets (UInt16.ofNat n)
    let (k, pages) := op (UInt16.ofNat n) numBuckets pages
    countFilters m op n (total + k) pages

section
variable (hash : Bytes → UInt64) (s : Store) (kc : KeyComposer) (key : Key) (nowMs : UInt64)

def getCfMetaChecked : Except Error (Option CuckooChainMeta) :=
  getMetaChecked CuckooChainMeta s kc key (cuckooMetaKey kc key) nowMs

def rawCfReserve (version capacity : UInt64) (bucketSize : UInt8) (maxIterations expansion : UInt16)
    (pageSize : Option UInt32) : Except Error (Unit × Batch) := do
  let actualPageSize := pageSize.getD defaultPageSize
  checkCuckooShape capacity bucketSize maxIterations expansion actualPageSize
  let normalizedExpansion := normalizeExpansion expansion
  match ← getCfMetaChecked s kc key nowMs with
  | some _ => .error (.invalidData "ERR item exists")
  | none =>
    return ((), [.insertMeta (cuckooMetaKey kc key)
      (CuckooChainMeta.new capacity bucketSize maxIterations normalizedExpansion actualPageSize
        version 0).encode])

/-- What the options of a reservation leave of its sizes. -/
structure CfReserveOpts where
  bucketSize : UInt8 := 2
  maxIterations : UInt16 := 20
  expansion : UInt16 := 1
  pageSize : Option UInt32 := none

def CfReserveOpts.apply (opt : CfReserveOpts) : CfReserve → CfReserveOpts
  | .bucketSize bs => { opt with bucketSize := bs }
  | .maxIterations mi => { opt with maxIterations := mi }
  | .expansion exp => { opt with expansion := exp }
  | .pageSize ps => { opt with pageSize := some ps }

def cfReserve (version capacity : UInt64) (options : List CfReserve) :
    Except Error (Unit × Batch) :=
  let opt := options.foldl CfReserveOpts.apply {}
  rawCfReserve s kc key nowMs version capacity opt.bucketSize opt.maxIterations opt.expansion
    opt.pageSize

def cfPlaceHash (c : CuckooPageCache) (victim : ℕ → ℕ) (m : CuckooChainMeta) (h : UInt64)
    (pages : CuckooPages) : Except Error (CuckooChainMeta × CuckooPages) := do
  let fp := generateFingerprint h
  match ← anyFilter m (fun f nb pages => c.insertPair f nb h fp pages) m.nFilters.toNat pages with
  | (true, pages) => return (m.setSize (m.base.size + 1), pages)
  | (false, pages) =>
    let lastFilterIdx := m.nFilters - 1
    let numBuckets ← m.subFilterNumBuckets lastFilterIdx
    match c.tryCuckooKickout lastFilterIdx numBuckets m.maxIterations victim pages h fp with
    | (true, pages) => return (m.setSize (m.base.size + 1), pages)
    | (false, pages) =>
      if m.isScaling && decide (m.nFilters < 65535) then
        match m.subFilterNumBuckets m.nFilters with
        | .ok newBuckets =>
          match c.insertPair m.nFilters newBuckets h fp pages with
          | (true, pages) =>
            return ({ m with nFilters := m.nFilters + 1 }.setSize (m.base.size + 1), pages)
          | (false, _) => .error (.invalidData "ERR filter is full")
        | .error _ => .error (.invalidData "ERR filter is full")
      else .error (.invalidData "ERR filter is full")

def cfInsertItem (c : CuckooPageCache) (nx : Bool) (victim : ℕ → ℕ) (m : CuckooChainMeta)
    (pages : CuckooPages) (item : Bytes) : Except Error (Bool × CuckooChainMeta × CuckooPages) := do
  let h := hash item
  if nx then
    match ← anyFilter m (fun f nb pages => c.containsPair f nb h (generateFingerprint h) pages)
        m.nFilters.toNat pages with
    | (true, pages) => return (false, m, pages)
    | (false, pages) => return (true, ← cfPlaceHash c victim m h pages)
  else return (true, ← cfPlaceHash c victim m h pages)

def cfInsertItems (c : CuckooPageCache) (nx : Bool) (victim : ℕ → ℕ → ℕ) :
    ℕ → List Bytes → CuckooChainMeta → CuckooPages →
      Except Error (List Bool × CuckooChainMeta × CuckooPages)
  | _, [], m, pages => .ok ([], m, pages)
  | i, item :: items, m, pages => do
    let (inserted, m, pages) ← cfInsertItem hash c nx (victim i) m pages item
    let (results, m, pages) ← cfInsertItems c nx victim (i + 1) items m pages
    return (inserted :: results, m, pages)

def cfMetaForInsert (version : UInt64) (opt : CuckooFilterInsert) :
    Except Error CuckooChainMeta := do
  match ← getCfMetaChecked s kc key nowMs with
  | some m => return m
  | none =>
    if !opt.autoCreate then .error (.invalidData "ERR not found")
    else
      (checkCuckooShape opt.capacity opt.bucketSize opt.maxIterations opt.expansion
        opt.pageSize).map fun _ => .new opt.capacity opt.bucketSize opt.maxIterations opt.expansion
          opt.pageSize version 0

def rawCfInsert (version : UInt64) (items : List Bytes) (opt : CuckooFilterInsert)
    (victim : ℕ → ℕ → ℕ) : Except Error (List Bool × Batch) :=
  if items.isEmpty then .ok ([], [])
  else do
    let m ← cfMetaForInsert s kc key nowMs version opt
    let c := CuckooPageCache.new s.data kc key m.bucketSize m.pageSize
    let (results, m, pages) ← cfInsertItems hash c opt.nx victim 0 items m ∅
    return (results, .insertMeta (cuckooMetaKey kc key) m.encode :: c.commitDirtyToBatch pages)

def cfInsert (version : UInt64) (items : List Bytes) (options : List CfInsert)
    (victim : ℕ → ℕ → ℕ) : Except Error (List Bool × Batch) :=
  rawCfInsert hash s kc key nowMs version items (.fromOptions options) victim

def bucketContainsFp (slice? : Option Bytes) (offset bucketSize : ℕ) (fp : UInt8) : Bool :=
  match slice? with
  | some page =>
    if offset + bucketSize ≤ page.length then (memchr fp (slice page offset bucketSize)).isSome
    else false
  | none => false

def cfExistsIn (m : CuckooChainMeta) (f : UInt16) (nb : UInt32) (h : UInt64) (fp : UInt8) : Bool :=
  let c := CuckooPageCache.new s.data kc key m.bucketSize m.pageSize
  let b1 := firstBucket h nb
  let b2 := getAltBucketIndex b1 fp nb
  let (pageIdx1, off1) := c.getBucketLocation b1
  let slice1 := s.data.get (cuckooPage kc key f pageIdx1)
  if bucketContainsFp slice1 off1 m.bucketSize.toNat fp then true
  else if b1 ≠ b2 then
    let (pageIdx2, off2) := c.getBucketLocation b2
    let slice2 :=
      if pageIdx2 = pageIdx1 then slice1 else s.data.get (cuckooPage kc key f pageIdx2)
    bucketContainsFp slice2 off2 m.bucketSize.toNat fp
  else false

def cfExistsLoop (m : CuckooChainMeta) (h : UInt64) (fp : UInt8) : ℕ → Except Error Bool
  | 0 => .ok false
  | n + 1 => do
    let numBuckets ← m.subFilterNumBuckets (UInt16.ofNat n)
    if cfExistsIn s kc key m (UInt16.ofNat n) numBuckets h fp then return true
    else cfExistsLoop m h fp n

def cfExists (item : Bytes) : Except Error Bool := do
  match ← getCfMetaChecked s kc key nowMs with
  | none => return false
  | some m =>
    let h := hash item
    cfExistsLoop s kc key m h (generateFingerprint h) m.nFilters.toNat

def cfMexistsItems (c : CuckooPageCache) (m : CuckooChainMeta) :
    List Bytes → CuckooPages → Except Error (List Bool)
  | [], _ => .ok []
  | item :: items, pages => do
    let h := hash item
    let (present, pages) ← anyFilter m
      (fun f nb pages => c.containsPair f nb h (generateFingerprint h) pages) m.nFilters.toNat pages
    let results ← cfMexistsItems c m items pages
    return present :: results

def cfMexists (items : List Bytes) : Except Error (List Bool) := do
  match ← getCfMetaChecked s kc key nowMs with
  | none => return List.replicate items.length false
  | some m =>
    cfMexistsItems hash (CuckooPageCache.new s.data kc key m.bucketSize m.pageSize) m items ∅

def cfDel (item : Bytes) : Except Error (Bool × Batch) := do
  match ← getCfMetaChecked s kc key nowMs with
  | none => return (false, [])
  | some m =>
    let h := hash item
    let c := CuckooPageCache.new s.data kc key m.bucketSize m.pageSize
    let (deleted, pages) ← anyFilter m
      (fun f nb pages => c.deletePair f nb h (generateFingerprint h) pages) m.nFilters.toNat ∅
    if deleted then
      let m := { m.setSize (m.base.size.satSub 1) with
        numDeletedItems := m.numDeletedItems.satAdd 1 }
      return (true, .insertMeta (cuckooMetaKey kc key) m.encode :: c.commitDirtyToBatch pages)
    else return (false, [])

def cfCount (item : Bytes) : Except Error ℕ := do
  match ← getCfMetaChecked s kc key nowMs with
  | none => return 0
  | some m =>
    let h := hash item
    let c := CuckooPageCache.new s.data kc key m.bucketSize m.pageSize
    countFilters m (fun f nb pages => c.countPair f nb h (generateFingerprint h) pages)
      m.nFilters.toNat 0 ∅

end

end Wedb
