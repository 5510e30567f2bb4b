import Mathlib.Data.List.AList
import Wedb.Cuckoo.Meta
import Wedb.Ordered.Buckets

/-!
# Pages of a cuckoo filter

A sub-filter's buckets lie in pages. The cache loads a page when a bucket of it
is used, copies it on its first write and commits the pages it wrote. A slot is
read through the cache, and a write is recorded with the byte it replaced, so
that undoing a log in reverse order brings every byte back.
-/

namespace Wedb

structure PageSlotUndo where
  filterIdx : UInt16
  pageIdx : UInt32
  byteOffset : ℕ
  oldFp : UInt8
  deriving DecidableEq, Repr

inductive CuckooPageData
  | clean (s : Bytes)
  | dirty (v : Bytes)
  | empty (size : ℕ)
  deriving DecidableEq, Repr

def resize (v : Bytes) (n : ℕ) : Bytes := v ++ List.replicate (n - v.length) 0

def memchr (b : UInt8) (xs : Bytes) : Option ℕ := xs.findIdx? fun x => x == b

namespace CuckooPageData

def getSubslice : CuckooPageData → ℕ → ℕ → Option Bytes
  | clean s, offset, len | dirty s, offset, len =>
    if offset + len ≤ s.length then some (slice s offset len) else none
  | empty _, _, _ => none

def getByte : CuckooPageData → ℕ → UInt8
  | clean s, offset | dirty s, offset => s.getD offset 0
  | empty _, _ => 0

def ensureMut : CuckooPageData → ℕ → Bytes
  | clean s, expectedSize | dirty s, expectedSize => resize s expectedSize
  | empty size, expectedSize => List.replicate (max size expectedSize) 0

def Sized (size : ℕ) : CuckooPageData → Prop
  | clean s | dirty s => s.length = size
  | empty n => n = size

theorem ensureMut_length {d : CuckooPageData} {n : ℕ} (h : d.Sized n) :
    (d.ensureMut n).length = n := by
  cases d with
  | clean s | dirty s =>
    have hlen : s.length = n := h
    simp [ensureMut, resize, hlen]
  | empty size =>
    have hsize : size = n := h
    simp [ensureMut, hsize]

theorem ensureMut_getD {d : CuckooPageData} {n : ℕ} (h : d.Sized n) (i : ℕ) :
    (d.ensureMut n).getD i 0 = d.getByte i := by
  cases d with
  | clean s | dirty s =>
    have hlen : s.length = n := h
    simp [ensureMut, resize, hlen, getByte]
  | empty size =>
    simp only [ensureMut, getByte, List.getD_eq_getElem?_getD, List.getElem?_replicate]
    split_ifs <;> rfl

end CuckooPageData

def cuckooMetaKey (kc : KeyComposer) (key : Key) : Bytes :=
  kc.composeMetaKeyStack KeyTag.cuckooMeta.asSlice key.bytes

def cuckooPage (kc : KeyComposer) (key : Key) (filterIdx : UInt16) (pageIdx : UInt32) : Bytes :=
  kc.composeSubkey2Stack KeyTag.cuckooData.asSlice key.bytes filterIdx.toBeBytes pageIdx.toBeBytes

/-- The cached pages by sub-filter and page index. -/
abbrev CuckooPages := AList fun _ : UInt16 × UInt32 => CuckooPageData

/-- What the page cache of a command is opened with; its pages are passed along. -/
structure CuckooPageCache where
  data : SortedMap Bytes Bytes
  kc : KeyComposer
  key : Key
  bucketSize : UInt8
  bucketsPerPage : UInt32

namespace CuckooPageCache

def new (data : SortedMap Bytes Bytes) (kc : KeyComposer) (key : Key) (bucketSize : UInt8)
    (pageSize : UInt32) : CuckooPageCache where
  data
  kc
  key
  bucketSize
  bucketsPerPage :=
    if pageSize / bucketSize.toUInt32 < 1 then 1 else pageSize / bucketSize.toUInt32

section
variable (c : CuckooPageCache) (filterIdx : UInt16) (numBuckets pageIdx bucketIdx : UInt32)
  (pages : CuckooPages)

def getBucketLocation : UInt32 × ℕ :=
  (bucketIdx / c.bucketsPerPage, (bucketIdx % c.bucketsPerPage).toNat * c.bucketSize.toNat)

def getExpectedPageSize : ℕ :=
  let firstBucket := pageIdx * c.bucketsPerPage
  min c.bucketsPerPage.toNat (numBuckets.toNat - firstBucket.toNat) * c.bucketSize.toNat

def load : CuckooPageData :=
  match c.data.get (cuckooPage c.kc c.key filterIdx pageIdx) with
  | some s => .clean s
  | none => .empty (c.getExpectedPageSize numBuckets pageIdx)

def getPageEntryMut : CuckooPageData × CuckooPages :=
  match pages.lookup (filterIdx, pageIdx) with
  | some entry => (entry, pages)
  | none =>
    let entry := c.load filterIdx numBuckets pageIdx
    (entry, pages.insert (filterIdx, pageIdx) entry)

def insertInBucket (fp : UInt8) : Option ℕ × CuckooPages :=
  let (pageIdx, offset) := c.getBucketLocation bucketIdx
  let bs := c.bucketSize.toNat
  let expectedSize := c.getExpectedPageSize numBuckets pageIdx
  let (entry, pages) := c.getPageEntryMut filterIdx numBuckets pageIdx pages
  let write (v : Bytes) (byteOffset : ℕ) : Option ℕ × CuckooPages :=
    (some byteOffset, pages.insert (filterIdx, pageIdx) (.dirty (v.set byteOffset fp)))
  match entry with
  | .empty _ => write (entry.ensureMut expectedSize) offset
  | .clean _ =>
    match entry.getSubslice offset bs with
    | some sub =>
      match memchr 0 sub with
      | some pos => write (entry.ensureMut expectedSize) (offset + pos)
      | none => (none, pages)
    | none => write (entry.ensureMut expectedSize) offset
  | .dirty v =>
    let v := resize v (offset + bs)
    match memchr 0 (slice v offset bs) with
    | some pos => write v (offset + pos)
    | none => (none, pages.insert (filterIdx, pageIdx) (.dirty v))

def tryInsertInBucket (fp : UInt8) : Bool × CuckooPages :=
  let (written, pages) := c.insertInBucket filterIdx numBuckets bucketIdx pages fp
  (written.isSome, pages)

def tryInsertInBucketRecorded (fp : UInt8) (undoLog : List PageSlotUndo) :
    Bool × CuckooPages × List PageSlotUndo :=
  let (pageIdx, _) := c.getBucketLocation bucketIdx
  match c.insertInBucket filterIdx numBuckets bucketIdx pages fp with
  | (some byteOffset, pages) => (true, pages, undoLog ++ [⟨filterIdx, pageIdx, byteOffset, 0⟩])
  | (none, pages) => (false, pages, undoLog)

def getBucketSlot (slot : ℕ) : UInt8 × CuckooPages :=
  let (pageIdx, offset) := c.getBucketLocation bucketIdx
  let (entry, pages) := c.getPageEntryMut filterIdx numBuckets pageIdx pages
  (entry.getByte (offset + slot), pages)

def setBucketSlotRecorded (slot : ℕ) (fp : UInt8) (undoLog : List PageSlotUndo) :
    CuckooPages × List PageSlotUndo :=
  let (pageIdx, offset) := c.getBucketLocation bucketIdx
  let expectedSize := c.getExpectedPageSize numBuckets pageIdx
  let (entry, pages) := c.getPageEntryMut filterIdx numBuckets pageIdx pages
  let byteOffset := offset + slot
  (pages.insert (filterIdx, pageIdx) (.dirty ((entry.ensureMut expectedSize).set byteOffset fp)),
    undoLog ++ [⟨filterIdx, pageIdx, byteOffset, entry.getByte byteOffset⟩])

def containsInBucket (fp : UInt8) : Bool × CuckooPages :=
  let (pageIdx, offset) := c.getBucketLocation bucketIdx
  let (entry, pages) := c.getPageEntryMut filterIdx numBuckets pageIdx pages
  match entry.getSubslice offset c.bucketSize.toNat with
  | some sub => ((memchr fp sub).isSome, pages)
  | none => (false, pages)

def countInBucket (fp : UInt8) : ℕ × CuckooPages :=
  let (pageIdx, offset) := c.getBucketLocation bucketIdx
  let (entry, pages) := c.getPageEntryMut filterIdx numBuckets pageIdx pages
  match entry.getSubslice offset c.bucketSize.toNat with
  | some sub => (sub.count fp, pages)
  | none => (0, pages)

def deleteFromBucket (fp : UInt8) : Bool × CuckooPages :=
  let (pageIdx, offset) := c.getBucketLocation bucketIdx
  let bs := c.bucketSize.toNat
  let expectedSize := c.getExpectedPageSize numBuckets pageIdx
  let (entry, pages) := c.getPageEntryMut filterIdx numBuckets pageIdx pages
  match (entry.getSubslice offset bs).bind (memchr fp) with
  | some pos =>
    let v :=
      match entry with
      | .dirty v => v
      | .clean _ | .empty _ => entry.ensureMut expectedSize
    (true, pages.insert (filterIdx, pageIdx) (.dirty (v.set (offset + pos) 0)))
  | none => (false, pages)

end

def undoOne (pages : CuckooPages) (undo : PageSlotUndo) : CuckooPages :=
  match pages.lookup (undo.filterIdx, undo.pageIdx) with
  | some (.dirty vec) =>
    if undo.byteOffset < vec.length then
      pages.insert (undo.filterIdx, undo.pageIdx) (.dirty (vec.set undo.byteOffset undo.oldFp))
    else pages
  | _ => pages

def applyUndoLog (pages : CuckooPages) (undoLog : List PageSlotUndo) : CuckooPages :=
  undoLog.reverse.foldl undoOne pages

def dirtyOp (kc : KeyComposer) (key : Key) (k : UInt16 × UInt32) :
    CuckooPageData → Option WriteOp
  | .dirty vec => some (.insertData (cuckooPage kc key k.1 k.2) vec)
  | .clean _ | .empty _ => none

@[simp] theorem dirtyOp_dirty (kc : KeyComposer) (key : Key) (k : UInt16 × UInt32) (vec : Bytes) :
    dirtyOp kc key k (.dirty vec) = some (.insertData (cuckooPage kc key k.1 k.2) vec) := rfl

@[simp] theorem dirtyOp_clean (kc : KeyComposer) (key : Key) (k : UInt16 × UInt32) (s : Bytes) :
    dirtyOp kc key k (.clean s) = none := rfl

@[simp] theorem dirtyOp_empty (kc : KeyComposer) (key : Key) (k : UInt16 × UInt32) (n : ℕ) :
    dirtyOp kc key k (.empty n) = none := rfl

def commitDirtyToBatch (c : CuckooPageCache) (pages : CuckooPages) : Batch :=
  pages.entries.filterMap fun x => dirtyOp c.kc c.key x.1 x.2

end CuckooPageCache

end Wedb
