import Wedb.List.Impl

/-!
# Searching, inserting, removing and moving elements

A search walks the elements with their offsets, over one range of the partition
or index by index when the indices wrap. An insertion shifts the shorter side
away from the pivot; a removal moves the kept elements towards the head. Both
read the committed store and queue what they write.
-/

namespace Wedb

inductive LPos
  | rank (r : Int64)
  | count (c : UInt64)
  | maxLen (m : UInt64)

def errRankZero : String :=
  "ERR RANK can't be zero: must be 1, 2, 3, ... or -1, -2, -3..."

def enumerate (vs : List Bytes) : List (ℕ × Bytes) := vs.mapIdx Prod.mk

def collectMatches (elem : Bytes) (limit : ℕ) : List ℕ → List (ℕ × Bytes) → List ℕ
  | acc, [] => acc
  | acc, (offset, v) :: rest =>
    if v = elem then
      let acc := acc ++ [offset]
      if acc.length ≥ limit then acc else collectMatches elem limit acc rest
    else collectMatches elem limit acc rest

section
variable (s : Store) (kc : KeyComposer) (key : Key) (nowMs : UInt64)

def scanForward (m : ListMeta) (actualEnd : UInt64) (len : ℕ) : List (ℕ × Bytes) :=
  if m.head ≤ actualEnd then enumerate (rangeValues s kc key m.head actualEnd)
  else readOffsets s kc key m.head (List.range len)

def scanBackward (m : ListMeta) (actualEnd : UInt64) (len : ℕ) : List (ℕ × Bytes) :=
  if m.head ≤ actualEnd then
    ((enumerate (rangeValues s kc key m.head actualEnd).reverse).takeWhile
      fun x => decide (x.1 < len)).map fun x => (len - 1 - x.1, x.2)
  else readOffsets s kc key m.head (List.range len).reverse

def moveOffsets (head newHead : UInt64) (shift : ℕ) (offsets : List ℕ) : Batch :=
  (readOffsets s kc key head offsets).map fun x =>
    .insertData (composeListItem kc key (newHead + UInt64.ofNat (x.1 + shift))) x.2

def linsert (before : Bool) (pivot elem : Bytes) : Except Error (ℤ × Batch) := do
  match ← getListMeta s kc key nowMs with
  | none => return (0, [])
  | some m =>
    if m.base.size = 0 then return (0, [])
    else
      let len := m.base.size.toNat
      match (scanForward s kc key m (m.tail - 1) len).find? fun x => x.2 = pivot with
      | none => return (-1, [])
      | some (pivotOffset, _) =>
        let insertOffset := if before then pivotOffset else pivotOffset + 1
        let (m', ops) :=
          if insertOffset < len / 2 then
            let newHead := m.head - 1
            ({ m with head := newHead },
              moveOffsets s kc key m.head newHead 0 (List.range insertOffset) ++
                [.insertData (composeListItem kc key (newHead + UInt64.ofNat insertOffset)) elem])
          else
            ({ m with tail := m.tail + 1 },
              moveOffsets s kc key m.head m.head 1
                (List.range' insertOffset (len - insertOffset)).reverse ++
                [.insertData (composeListItem kc key (m.head + UInt64.ofNat insertOffset)) elem])
        let m' := m'.setSize (m'.base.size + 1)
        return (m'.base.size.asI64,
          ops ++ [.insertMeta (composeListMetaKey kc key) m'.encode])

def compactLoop (head : UInt64) : List ℕ → ℕ → List ℕ → Batch × ℕ
  | [], writeIdx, _ => ([], writeIdx)
  | readIdx :: reads, writeIdx, dels =>
    if dels.head? = some readIdx then compactLoop head reads writeIdx dels.tail
    else
      let op :=
        if writeIdx ≠ readIdx then
          match getListItem s kc key (head + UInt64.ofNat readIdx) with
          | some val =>
            [.insertData (composeListItem kc key (head + UInt64.ofNat writeIdx)) val]
          | none => []
        else []
      let (ops, w) := compactLoop head reads (writeIdx + 1) dels
      (op ++ ops, w)

def rmOffsets (head : UInt64) (offsets : List ℕ) : Batch :=
  offsets.map fun offset => .rmData (composeListItem kc key (head + UInt64.ofNat offset))

def lrem (count : Int64) (elem : Bytes) : Except Error (UInt64 × Batch) := do
  match ← getListMeta s kc key nowMs with
  | none => return (0, [])
  | some m =>
    if m.base.size = 0 then return (0, [])
    else
      let len := m.base.size.toNat
      let targetDelLimit := if count = 0 then usizeMax else count.toInt.natAbs
      let toDeleteOffsets :=
        if count ≥ 0 then
          collectMatches elem targetDelLimit [] (scanForward s kc key m (m.tail - 1) len)
        else
          (collectMatches elem targetDelLimit []
            (scanBackward s kc key m (m.tail - 1) len)).reverse
      match toDeleteOffsets with
      | [] => return (0, [])
      | firstDel :: dels =>
        let deletedCount := UInt64.ofNat (dels.length + 1)
        if deletedCount = m.base.size then
          return (deletedCount, clearPrefixInBatch s .data (composeListPrefix kc key) ++
            [.rmMeta (composeListMetaKey kc key)])
        else
          let (ops, writeIdx) := compactLoop s kc key m.head
            (List.range' (firstDel + 1) (len - (firstDel + 1))) firstDel dels
          let m' := m.setSize (m.base.size - deletedCount)
          let m' := { m' with tail := m'.head + m'.base.size }
          return (deletedCount,
            ops ++ rmOffsets kc key m.head (List.range' writeIdx (len - writeIdx)) ++
              commitListBatch (composeListMetaKey kc key) m')

def lposLoop (elem : Bytes) (targetRank countLimit : ℕ) (isMultiCount : Bool) :
    ℕ → List ℕ → List (ℕ × Bytes) → List ℕ
  | _, acc, [] => acc
  | rankCount, acc, (offset, v) :: rest =>
    if v = elem then
      let rankCount := rankCount + 1
      if rankCount ≥ targetRank then
        let acc := acc ++ [offset]
        if (isMultiCount && decide (acc.length ≥ countLimit)) || !isMultiCount then acc
        else lposLoop elem targetRank countLimit isMultiCount rankCount acc rest
      else lposLoop elem targetRank countLimit isMultiCount rankCount acc rest
    else lposLoop elem targetRank countLimit isMultiCount rankCount acc rest

def lposOptions (options : List LPos) : Int64 × Option UInt64 × Option UInt64 :=
  options.foldl (fun opts opt =>
    match opt with
    | .rank r => (r, opts.2)
    | .count c => (opts.1, some c, opts.2.2)
    | .maxLen m => (opts.1, opts.2.1, some m)) (1, none, none)

def lposScan (m : ListMeta) (len limit : ℕ) (reversed : Bool) : List (ℕ × Bytes) :=
  let actualEnd := m.head + UInt64.ofNat (len - 1)
  if m.head ≤ actualEnd then
    if reversed then
      (scanBackward s kc key m actualEnd len).takeWhile fun x => decide (len - limit ≤ x.1)
    else (scanForward s kc key m actualEnd len).takeWhile fun x => decide (x.1 < limit)
  else
    if reversed then
      readOffsets s kc key m.head (List.range' (len - limit) (len - (len - limit))).reverse
    else readOffsets s kc key m.head (List.range limit)

def lposLimit (maxLen : Option UInt64) (len : ℕ) : ℕ :=
  match maxLen with
  | some m => if m = 0 then len else min m.toNat len
  | none => len

def lposCountLimit (count : Option UInt64) : ℕ :=
  match count with
  | some c => if c = 0 then usizeMax else c.toNat
  | none => 1

def lpos (elem : Bytes) (options : List LPos) : Except Error (List ℤ) := do
  let (rank, count, maxLen) := lposOptions options
  if rank = 0 then .error (.invalidData errRankZero)
  else
    match ← getListMeta s kc key nowMs with
    | none => return []
    | some m =>
      if m.base.size = 0 then return []
      else
        let len := m.base.size.toNat
        let targetRank := rank.toInt.natAbs
        let limit := lposLimit maxLen len
        if targetRank > limit ∨ targetRank > len then return []
        else
          let found := lposLoop elem targetRank (lposCountLimit count) count.isSome 0 []
            (lposScan s kc key m len limit (decide (rank < 0)))
          return found.map Int.ofNat

/-! ## Moving between lists -/

def endIndex (m : ListMeta) (left : Bool) : UInt64 := if left then m.head else m.tail - 1

def lmove (version : UInt64) (dst : Key) (srcLeft dstLeft : Bool) :
    Except Error (Option Bytes × Batch) := do
  match ← getListMeta s kc key nowMs with
  | none => return (none, [])
  | some m =>
    if m.base.size = 0 then return (none, [])
    else
      let currIdx := endIndex m srcLeft
      match getListItem s kc key currIdx with
      | none => return (none, [])
      | some elem =>
        if key = dst then
          if srcLeft = dstLeft ∨ m.base.size = 1 then return (some elem, [])
          else
            let (m', targetIdx) := (m.popIndex srcLeft).1.pushIndex dstLeft
            return (some elem, [.rmData (composeListItem kc key currIdx),
              .insertData (composeListItem kc key targetIdx) elem,
              .insertMeta (composeListMetaKey kc key) m'.encode])
        else
          let (dstMeta, _, ops) ← prepareListMetaForWrite s kc dst nowMs version
          let srcMeta := (m.setSize (m.base.size - 1)).popIndex srcLeft
          let (dstMeta, targetIdx) := dstMeta.pushIndex dstLeft
          let dstMeta := dstMeta.setSize (dstMeta.base.size + 1)
          return (some elem, ops ++ .rmData (composeListItem kc key currIdx) ::
            commitListBatch (composeListMetaKey kc key) srcMeta.1 ++
            [.insertData (composeListItem kc dst targetIdx) elem,
              .insertMeta (composeListMetaKey kc dst) dstMeta.encode])

def rpoplpush (version : UInt64) (dst : Key) : Except Error (Option Bytes × Batch) :=
  lmove s kc key nowMs version dst false true

end

def lmpopKeys (kc : KeyComposer) (nowMs : UInt64) (left : Bool) (count : UInt64) :
    Store → List Key → Except Error (Option (Key × List Bytes) × Batch)
  | _, [] => .ok (none, [])
  | s, key :: keys => do
    let (popped, ops) ← listPopInternal s kc key nowMs count left
    if popped.isEmpty then
      let (reply, rest) ← lmpopKeys kc nowMs left count (s.apply ops) keys
      return (reply, ops ++ rest)
    else return (some (key, popped), ops)

def lmpop (s : Store) (kc : KeyComposer) (nowMs : UInt64) (keys : List Key) (left : Bool)
    (count : UInt64) : Except Error (Option (Key × List Bytes) × Batch) :=
  if count = 0 ∨ keys.isEmpty then .ok (none, [])
  else lmpopKeys kc nowMs left count s keys

end Wedb
