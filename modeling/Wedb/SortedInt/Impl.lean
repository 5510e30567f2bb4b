import Wedb.Meta.SimpleMeta
import Wedb.Ordered.Distinct
import Wedb.Ordered.Scan

/-!
# Sorted integer set commands

Each id of a set is one data key that ends in the big-endian bytes of the id, and
the metadata counts the ids. Additions and removals test every id against the
committed store while they queue; removals of a range scan the keys between two
bounds, and removing everything clears the prefix instead.
-/

namespace Wedb

abbrev SortedintMeta := SimpleMeta .sortedInt .sortedIntMeta

def beLen : ℕ := 8

structure SortedintRange where
  min : UInt64 := 0
  max : UInt64 := UInt64.maxVal
  minex : Bool := false
  maxex : Bool := false
  offset : ℕ := 0
  count : Option ℕ := none
  reversed : Bool := false
  deriving DecidableEq, Repr

namespace SortedintRange

def isEmptyRange (spec : SortedintRange) : Bool :=
  if spec.min > spec.max then true
  else
    let effMin := if spec.minex then
        (if spec.min = UInt64.maxVal then none else some (spec.min + 1)) else some spec.min
    let effMax := if spec.maxex then
        (if spec.max = 0 then none else some (spec.max - 1)) else some spec.max
    match effMin, effMax with
    | some effMin, some effMax => decide (effMin > effMax)
    | _, _ => true

def contains (spec : SortedintRange) (val : UInt64) : Bool :=
  !(if spec.minex then decide (val ≤ spec.min) else decide (val < spec.min)) &&
    !(if spec.maxex then decide (val ≥ spec.max) else decide (val > spec.max))

def isFull (spec : SortedintRange) : Bool :=
  !spec.minex && !spec.maxex && spec.min == 0 && spec.max == UInt64.maxVal

end SortedintRange

def encodeBeU64 (val : UInt64) : Bytes := val.toBeBytes

def decodeBeU64 (bytes : Bytes) : Option UInt64 :=
  if bytes.length ≥ beLen then some (.fromBeBytes (bytes.take beLen)) else none

def extractId (keyBytes : Bytes) (prefixLen : ℕ) : Option UInt64 :=
  if keyBytes.length ≥ prefixLen + beLen then
    decodeBeU64 ((keyBytes.drop prefixLen).take beLen)
  else none

def composeSiMetaKey (kc : KeyComposer) (key : Key) : Bytes :=
  kc.composeMetaKeyStack KeyTag.sortedIntMeta.asSlice key.bytes

def composeSiItemKey (pre : Bytes) (id : UInt64) : Bytes := pre ++ encodeBeU64 id

def composeSiKey (kc : KeyComposer) (key : Key) (id : UInt64) : Bytes :=
  kc.composeSubkeyStack KeyTag.sortedIntData.asSlice key.bytes (encodeBeU64 id)

def composeSiPrefixStack (kc : KeyComposer) (key : Key) : Bytes :=
  kc.composePrefixStack KeyTag.sortedIntData.asSlice key.bytes

def siRangeBounds (pre : Bytes) (spec : SortedintRange) : Bound Bytes × Bound Bytes :=
  (if spec.minex then .excluded (composeSiItemKey pre spec.min)
    else .included (composeSiItemKey pre spec.min),
  if spec.maxex then .excluded (composeSiItemKey pre spec.max)
    else .included (composeSiItemKey pre spec.max))

def distinctIds (ids : List UInt64) : List UInt64 :=
  (keepFirst (ids.map fun id => (id, ())) []).map Prod.fst

/-- What a loop over ids carries: the metadata, the queue and a count. -/
structure SiWork where
  m : SortedintMeta
  ops : Batch
  count : ℕ

section
variable (s : Store) (kc : KeyComposer) (key : Key) (nowMs : UInt64)

def getSiMeta : Except Error (Option SortedintMeta) :=
  getMetaChecked SortedintMeta s kc key (composeSiMetaKey kc key) nowMs

/-! ## Writes -/

def prepareSiMetaForWrite (version : UInt64) : Except Error (SortedintMeta × Bool × Batch) :=
  (getSiMeta s kc key nowMs).map fun found =>
    match found with
    | some m => (m, false, [])
    | none =>
      (.newWithVersion version 0 0, true, clearPrefixInBatch s .data (composeSiPrefixStack kc key))

def siAddStep (isFresh : Bool) (w : SiWork) (id : UInt64) : SiWork :=
  let itemKey := composeSiItemKey (composeSiPrefixStack kc key) id
  if isFresh || !s.data.contains itemKey then
    ⟨w.m.setSize (w.m.base.size.satAdd 1), w.ops ++ [.insertData itemKey []], w.count + 1⟩
  else w

def siAddIds (isFresh : Bool) (w : SiWork) (ids : List UInt64) : SiWork :=
  match ids with
  | [id] => siAddStep s kc key isFresh w id
  | _ => (distinctIds ids).foldl (siAddStep s kc key isFresh) w

def siAdd (version : UInt64) (ids : List UInt64) : Except Error (ℕ × Batch) := do
  if ids = [] then return (0, [])
  else
    let (m, isFresh, ops) ← prepareSiMetaForWrite s kc key nowMs version
    let w := siAddIds s kc key isFresh ⟨m, ops, 0⟩ ids
    if w.count > 0 ∨ isFresh then
      return (w.count, w.ops ++ [.insertMeta (composeSiMetaKey kc key) w.m.encode])
    else return (w.count, [])

def siRemStep (w : SiWork) (id : UInt64) : SiWork :=
  let itemKey := composeSiItemKey (composeSiPrefixStack kc key) id
  if s.data.contains itemKey then
    ⟨w.m.setSize (w.m.base.size.satSub 1), w.ops ++ [.rmWeakData itemKey], w.count + 1⟩
  else w

def siRemIds (w : SiWork) (ids : List UInt64) : SiWork :=
  match ids with
  | [id] => siRemStep s kc key w id
  | _ => (distinctIds ids).foldl (siRemStep s kc key) w

def siMetaOp (m : SortedintMeta) : WriteOp :=
  if m.base.size = 0 then .rmMeta (composeSiMetaKey kc key)
  else .insertMeta (composeSiMetaKey kc key) m.encode

def siRem (ids : List UInt64) : Except Error (ℕ × Batch) := do
  if ids = [] then return (0, [])
  else
    match ← getSiMeta s kc key nowMs with
    | none => return (0, [])
    | some m =>
      let w := siRemIds s kc key ⟨m, [], 0⟩ ids
      if w.count > 0 then return (w.count, w.ops ++ [siMetaOp kc key w.m])
      else return (w.count, [])

def commitDeletedMeta (m : SortedintMeta) (deleted : ℕ) (ops : Batch) : ℕ × Batch :=
  if deleted > 0 then
    (deleted, ops ++ [siMetaOp kc key (m.setSize (m.base.size.satSub (UInt64.ofNat deleted)))])
  else (deleted, [])

def siClear (m : SortedintMeta) : ℕ × Batch :=
  (m.base.size.toNat,
    clearPrefixInBatch s .data (composeSiPrefixStack kc key) ++ [.rmMeta (composeSiMetaKey kc key)])

def siRemRangeByValue (spec : SortedintRange) : Except Error (ℕ × Batch) := do
  if spec.isEmptyRange then return (0, [])
  else
    match ← getSiMeta s kc key nowMs with
    | none => return (0, [])
    | some m =>
      if spec.isFull then return siClear s kc key m
      else
        let (start, stop) := siRangeBounds (composeSiPrefixStack kc key) spec
        let entries := s.data.range start stop
        return commitDeletedMeta kc key m entries.length (entries.map fun x => .rmWeakData x.1)

def siRankStep (pre : Bytes) (start stop : ℕ) (st : ℕ × ℕ × Batch) (x : Bytes × Bytes) :
    (ℕ × ℕ × Batch) × Bool :=
  if ¬pre <+: x.1 then (st, false)
  else if st.1 > stop then (st, false)
  else if st.1 ≥ start then ((st.1 + 1, st.2.1 + 1, st.2.2 ++ [.rmWeakData x.1]), true)
  else ((st.1 + 1, st.2), true)

def siRemRangeByRank (start stop : Int64) : Except Error (ℕ × Batch) := do
  match ← getSiMeta s kc key nowMs with
  | none => return (0, [])
  | some m =>
    if m.base.size = 0 then return (0, [])
    else
      let (first, last) := normalizeRange start.toInt stop.toInt m.base.size.asI64
      if first > last then return (0, [])
      else if first.toNat = 0 ∧ last.toNat + 1 ≥ m.base.size.toNat then return siClear s kc key m
      else
        let pre := composeSiPrefixStack kc key
        let st := foldBreak (siRankStep pre first.toNat last.toNat) (0, 0, [])
          (SortedMap.prefixed pre s.data)
        return commitDeletedMeta kc key m st.2.1 st.2.2

/-! ## Queries -/

def siCard : Except Error UInt64 :=
  (getSiMeta s kc key nowMs).map fun found =>
    match found with
    | some m => m.base.size
    | none => 0

def siExists (id : UInt64) : Except Error Bool :=
  (getSiMeta s kc key nowMs).map fun found =>
    match found with
    | some _ => s.data.contains (composeSiKey kc key id)
    | none => false

def siMexist (ids : List UInt64) : Except Error (List Bool) :=
  if ids = [] then .ok []
  else
    (getSiMeta s kc key nowMs).map fun found =>
      match found with
      | some _ => ids.map fun id => s.data.contains (composeSiItemKey (composeSiPrefixStack kc key) id)
      | none => ids.map fun _ => false

def siMembersStep (pre : Bytes) (st : List UInt64) (x : Bytes × Bytes) : List UInt64 × Bool :=
  if ¬pre <+: x.1 then (st, false)
  else
    match extractId x.1 pre.length with
    | some id => (st ++ [id], true)
    | none => (st, true)

def siMembers : Except Error (List UInt64) :=
  (getSiMeta s kc key nowMs).map fun found =>
    match found with
    | some m =>
      if m.base.size > 0 then
        let pre := composeSiPrefixStack kc key
        foldBreak (siMembersStep pre) [] (SortedMap.prefixed pre s.data)
      else []
    | none => []

def siScanEntry (prefixLen offset : ℕ) (count : Option ℕ) (st : ℕ × List UInt64)
    (x : Bytes × Bytes) : (ℕ × List UInt64) × Bool :=
  match extractId x.1 prefixLen with
  | some id =>
    if st.1 < offset then ((st.1 + 1, st.2), true)
    else
      let results := st.2 ++ [id]
      ((st.1, results), !count.any fun cnt => decide (results.length ≥ cnt))
  | none => (st, true)

def siRangeByValue (spec : SortedintRange) : Except Error (List UInt64) :=
  if spec.isEmptyRange then .ok []
  else if spec.count = some 0 then .ok []
  else
    (getSiMeta s kc key nowMs).map fun found =>
      match found with
      | some _ =>
        let pre := composeSiPrefixStack kc key
        let (start, stop) := siRangeBounds pre spec
        let range := s.data.range start stop
        (foldBreak (siScanEntry pre.length spec.offset spec.count) (0, [])
          (if !spec.reversed then range else range.reverse)).2
      | none => []

def siRevRangeByValue (spec : SortedintRange) : Except Error (List UInt64) :=
  siRangeByValue s kc key nowMs { spec with reversed := true }

def siProcessEntry (prefixLen : ℕ) (cursor : UInt64) (offset limit : ℕ) (st : ℕ × List UInt64)
    (x : Bytes × Bytes) : (ℕ × List UInt64) × Bool :=
  match extractId x.1 prefixLen with
  | some id =>
    if cursor > 0 ∧ id = cursor then (st, true)
    else if st.1 < offset then ((st.1 + 1, st.2), true)
    else
      let results := st.2 ++ [id]
      ((st.1, results), !decide (results.length ≥ limit))
  | none => (st, true)

def siRange (cursor : UInt64) (offset limit : ℕ) (reversed : Bool) : Except Error (List UInt64) :=
  if limit = 0 then .ok []
  else
    (getSiMeta s kc key nowMs).map fun found =>
      match found with
      | some _ =>
        let pre := composeSiPrefixStack kc key
        let range := if !reversed then
            s.data.range (.included (composeSiItemKey pre cursor))
              (.included (composeSiItemKey pre UInt64.maxVal))
          else
            (s.data.range (.included (composeSiItemKey pre 0)) (.included (composeSiItemKey pre
              (if cursor = 0 then UInt64.maxVal else cursor)))).reverse
        (foldBreak (siProcessEntry pre.length cursor offset limit) (0, []) range).2
      | none => []

def siRank (id : UInt64) : Except Error (Option ℕ) :=
  (getSiMeta s kc key nowMs).map fun found =>
    match found with
    | some _ =>
      let pre := composeSiPrefixStack kc key
      let endK := composeSiItemKey pre id
      if !s.data.contains endK then none
      else some (s.data.range (.included (composeSiItemKey pre 0)) (.excluded endK)).length
    | none => none

def siRevrank (id : UInt64) : Except Error (Option ℕ) := do
  match ← getSiMeta s kc key nowMs with
  | none => return none
  | some m => return (← siRank s kc key nowMs id).map fun rank => m.base.size.toNat - 1 - rank

def siCount (spec : SortedintRange) : Except Error ℕ :=
  if spec.isEmptyRange then .ok 0
  else
    (getSiMeta s kc key nowMs).map fun found =>
      match found with
      | some m =>
        if spec.isFull then m.base.size.toNat
        else
          let (start, stop) := siRangeBounds (composeSiPrefixStack kc key) spec
          (s.data.range start stop).length
      | none => 0

end

end Wedb
