import Wedb.Key.Family
import Wedb.Ordered.Saturating
import Wedb.Ordered.Window

/-!
# List metadata

The metadata of a list holds its size and the two ends of the range of indices
its elements are stored under. Pushing and popping move one end, and indices
wrap.
-/

namespace Wedb

structure ListMeta where
  base : KeyMeta
  head : UInt64
  tail : UInt64
  deriving DecidableEq, Repr

namespace ListMeta

def initialIndex : UInt64 := 0x7FFFFFFFFFFFFFFF
def encodedSize : ℕ := KeyMeta.encodedSize + 16
def kvrocksEncodedSize : ℕ := KeyMeta.kvrocksComplexEncodedSize + 16

def newWithVersion (expireAt version : UInt64) : ListMeta where
  base := ⟨.list, 0, expireAt, version, 0⟩
  head := initialIndex
  tail := initialIndex

def isExpired (m : ListMeta) (nowMs : UInt64) : Bool := m.base.isExpired nowMs

def setSize (m : ListMeta) (size : UInt64) : ListMeta := { m with base := { m.base with size } }

def pushHead (m : ListMeta) : ListMeta × UInt64 := ({ m with head := m.head - 1 }, m.head - 1)

def pushTail (m : ListMeta) : ListMeta × UInt64 := ({ m with tail := m.tail + 1 }, m.tail)

def popHead (m : ListMeta) : ListMeta × UInt64 := ({ m with head := m.head + 1 }, m.head)

def popTail (m : ListMeta) : ListMeta × UInt64 := ({ m with tail := m.tail - 1 }, m.tail - 1)

def pushIndex (m : ListMeta) (left : Bool) : ListMeta × UInt64 :=
  if left then m.pushHead else m.pushTail

def popIndex (m : ListMeta) (left : Bool) : ListMeta × UInt64 :=
  if left then m.popHead else m.popTail

def encode (m : ListMeta) : Bytes := m.base.encode ++ (m.head.toBeBytes ++ m.tail.toBeBytes)

def decode (bytes : Bytes) : Option ListMeta :=
  let first := bytes.headD 0
  let second := bytes.getD 1 0
  if bytes.length ≥ encodedSize ∧ first ≤ 14 ∧ (second = 0 ∨ second = 0x80) then
    (KeyMeta.decode (bytes.take KeyMeta.encodedSize)).map fun base =>
      ⟨base, readU64 bytes KeyMeta.encodedSize, readU64 bytes (KeyMeta.encodedSize + 8)⟩
  else if bytes.length ≥ kvrocksEncodedSize ∧ first &&& KeyMeta.meta64bitEncodingMask ≠ 0 then
    (KeyMeta.decode (bytes.take KeyMeta.kvrocksComplexEncodedSize)).map fun base =>
      ⟨base, readU64 bytes KeyMeta.kvrocksComplexEncodedSize,
        readU64 bytes (KeyMeta.kvrocksComplexEncodedSize + 8)⟩
  else if bytes.length ≥ 33 ∧ first &&& KeyMeta.meta64bitEncodingMask = 0 then
    (KeyMeta.decode (bytes.take 17)).map fun base => ⟨base, readU64 bytes 17, readU64 bytes 25⟩
  else if bytes.length = 16 then
    let head := readU64 bytes 0
    let tail := readU64 bytes 8
    some ⟨⟨.list, 0, 0, 0, if tail ≥ head then tail - head else 0⟩, head, tail⟩
  else none

theorem decode_encode {m : ListMeta} (h : m.base.flags = 0) : decode m.encode = some m := by
  have hbase : m.encode.take KeyMeta.encodedSize = m.base.encode := by
    rw [encode, ← KeyMeta.encode_length m.base, List.take_left]
  have hlen : m.encode.length ≥ encodedSize := by
    simp [encode, encodedSize]
  have hhead : readU64 m.encode KeyMeta.encodedSize = m.head :=
    KeyMeta.readU64_append (a := m.base.encode) (b := m.tail.toBeBytes) m.head
      (KeyMeta.encode_length m.base)
  have htail : readU64 m.encode (KeyMeta.encodedSize + 8) = m.tail := by
    have hread := KeyMeta.readU64_append (a := m.base.encode ++ m.head.toBeBytes) (b := [])
      m.tail (n := KeyMeta.encodedSize + 8) (by simp)
    simpa [encode] using hread
  rw [decode, if_pos ⟨hlen, m.base.rtype.asU8_le, Or.inl h⟩, hbase, KeyMeta.decode_encode, hhead,
    htail]
  rfl

end ListMeta

instance : MetaOps ListMeta where
  tag := .listMeta
  decode := ListMeta.decode
  base := ListMeta.base
  isExpired := ListMeta.isExpired
  encodeBytes := ListMeta.encode

/-!
## List commands

Pushing, popping, reading and trimming. An element is stored under its absolute
index, so a read of several elements is one range of the partition unless their
indices wrap, and then one read for each.
-/

section

def errIndexOutOfRange : String := "ERR index out of range"

def composeListMetaKey (kc : KeyComposer) (key : Key) : Bytes :=
  kc.composeMetaKeyStack KeyTag.listMeta.asSlice key.bytes

def composeListPrefix (kc : KeyComposer) (key : Key) : Bytes :=
  kc.composePrefixStack KeyTag.listData.asSlice key.bytes

def composeListItem (kc : KeyComposer) (key : Key) (idx : UInt64) : Bytes :=
  composeListPrefix kc key ++ idx.toBeBytes

def resolveListOffset (size : UInt64) (index : Int64) : Option UInt64 :=
  if size = 0 then none
  else
    let len := size.asI64
    let actualOffset := if index < 0 then len + index.toInt else index.toInt
    if actualOffset < -2 ^ 63 then none
    else if actualOffset ≥ 0 ∧ actualOffset < len then some (UInt64.ofInt actualOffset)
    else none

def commitListBatch (metaK : Bytes) (m : ListMeta) : Batch :=
  if m.base.size = 0 then [.rmMeta metaK] else [.insertMeta metaK m.encode]

section
variable (s : Store) (kc : KeyComposer) (key : Key) (nowMs : UInt64)

def getListMeta : Except Error (Option ListMeta) :=
  getMetaChecked ListMeta s kc key (composeListMetaKey kc key) nowMs

def getListItem (idx : UInt64) : Option Bytes := s.data.get (composeListItem kc key idx)

def rangeValues (actualStart actualEnd : UInt64) : List Bytes :=
  (s.data.range (.included (composeListItem kc key actualStart))
    (.included (composeListItem kc key actualEnd))).map Prod.snd

def readOffsets (head : UInt64) (offsets : List ℕ) : List (ℕ × Bytes) :=
  offsets.filterMap fun offset =>
    (getListItem s kc key (head + UInt64.ofNat offset)).map fun v => (offset, v)

def llen : Except Error UInt64 := do
  match ← getListMeta s kc key nowMs with
  | some m => return m.base.size
  | none => return 0

def lrange (start stop : Int64) : Except Error (List Bytes) := do
  match ← getListMeta s kc key nowMs with
  | none => return []
  | some m =>
    if m.base.size = 0 then return []
    else
      let (b, e) := normalizeRange start.toInt stop.toInt m.base.size.asI64
      if b > e then return []
      else
        let actualStart := m.head + UInt64.ofInt b
        let actualEnd := m.head + UInt64.ofInt e
        if actualStart ≤ actualEnd then return rangeValues s kc key actualStart actualEnd
        else return (readOffsets s kc key m.head
          (List.range' b.toNat (e - b + 1).toNat)).map Prod.snd

def lindex (index : Int64) : Except Error (Option Bytes) := do
  match ← getListMeta s kc key nowMs with
  | some m =>
    if m.base.size > 0 then
      match resolveListOffset m.base.size index with
      | some offset => return getListItem s kc key (m.head + offset)
      | none => return none
    else return none
  | none => return none

def lset (index : Int64) (value : Bytes) : Except Error (Unit × Batch) := do
  match ← getListMeta s kc key nowMs with
  | some m =>
    if m.base.size > 0 then
      match resolveListOffset m.base.size index with
      | some offset => return ((), [.insertData (composeListItem kc key (m.head + offset)) value])
      | none => .error (.invalidData errIndexOutOfRange)
    else .error (.invalidData errIndexOutOfRange)
  | none => .error (.invalidData errIndexOutOfRange)

def rmWeakOffsets (head : UInt64) (offsets : List ℕ) : Batch :=
  offsets.map fun offset => .rmWeakData (composeListItem kc key (head + UInt64.ofNat offset))

def ltrim (start stop : Int64) : Except Error (Unit × Batch) := do
  match ← getListMeta s kc key nowMs with
  | none => return ((), [])
  | some m =>
    if m.base.size = 0 then return ((), [])
    else
      let (b, e) := normalizeRange start.toInt stop.toInt m.base.size.asI64
      if b > e then
        return ((), clearPrefixInBatch s .data (composeListPrefix kc key) ++
          [.rmMeta (composeListMetaKey kc key)])
      else
        let newSize := UInt64.ofInt (e - b + 1)
        let newHead := m.head + UInt64.ofInt b
        let m' := { m.setSize newSize with head := newHead, tail := newHead + newSize }
        return ((), rmWeakOffsets kc key m.head (List.range b.toNat) ++
          rmWeakOffsets kc key m.head
            (List.range' (e + 1).toNat (m.base.size.toNat - (e + 1).toNat)) ++
          commitListBatch (composeListMetaKey kc key) m')

def prepareListMetaForWrite (version : UInt64) : Except Error (ListMeta × Bool × Batch) := do
  match ← getListMeta s kc key nowMs with
  | some m => return (m, true, [])
  | none => return (.newWithVersion 0 version, false,
      clearPrefixInBatch s .data (composeListPrefix kc key))

def listPushStep (pushLeft : Bool) (w : ListMeta × Batch) (value : Bytes) : ListMeta × Batch :=
  let (m, targetIdx) := w.1.pushIndex pushLeft
  (m.setSize (m.base.size + 1), w.2 ++ [.insertData (composeListItem kc key targetIdx) value])

def listPushOneInternal (version : UInt64) (value : Bytes) (createIfMissing pushLeft : Bool) :
    Except Error (UInt64 × Batch) := do
  let (m, metadataExisted, ops) ← prepareListMetaForWrite s kc key nowMs version
  if !createIfMissing && (!metadataExisted || m.base.size == 0) then return (0, [])
  else
    let (m, ops) := listPushStep kc key pushLeft (m, ops) value
    return (m.base.size, ops ++ [.insertMeta (composeListMetaKey kc key) m.encode])

def listPushInternal (version : UInt64) (values : List Bytes) (createIfMissing pushLeft : Bool) :
    Except Error (UInt64 × Batch) :=
  match values with
  | [] => .ok (0, [])
  | [value] => listPushOneInternal s kc key nowMs version value createIfMissing pushLeft
  | values => do
    let (m, metadataExisted, ops) ← prepareListMetaForWrite s kc key nowMs version
    if !createIfMissing && (!metadataExisted || m.base.size == 0) then return (0, [])
    else
      let (m, ops) := values.foldl (listPushStep kc key pushLeft) (m, ops)
      return (m.base.size, ops ++ [.insertMeta (composeListMetaKey kc key) m.encode])

def lpush (version : UInt64) (values : List Bytes) : Except Error (UInt64 × Batch) :=
  listPushInternal s kc key nowMs version values true true

def rpush (version : UInt64) (values : List Bytes) : Except Error (UInt64 × Batch) :=
  listPushInternal s kc key nowMs version values true false

def lpushx (version : UInt64) (values : List Bytes) : Except Error (UInt64 × Batch) :=
  listPushInternal s kc key nowMs version values false true

def rpushx (version : UInt64) (values : List Bytes) : Except Error (UInt64 × Batch) :=
  listPushInternal s kc key nowMs version values false false

def listPopOneInternal (popLeft : Bool) : Except Error (Option Bytes × Batch) := do
  match ← getListMeta s kc key nowMs with
  | some m =>
    if m.base.size > 0 then
      let (m, targetIdx) := m.popIndex popLeft
      match getListItem s kc key targetIdx with
      | some val =>
        return (some val, .rmWeakData (composeListItem kc key targetIdx) ::
          commitListBatch (composeListMetaKey kc key) (m.setSize (m.base.size - 1)))
      | none => return (none, [])
    else return (none, [])
  | none => return (none, [])

def listPopLoop (popLeft : Bool) : ℕ → ListMeta → ListMeta × List Bytes × Batch
  | 0, m => (m, [], [])
  | n + 1, m =>
    let (m, targetIdx) := m.popIndex popLeft
    let (m, results, ops) := listPopLoop popLeft n m
    match getListItem s kc key targetIdx with
    | some val => (m, val :: results, .rmWeakData (composeListItem kc key targetIdx) :: ops)
    | none => (m, results, ops)

def listPopInternal (count : UInt64) (popLeft : Bool) : Except Error (List Bytes × Batch) :=
  if count = 0 then .ok ([], [])
  else if count = 1 then
    (listPopOneInternal s kc key nowMs popLeft).map fun x => (x.1.toList, x.2)
  else do
    match ← getListMeta s kc key nowMs with
    | some m =>
      if m.base.size > 0 then
        let actualCount := min count m.base.size
        let (m, results, ops) := listPopLoop s kc key popLeft actualCount.toNat m
        return (results, ops ++ commitListBatch (composeListMetaKey kc key)
          (m.setSize (m.base.size - actualCount)))
      else return ([], [])
    | none => return ([], [])

def lpop (count : UInt64) : Except Error (List Bytes × Batch) :=
  listPopInternal s kc key nowMs count true

def rpop (count : UInt64) : Except Error (List Bytes × Batch) :=
  listPopInternal s kc key nowMs count false

end

end

end Wedb
