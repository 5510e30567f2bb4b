import Wedb.Hll.Core
import Wedb.Key.Family

/-!
# HyperLogLog metadata

The key metadata followed by one byte that tells the form of the registers. The
compact layout, one byte shorter, is also read.
-/

namespace Wedb

namespace HllEncodeType

def asU8 : HllEncodeType → UInt8
  | .dense => 0
  | .sparse => 1

def fromByte (b : UInt8) : HllEncodeType := if b = 1 then .sparse else .dense

@[simp] theorem fromByte_asU8 (t : HllEncodeType) : fromByte t.asU8 = t := by
  cases t <;> rfl

end HllEncodeType

structure HyperLogLogMeta where
  base : KeyMeta
  encodeType : HllEncodeType
  deriving DecidableEq, Repr

namespace HyperLogLogMeta

def encodedSize : ℕ := KeyMeta.encodedSize + 1
def kvrocksEncodedSize : ℕ := KeyMeta.kvrocksComplexEncodedSize + 1

def newWithVersion (expireAt version : UInt64) : HyperLogLogMeta :=
  ⟨⟨.hyperLogLog, 0, expireAt, version, 0⟩, .dense⟩

def isExpired (m : HyperLogLogMeta) (nowMs : UInt64) : Bool := m.base.isExpired nowMs

def encode (m : HyperLogLogMeta) : Bytes := m.base.encode ++ [m.encodeType.asU8]

def decode (bytes : Bytes) : Option HyperLogLogMeta :=
  if bytes.length < kvrocksEncodedSize then none
  else
    (KeyMeta.decode bytes).map fun base =>
      { base
        encodeType :=
          if bytes.length ≥ encodedSize ∧ (bytes.getD 1 0 = 0 ∨ bytes.getD 1 0 = 0x80) ∧
              bytes.getD 0 0 ≤ 14 then
            .fromByte (bytes.getD KeyMeta.encodedSize 0)
          else if bytes.length > KeyMeta.kvrocksComplexEncodedSize then
            .fromByte (bytes.getD KeyMeta.kvrocksComplexEncodedSize 0)
          else .dense }

theorem decode_encode {m : HyperLogLogMeta} (h : m.base.flags = 0) : decode m.encode = some m := by
  have hlen : m.encode.length = encodedSize := by
    rw [encode, List.length_append, KeyMeta.encode_length]
    rfl
  have hflags : m.encode.getD 1 0 = 0 := h
  have hfirst : m.encode.getD 0 0 ≤ 14 := m.base.rtype.asU8_le
  have hform : m.encode.getD KeyMeta.encodedSize 0 = m.encodeType.asU8 := by
    rw [encode, List.getD_eq_getElem?_getD, ← m.base.encode_length,
      List.getElem?_append_right le_rfl, Nat.sub_self]
    rfl
  have hlong : ¬m.encode.length < kvrocksEncodedSize := by
    rw [hlen]
    decide
  rw [decode, if_neg hlong, if_pos ⟨hlen.ge, Or.inl hflags, hfirst⟩, hform,
    HllEncodeType.fromByte_asU8, encode, KeyMeta.decode_encode_append]
  rfl

end HyperLogLogMeta

instance hyperLogLogMetaOps : MetaOps HyperLogLogMeta where
  tag := .hllMeta
  decode := HyperLogLogMeta.decode
  base := HyperLogLogMeta.base
  isExpired := HyperLogLogMeta.isExpired
  encodeBytes := HyperLogLogMeta.encode

/-!
## HyperLogLog commands

A key stores its metadata and its registers, each under one exact key. Additions
keep the form the registers are stored in unless a sparse form refuses a change.
Unions are made in a dense form, each key once. `estimate` is the floating-point
estimate of a histogram.
-/

section

open HyperLogLog

def hllMetaKey (kc : KeyComposer) (key : Key) : Bytes :=
  kc.composeMetaKeyStack KeyTag.hllMeta.asSlice key.bytes

def hllDataKey (kc : KeyComposer) (key : Key) : Bytes :=
  kc.composeMetaKeyStack KeyTag.hllRaw.asSlice key.bytes

def denseZeros : Bytes := List.replicate hllDenseSize 0

def pfaddHash (h : HyperLogLog) (hash : UInt64) : Except Error (Bool × HyperLogLog) :=
  let (regIdx, count) := extractDenseHllResult hash
  match h.encodeType with
  | .dense => .ok (h.raiseDense regIdx count)
  | .sparse =>
    match hllSparseSetRegister h.registers regIdx count with
    | .ok (changed, registers) => .ok (changed, { h with registers })
    | .error _ =>
      (hllSparseToDense h.registers denseZeros).map fun denseBuf =>
        raiseDense ⟨denseBuf, .dense⟩ regIdx count

def pfaddLoop : List UInt64 → Bool → HyperLogLog → Except Error (Bool × HyperLogLog)
  | [], updated, h => .ok (updated, h)
  | hash :: hashes, updated, h => do
    let (changed, h) ← pfaddHash h hash
    pfaddLoop hashes (updated || changed) h

section
variable (s : Store) (kc : KeyComposer) (nowMs : UInt64)

def getHllMetaChecked (key : Key) : Except Error (Option HyperLogLogMeta) :=
  getMetaChecked HyperLogLogMeta s kc key (hllMetaKey kc key) nowMs

def pfaddStart (key : Key) (found : Option HyperLogLogMeta) (encodeType : HllEncodeType) :
    HyperLogLog :=
  let stored := if found.isSome then (s.data.get (hllDataKey kc key)).getD denseZeros else denseZeros
  let registers :=
    if encodeType = .dense ∧ stored.length < hllDenseSize then resizeDense stored else stored
  ⟨registers, encodeType⟩

def pfaddWithHashes (version : UInt64) (key : Key) (hashes : List UInt64) :
    Except Error (Bool × Batch) := do
  let found ← getHllMetaChecked s kc nowMs key
  let m := found.getD (.newWithVersion 0 version)
  let (updated, h) ← pfaddLoop hashes false (pfaddStart s kc key found m.encodeType)
  if updated then
    let m : HyperLogLogMeta :=
      ⟨{ m.base with size := UInt64.ofNat h.registers.length }, h.encodeType⟩
    return (true, [.insertData (hllDataKey kc key) h.registers,
      .insertMeta (hllMetaKey kc key) m.encode])
  else return (false, [])

def pfaddHashes (version : UInt64) (key : Key) (hashes : List UInt64) :
    Except Error (Bool × Batch) :=
  if hashes.isEmpty then .ok (false, []) else pfaddWithHashes s kc nowMs version key hashes

def pfadd (hash : Bytes → UInt64) (version : UInt64) (key : Key) (elements : List Bytes) :
    Except Error (Bool × Batch) :=
  if elements.isEmpty then .ok (false, [])
  else pfaddWithHashes s kc nowMs version key (elements.map hash)

def mergeHllSource (key : Key) (merged : Bytes) : Except Error (Bool × Bytes) := do
  match ← getHllMetaChecked s kc nowMs key with
  | none => return (false, merged)
  | some m =>
    match s.data.get (hllDataKey kc key) with
    | some reg =>
      match m.encodeType with
      | .dense => return (true, hllMergeBytes merged reg)
      | .sparse => return (true, hllMergeSparseIntoDense merged reg)
    | none => return (false, merged)

def mergeSources : List Key → List Key → Bool → Bytes → Except Error (Bool × Bytes)
  | [], _, hasAny, merged => .ok (hasAny, merged)
  | key :: keys, seen, hasAny, merged =>
    if key ∈ seen then mergeSources keys seen hasAny merged
    else do
      let (some?, merged) ← mergeHllSource s kc nowMs key merged
      mergeSources keys (key :: seen) (hasAny || some?) merged

def pfcount (estimate : (ℕ → ℕ) → UInt64) (keys : List Key) : Except Error UInt64 :=
  match keys with
  | [] => .ok 0
  | [key] => do
    match ← getHllMetaChecked s kc nowMs key with
    | none => return 0
    | some m =>
      match s.data.get (hllDataKey kc key) with
      | none => return 0
      | some registers => return HyperLogLog.count estimate ⟨registers, m.encodeType⟩
  | keys => do
    let (hasAny, merged) ← mergeSources s kc nowMs keys [] false denseZeros
    return if !hasAny then 0 else HyperLogLog.count estimate ⟨merged, .dense⟩

def pfmergeDest (dest : Key) (found : Option HyperLogLogMeta) : Bytes :=
  match found with
  | some m =>
    let data := (s.data.get (hllDataKey kc dest)).getD denseZeros
    match m.encodeType with
    | .sparse =>
      match hllSparseToDense data denseZeros with
      | .ok denseBuf => denseBuf
      | .error _ => data
    | .dense => data
  | none => denseZeros

def pfmerge (version : UInt64) (dest : Key) (sources : List Key) : Except Error (Unit × Batch) :=
  if sources.isEmpty then .ok ((), [])
  else do
    let found ← getHllMetaChecked s kc nowMs dest
    let m := found.getD (.newWithVersion 0 version)
    let start := pfmergeDest s kc dest found
    let merged := if start.length < hllDenseSize then resizeDense start else start
    let (_, merged) ← mergeSources s kc nowMs sources [dest] false merged
    let m : HyperLogLogMeta := ⟨{ m.base with size := UInt64.ofNat hllDenseSize }, .dense⟩
    return ((), [.insertData (hllDataKey kc dest) merged, .insertMeta (hllMetaKey kc dest) m.encode])

end

end

end Wedb
