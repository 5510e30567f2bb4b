import Wedb.Engine.Error
import Wedb.Ordered.BitStream

/-!
# Bit fields

A field of up to 64 bits is read and written through a window of nine bytes that starts at
its first byte. Words are naturals below `2 ^ 64`, signed words are integers, and what wraps
in the code is a remainder here.
-/

namespace Wedb.Bitfield

inductive BitfieldOverflow
  | wrap
  | sat
  | fail
  deriving DecidableEq, Repr

inductive BitfieldOpType
  | get
  | set
  | incrBy
  deriving DecidableEq, Repr

inductive BitfieldValue
  | signed (v : ℤ)
  | unsigned (v : ℕ)
  deriving DecidableEq, Repr

/-- The integer type of a field, with a width that it allows. -/
structure BitfieldEncoding where
  isSigned : Bool
  bits : ℕ
  pos : 1 ≤ bits
  le : bits ≤ if isSigned then 64 else 63

/-- An operation at an offset that the parser of offsets lets through. -/
structure BitfieldOperation where
  opType : BitfieldOpType
  encoding : BitfieldEncoding
  offset : ℕ
  value : Int64
  overflow : BitfieldOverflow
  offset_lt : offset < 2 ^ 32

def asU64 (x : ℤ) : ℕ := (x % 2 ^ 64).toNat

def asI64 (n : ℕ) : ℤ := if n % 2 ^ 64 < 2 ^ 63 then (n % 2 ^ 64 : ℕ) else (n % 2 ^ 64 : ℕ) - 2 ^ 64

/-! ## The window -/

/-- Nine bytes of a bitmap from one of its bytes on. -/
structure ArrayBitfieldBitmap where
  buf : Bytes
  byteOffset : ℕ
  size_eq : buf.length = 9

namespace ArrayBitfieldBitmap

variable (view : ArrayBitfieldBitmap)

/-- The field does not lie in the window. -/
def Outside (bitOffset bits : ℕ) : Prop :=
  let firstByte := bitOffset / 8
  let lastByte := (bitOffset + bits - 1) / 8 + 1
  let bytes := lastByte - firstByte
  firstByte < view.byteOffset ∨ view.byteOffset + 9 < firstByte + bytes

instance (bitOffset bits : ℕ) : Decidable (view.Outside bitOffset bits) :=
  inferInstanceAs (Decidable (_ ∨ _))

def outOfBuffer : Error := .invalidData "Bitfield range out of buffer"

def bitMask (bits : ℕ) : ℕ := if bits = 64 then 2 ^ 64 - 1 else 2 ^ bits - 1

def shift (bitOffset bits : ℕ) : ℕ := 72 - (bitOffset - view.byteOffset * 8) - bits

def readRawBitfield (bitOffset bits : ℕ) : Except Error ℕ :=
  if view.Outside bitOffset bits then .error outOfBuffer
  else .ok (((beNat view.buf >>> view.shift bitOffset bits) % 2 ^ 64) &&& bitMask bits)

def getUnsignedBitfield (bitOffset bits : ℕ) : Except Error ℕ :=
  if bits = 0 ∨ 63 < bits then .error (.invalidData "Invalid unsigned bits (1..=63)")
  else view.readRawBitfield bitOffset bits

def getSignedBitfield (bitOffset bits : ℕ) : Except Error ℤ :=
  if bits = 0 ∨ 64 < bits then .error (.invalidData "Invalid signed bits (1..=64)")
  else (view.readRawBitfield bitOffset bits).map fun raw =>
    asI64 (raw * 2 ^ (64 - bits)) >>> (64 - bits)

def setBitfield (bitOffset bits value : ℕ) : Except Error ArrayBitfieldBitmap :=
  if view.Outside bitOffset bits then .error outOfBuffer
  else
    let mask := bitMask bits <<< view.shift bitOffset bits
    let val := (value &&& bitMask bits) <<< view.shift bitOffset bits
    let word := (beNat view.buf &&& (2 ^ 128 - 1 - mask)) ||| val
    .ok ⟨beBytes 9 word, view.byteOffset, beBytes_length 9 word⟩

end ArrayBitfieldBitmap

/-! ## Arithmetic -/

def wrappedSignedBitfieldPlus (value : ℕ) (incr : ℤ) (bits : ℕ) : ℕ :=
  let res := (value + asU64 incr) % 2 ^ 64
  if bits < 64 then
    let mask := 2 ^ 64 - 2 ^ bits
    if res &&& 2 ^ (bits - 1) ≠ 0 then res ||| mask else res &&& (2 ^ 64 - 1 - mask)
  else res

def signedBitfieldPlus (value : ℕ) (incr : ℤ) (bits : ℕ) (overflow : BitfieldOverflow) :
    ℕ × Bool :=
  let max : ℤ := if bits = 64 then 2 ^ 63 - 1 else 2 ^ (bits - 1) - 1
  let min : ℤ := -max - 1
  let signedVal := asI64 value
  let maxIncr := asI64 (asU64 (max - value))
  let minIncr := asI64 (asU64 (min - signedVal))
  if max < signedVal ∨ (bits ≠ 64 ∧ maxIncr < incr) ∨
      (0 ≤ signedVal ∧ 0 ≤ incr ∧ maxIncr < incr) then
    match overflow with
    | .wrap => (wrappedSignedBitfieldPlus value incr bits, true)
    | .sat => (asU64 max, true)
    | .fail => (0, true)
  else if signedVal < min ∨ (bits ≠ 64 ∧ incr < minIncr) ∨
      (signedVal < 0 ∧ incr < 0 ∧ incr < minIncr) then
    match overflow with
    | .wrap => (wrappedSignedBitfieldPlus value incr bits, true)
    | .sat => (asU64 min, true)
    | .fail => (0, true)
  else (asU64 (signedVal + incr), false)

def wrappedUnsignedBitfieldPlus (value : ℕ) (incr : ℤ) (bits : ℕ) : ℕ :=
  let mask := if bits = 64 then 0 else 2 ^ 64 - 2 ^ bits
  let res := (value + asU64 incr) % 2 ^ 64
  res &&& (2 ^ 64 - 1 - mask)

def unsignedBitfieldPlus (value : ℕ) (incr : ℤ) (bits : ℕ) (overflow : BitfieldOverflow) :
    ℕ × Bool :=
  let max : ℕ := if bits = 64 then 2 ^ 64 - 1 else 2 ^ bits - 1
  let maxIncr := asI64 (asU64 ((max : ℤ) - value))
  let minIncr := asI64 (2 ^ 64 - 1 - value + 1)
  if max < value ∨ (0 < incr ∧ maxIncr < incr) then
    match overflow with
    | .wrap => (wrappedUnsignedBitfieldPlus value incr bits, true)
    | .sat => (max, true)
    | .fail => (0, true)
  else if incr < 0 ∧ incr < minIncr then
    match overflow with
    | .wrap => (wrappedUnsignedBitfieldPlus value incr bits, true)
    | .sat => (0, true)
    | .fail => (0, true)
  else ((value + asU64 incr) % 2 ^ 64, false)

def BitfieldEncoding.toValue (enc : BitfieldEncoding) (raw : ℕ) : BitfieldValue :=
  if enc.isSigned then .signed (asI64 raw) else .unsigned raw

def bitfieldOpCalc (op : BitfieldOperation) (oldValue : ℕ) : Option BitfieldValue × ℕ × Bool :=
  if op.opType = .get then (some (op.encoding.toValue oldValue), oldValue, false)
  else
    let inputVal := if op.opType = .set then asU64 op.value.toInt else oldValue
    let incr := if op.opType = .set then 0 else op.value.toInt
    let result :=
      if op.encoding.isSigned then signedBitfieldPlus inputVal incr op.encoding.bits op.overflow
      else unsignedBitfieldPlus inputVal incr op.encoding.bits op.overflow
    if op.overflow = .fail ∧ result.2 then (none, oldValue, true)
    else (some (op.encoding.toValue (if op.opType = .set then oldValue else result.1)), result.1, false)

def ArrayBitfieldBitmap.applyOp (view : ArrayBitfieldBitmap) (op : BitfieldOperation)
    (readOnly : Bool) : Except Error (Option BitfieldValue × ArrayBitfieldBitmap) :=
  let bits := op.encoding.bits
  (if op.encoding.isSigned then (view.getSignedBitfield op.offset bits).map asU64
    else view.getUnsignedBitfield op.offset bits).bind fun oldRaw =>
  let (ret, newRaw, _) := bitfieldOpCalc op oldRaw
  if op.opType ≠ .get ∧ ¬readOnly ∧ ret.isSome then
    (view.setBitfield op.offset bits newRaw).map fun view => (ret, view)
  else .ok (ret, view)

/-! ## A step on a string -/

def firstByte (op : BitfieldOperation) : ℕ := op.offset / 8

def lastByte (op : BitfieldOperation) : ℕ := (op.offset + op.encoding.bits - 1) / 8

def resized (op : BitfieldOperation) (strBytes : Bytes) : Bytes :=
  strBytes ++ List.replicate (lastByte op + 1 - strBytes.length) 0

def viewAt (bytes : Bytes) (first : ℕ) : ArrayBitfieldBitmap where
  buf := (bytes.drop first).take 9 ++ List.replicate (9 - ((bytes.drop first).take 9).length) 0
  byteOffset := first
  size_eq := by
    rw [List.length_append, List.length_replicate]
    have hle := List.length_take_le 9 (bytes.drop first)
    omega

def stringStep (strBytes : Bytes) (op : BitfieldOperation) (readOnly : Bool) :
    Except Error (Option BitfieldValue × Bytes) :=
  let strBytes := if op.opType ≠ .get then resized op strBytes else strBytes
  ((viewAt strBytes (firstByte op)).applyOp op readOnly).map fun (ret, view) =>
    if op.opType ≠ .get ∧ ¬readOnly ∧ ret.isSome then
      let writeBytes := min (lastByte op - firstByte op + 1) 9
      (ret, strBytes.take (firstByte op) ++ view.buf.take writeBytes ++
        strBytes.drop (firstByte op + writeBytes))
    else (ret, strBytes)

/-! ## A step on segments -/

def bitmapSegmentBytes : ℕ := 1024

def reverseBits (b : UInt8) : UInt8 := ⟨b.toBitVec.reverse⟩

def expandBitmapSegment (segment : Bytes) (minBytes : ℕ) : Bytes :=
  if segment.length < minBytes then
    let newSize := max minBytes (min (segment.length * 2) bitmapSegmentBytes)
    segment ++ List.replicate (newSize - segment.length) 0
  else segment

namespace ArrayBitfieldBitmap

def new (byteOffset : ℕ) : ArrayBitfieldBitmap where
  buf := List.replicate 9 0
  byteOffset := byteOffset
  size_eq := List.length_replicate

def rangeOutOfBuffer : Error :=
  .invalidData "The range [offset, offset + bytes) is out of bitfield buffer"

def set (view : ArrayBitfieldBitmap) (byteOffset : ℕ) (src : Bytes) :
    Except Error ArrayBitfieldBitmap :=
  if h : byteOffset < view.byteOffset ∨ view.byteOffset + 9 < byteOffset + src.length then
    .error rangeOutOfBuffer
  else
    let relOffset := byteOffset - view.byteOffset
    .ok
      { buf := view.buf.take relOffset ++ src ++ view.buf.drop (relOffset + src.length)
        byteOffset := view.byteOffset
        size_eq := by
          have hsize := view.size_eq
          simp only [List.length_append, List.length_take, List.length_drop]
          omega }

def get (view : ArrayBitfieldBitmap) (byteOffset bytes : ℕ) : Except Error Bytes :=
  if byteOffset < view.byteOffset ∨ view.byteOffset + 9 < byteOffset + bytes then
    .error rangeOutOfBuffer
  else .ok ((view.buf.drop (byteOffset - view.byteOffset)).take bytes)

end ArrayBitfieldBitmap

section segments

variable (firstByte lastByte : ℕ)

def interStart (sIdx : ℕ) : ℕ := max firstByte (sIdx * bitmapSegmentBytes)

def interEnd (sIdx : ℕ) : ℕ := min (lastByte + 1) (sIdx * bitmapSegmentBytes + bitmapSegmentBytes)

def msbSlice (seg : Bytes) (segRelStart sliceLen : ℕ) : Bytes :=
  let slice := ((seg.drop segRelStart).take sliceLen).map reverseBits
  slice ++ List.replicate (sliceLen - slice.length) 0

def readSegment (store : ℕ → Bytes) (view : ArrayBitfieldBitmap) (sIdx : ℕ) :
    Except Error ArrayBitfieldBitmap :=
  let start := interStart firstByte sIdx
  let stop := interEnd lastByte sIdx
  if start < stop then
    let segRelStart := start - sIdx * bitmapSegmentBytes
    view.set start (msbSlice (store sIdx) segRelStart (stop - start))
  else .ok view

def writeSegment (view : ArrayBitfieldBitmap) (store : ℕ → Bytes) (sIdx : ℕ) :
    Except Error (ℕ → Bytes) :=
  let start := interStart firstByte sIdx
  let stop := interEnd lastByte sIdx
  if start < stop then
    let segRelStart := start - sIdx * bitmapSegmentBytes
    let segRelEnd := stop - sIdx * bitmapSegmentBytes
    (view.get start (stop - start)).map fun slice =>
      let seg := expandBitmapSegment (store sIdx) segRelEnd
      Function.update store sIdx
        (seg.take segRelStart ++ slice.map reverseBits ++ seg.drop segRelEnd)
  else .ok store

end segments

def segmentRange (op : BitfieldOperation) : List ℕ :=
  let firstSeg := firstByte op / bitmapSegmentBytes
  let lastSeg := lastByte op / bitmapSegmentBytes
  List.range' firstSeg (lastSeg - firstSeg + 1)

def segmentStep (store : ℕ → Bytes) (op : BitfieldOperation) (readOnly : Bool) :
    Except Error (Option BitfieldValue × (ℕ → Bytes)) :=
  ((segmentRange op).foldlM (readSegment (firstByte op) (lastByte op) store)
    (ArrayBitfieldBitmap.new (firstByte op))).bind fun view =>
  (view.applyOp op readOnly).bind fun (ret, view) =>
    if op.opType ≠ .get ∧ ¬readOnly ∧ ret.isSome then
      ((segmentRange op).foldlM (writeSegment (firstByte op) (lastByte op) view) store).map
        fun store => (ret, store)
    else .ok (ret, store)

/-! ## Bitmaps -/

/-- A bitmap is a string or a map from indices of segments to their bytes. -/
inductive Bitmap
  | string (strBytes : Bytes)
  | segments (store : ℕ → Bytes)

namespace Bitmap

def byteAt : Bitmap → ℕ → UInt8
  | string strBytes, i => strBytes.getD i 0
  | segments store, i =>
      reverseBits ((store (i / bitmapSegmentBytes)).getD (i % bitmapSegmentBytes) 0)

def bit (bitmap : Bitmap) (i : ℕ) : Bool := (bitmap.byteAt (i / 8)).toNat.testBit (7 - i % 8)

def bitfieldStep (bitmap : Bitmap) (op : BitfieldOperation) (readOnly : Bool) :
    Except Error (Option BitfieldValue × Bitmap) :=
  match bitmap with
  | string strBytes => (stringStep strBytes op readOnly).map fun (ret, bytes) => (ret, string bytes)
  | segments store => (segmentStep store op readOnly).map fun (ret, store) => (ret, segments store)

def execBitfield (readOnly : Bool) :
    List BitfieldOperation → Bitmap → Except Error (List (Option BitfieldValue) × Bitmap)
  | [], bitmap => .ok ([], bitmap)
  | op :: ops, bitmap =>
      (bitmap.bitfieldStep op readOnly).bind fun (ret, bitmap) =>
        (execBitfield readOnly ops bitmap).map fun (results, bitmap) => (ret :: results, bitmap)

end Bitmap

end Wedb.Bitfield
