import Mathlib.Tactic

/-!
# The unpacking kernels

A kernel reads packed integers out of a source slice through its pointer, so that a load may
lie anywhere in the memory behind it. Every kernel is a list of steps: the loads of one
iteration and the integers that it hands to the consumer.
-/

namespace Wedb.Alp

/-- The memory behind the pointer of a slice. -/
abbrev Memory := ℕ → UInt8

structure Load where
  off : ℕ
  bytes : ℕ
  deriving DecidableEq, Repr

/-- The loads of one iteration, and the integers handed to the consumer: eight at once, or
one by one. -/
structure Consumed where
  loads : List Load
  offs : List ℕ
  deriving DecidableEq, Repr

/-- What a consumer brings of its own. -/
structure Consumer where
  useLut2 : Bool
  useLut4 : Bool
  bulk64 : Bool
  deriving DecidableEq, Repr

def packedByteSize (count bitWidth : ℕ) : ℕ := (count * bitWidth + 7) / 8

def fromLe (mem : Memory) (off : ℕ) : ℕ → ℕ
  | 0 => 0
  | bytes + 1 => (mem off).toNat + 256 * fromLe mem (off + 1) bytes

def bitMask (bitWidth : ℕ) : ℕ := 2 ^ bitWidth - 1

def asU64 (n : ℕ) : ℕ := n % 2 ^ 64

def arr8 {α : Type} (f : ℕ → α) : List α := (List.range 8).map f

def onesFrom (count : ℕ) (one : ℕ → Consumed) (i : ℕ) : List Consumed :=
  if i < count then one i :: onesFrom count one (i + 1) else []
termination_by count - i

def eightsThenOnes (count : ℕ) (eight one : ℕ → Consumed) (i : ℕ) : List Consumed :=
  if i + 8 ≤ count then eight i :: eightsThenOnes count eight one (i + 8)
  else onesFrom count one i
termination_by count - i

section Kernels

variable (mem : Memory)

/-! ## Widths that divide a byte -/

def bytesThenRem (perByte width count : ℕ) : List Consumed :=
  ((List.range (count / perByte)).map fun b =>
    ⟨[⟨b, 1⟩], (List.range perByte).map fun k =>
      ((mem b).toNat >>> (k * width)) &&& bitMask width⟩) ++
  if 0 < count % perByte then
    [⟨[⟨count / perByte, 1⟩], (List.range (count % perByte)).map fun k =>
      ((mem (count / perByte)).toNat >>> (k * width)) &&& bitMask width⟩]
  else []

def unpack1 (count : ℕ) : List Consumed := bytesThenRem mem 8 1 count

def wordsThenBytes (width count : ℕ) : List Consumed :=
  let remStart := count / 8 * 8
  eightsThenOnes count
    (fun i =>
      let w := fromLe mem (i / 8 * width) width
      ⟨[⟨i / 8 * width, width⟩], arr8 fun k => (w >>> (k * width)) &&& bitMask width⟩)
    (fun remI =>
      let bitPos := (remI - remStart) * width
      let byteIdx := count / 8 * width + (bitPos >>> 3)
      ⟨[⟨byteIdx, 1⟩], [((mem byteIdx).toNat >>> (bitPos &&& 7)) &&& bitMask width]⟩)
    0

def unpack2 (consumer : Consumer) (count : ℕ) : List Consumed :=
  if consumer.useLut2 then bytesThenRem mem 4 2 count else wordsThenBytes mem 2 count

def unpack4Lut (count : ℕ) : List Consumed :=
  let fullBytes := count / 2
  let nibbles := fun b => [(mem b).toNat &&& bitMask 4, (mem b).toNat >>> 4]
  ((List.range (fullBytes / 2)).map fun c =>
    ⟨[⟨2 * c, 1⟩, ⟨2 * c + 1, 1⟩], nibbles (2 * c) ++ nibbles (2 * c + 1)⟩) ++
  (if fullBytes % 2 = 1 then [⟨[⟨fullBytes - 1, 1⟩], nibbles (fullBytes - 1)⟩] else []) ++
  if count % 2 = 1 then [⟨[⟨fullBytes, 1⟩], [(mem fullBytes).toNat &&& bitMask 4]⟩] else []

def unpack4 (consumer : Consumer) (count : ℕ) : List Consumed :=
  if consumer.useLut4 then unpack4Lut mem count else wordsThenBytes mem 4 count

/-! ## Whole bytes -/

def unpack8 (count : ℕ) : List Consumed :=
  eightsThenOnes count
    (fun i => ⟨[⟨i, 8⟩], arr8 fun k => (mem (i + k)).toNat⟩)
    (fun i => ⟨[⟨i, 1⟩], [(mem i).toNat]⟩)
    0

def unpack16 (count : ℕ) : List Consumed :=
  eightsThenOnes count
    (fun i =>
      let chunk := fromLe mem (i * 2) 16
      ⟨[⟨i * 2, 16⟩], arr8 fun k => (chunk >>> (k * 16)) % 2 ^ 16⟩)
    (fun i => ⟨[⟨i * 2, 2⟩], [fromLe mem (i * 2) 2]⟩)
    0

def wordsEach (bytes count : ℕ) : List Consumed :=
  eightsThenOnes count
    (fun i => ⟨arr8 fun k => ⟨(i + k) * bytes, bytes⟩, arr8 fun k =>
      fromLe mem ((i + k) * bytes) bytes⟩)
    (fun i => ⟨[⟨i * bytes, bytes⟩], [fromLe mem (i * bytes) bytes]⟩)
    0

def unpack32 (count : ℕ) : List Consumed := wordsEach mem 4 count

def unpack64 (consumer : Consumer) (count : ℕ) : List Consumed :=
  if consumer.bulk64 then
    [⟨[⟨0, count * 8⟩], (List.range count).map fun i => fromLe mem (i * 8) 8⟩]
  else wordsEach mem 8 count

/-! ## Unaligned widths -/

variable (bw count srcLen : ℕ)

/-- One element through a load of a whole word, or through a copy of the bytes that are left. -/
def tailStep (wordBytes : ℕ) (i : ℕ) : Consumed :=
  let safeLimitBytes := srcLen - wordBytes
  let bitPos := i * bw
  let byteOffset := bitPos >>> 3
  if byteOffset ≤ safeLimitBytes then
    ⟨[⟨byteOffset, wordBytes⟩],
      [asU64 (fromLe mem byteOffset wordBytes >>> (bitPos &&& 7)) &&& bitMask bw]⟩
  else
    let available := min (srcLen - byteOffset) wordBytes
    ⟨if 0 < available then [⟨byteOffset, available⟩] else [],
      [asU64 (fromLe mem byteOffset available >>> (bitPos &&& 7)) &&& bitMask bw]⟩

def unpackTail (wordBytes : ℕ) (i : ℕ) : List Consumed :=
  onesFrom count (tailStep mem bw srcLen wordBytes) i

def le16Fields (chunk : ℕ) : List ℕ :=
  let lo := asU64 chunk
  let hi := asU64 (chunk >>> (bw * 4))
  [lo &&& bitMask bw, (lo >>> bw) &&& bitMask bw, (lo >>> (bw * 2)) &&& bitMask bw,
    (lo >>> (bw * 3)) &&& bitMask bw, hi &&& bitMask bw, (hi >>> bw) &&& bitMask bw,
    (hi >>> (bw * 2)) &&& bitMask bw, (hi >>> (bw * 3)) &&& bitMask bw]

def le16Eights (fastEnd8 byteOffset i : ℕ) : List Consumed :=
  if i + 8 ≤ fastEnd8 then
    ⟨[⟨byteOffset, 16⟩], le16Fields bw (fromLe mem byteOffset 16)⟩ ::
      le16Eights fastEnd8 (byteOffset + bw) (i + 8)
  else unpackTail mem bw count srcLen 8 i
termination_by fastEnd8 - i

def le16Sixteens (fastEnd8 byteOffset i : ℕ) : List Consumed :=
  if i + 16 ≤ fastEnd8 then
    ⟨[⟨byteOffset, 16⟩, ⟨byteOffset + bw, 16⟩], le16Fields bw (fromLe mem byteOffset 16)⟩ ::
      ⟨[], le16Fields bw (fromLe mem (byteOffset + bw) 16)⟩ ::
      le16Sixteens fastEnd8 (byteOffset + bw * 2) (i + 16)
  else le16Eights mem bw count srcLen fastEnd8 byteOffset i
termination_by fastEnd8 - i

def unpackLe16 : List Consumed :=
  let safeLimit16 := srcLen - 16
  let maxSafeGroups := safeLimit16 / bw
  let fastEnd8 := min (maxSafeGroups * 8) (count / 8 * 8)
  le16Sixteens mem bw count srcLen fastEnd8 0 0

def mid32Fields (midShift chunk0 chunk1 : ℕ) : List ℕ :=
  (List.range 4).map (fun k => asU64 (chunk0 >>> (bw * k)) &&& bitMask bw) ++
    (List.range 4).map fun k => asU64 (chunk1 >>> (midShift + bw * k)) &&& bitMask bw

def mid32Eights (fastEnd8 byteOffset i : ℕ) : List Consumed :=
  let midByte := 4 * bw / 8
  let midShift := (4 * bw) &&& 7
  if i + 8 ≤ fastEnd8 then
    ⟨[⟨byteOffset, 16⟩, ⟨byteOffset + midByte, 16⟩],
      mid32Fields bw midShift (fromLe mem byteOffset 16) (fromLe mem (byteOffset + midByte) 16)⟩ ::
      mid32Eights fastEnd8 (byteOffset + bw) (i + 8)
  else unpackTail mem bw count srcLen 8 i
termination_by fastEnd8 - i

def unpack17To32 : List Consumed :=
  let midByte := 4 * bw / 8
  let safeLimit32 := srcLen - (midByte + 16)
  let maxSafeGroups := safeLimit32 / bw
  let fastEnd8 := min (maxSafeGroups * 8) (count / 8 * 8)
  mid32Eights mem bw count srcLen fastEnd8 0 0

def wideOff (k : ℕ) : ℕ := k * bw / 8

def wideSh (k : ℕ) : ℕ := (k * bw) &&& 7

def wideBytes : ℕ := if bw ≤ 56 then 8 else 16

def wideEights (safeLimit fastEnd byteOff i : ℕ) : List Consumed :=
  if i < fastEnd ∧ byteOff ≤ safeLimit then
    ⟨arr8 fun k => ⟨byteOff + wideOff bw k, wideBytes bw⟩, arr8 fun k =>
      asU64 (fromLe mem (byteOff + wideOff bw k) (wideBytes bw) >>> wideSh bw k) &&& bitMask bw⟩ ::
      wideEights safeLimit fastEnd (byteOff + bw) (i + 8)
  else unpackTail mem bw count srcLen 16 i
termination_by fastEnd - i

def unpack33To64 : List Consumed :=
  let safeLimit := srcLen - (bw + 16)
  let fastEnd := count / 8 * 8
  wideEights mem bw count srcLen safeLimit fastEnd 0 0

/-! ## The kernel of a width -/

def dispatchBw (consumer : Consumer) : List Consumed :=
  match bw with
  | 1 => unpack1 mem count
  | 2 => unpack2 mem consumer count
  | 4 => unpack4 mem consumer count
  | 8 => unpack8 mem count
  | 16 => unpack16 mem count
  | 32 => unpack32 mem count
  | 64 => unpack64 mem consumer count
  | bw =>
    if bw ≤ 15 then unpackLe16 mem bw count srcLen
    else if bw ≤ 31 then unpack17To32 mem bw count srcLen
    else unpack33To64 mem bw count srcLen

def bitunpackCoreConsumer (consumer : Consumer) : List Consumed :=
  if count = 0 then []
  else if bw = 0 then eightsThenOnes count (fun _ => ⟨[], arr8 fun _ => 0⟩) (fun _ => ⟨[], [0]⟩) 0
  else dispatchBw mem bw count srcLen consumer

end Kernels

end Wedb.Alp
