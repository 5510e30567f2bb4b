import Wedb.Ordered.ByteString

/-!
# Key metadata

The header in front of every metadata value and string: type, flags, expiry in
milliseconds, version and element count. Values are written in the 26-byte
layout; the compact layouts of 25 and 9 bytes are also read.
-/

namespace Wedb

inductive RedisType
  | none
  | string
  | hash
  | list
  | set
  | zSet
  | bitmap
  | sortedInt
  | stream
  | bloom
  | json
  | hyperLogLog
  | tDigest
  | timeSeries
  | cuckooFilter
  deriving DecidableEq, Repr

namespace RedisType

def all : List RedisType :=
  [none, string, hash, list, set, zSet, bitmap, sortedInt, stream, bloom, json, hyperLogLog,
    tDigest, timeSeries, cuckooFilter]

def asU8 : RedisType → UInt8
  | none => 0
  | string => 1
  | hash => 2
  | list => 3
  | set => 4
  | zSet => 5
  | bitmap => 6
  | sortedInt => 7
  | stream => 8
  | bloom => 9
  | json => 10
  | hyperLogLog => 11
  | tDigest => 12
  | timeSeries => 13
  | cuckooFilter => 14

def name : RedisType → String
  | none => "none"
  | string => "string"
  | hash => "hash"
  | list => "list"
  | set => "set"
  | zSet => "zset"
  | bitmap => "bitmap"
  | sortedInt => "sortedint"
  | stream => "stream"
  | bloom => "MBbloom--"
  | json => "ReJSON-RL"
  | hyperLogLog => "hyperloglog"
  | tDigest => "TDIS-TYPE"
  | timeSeries => "timeseries"
  | cuckooFilter => "MBbloomCF"

def fromU8 (val : UInt8) : RedisType := (all.find? fun t => t.asU8 == val).getD none

def isSingleKvType : RedisType → Bool
  | string | json => true
  | _ => false

def isEmptyableType : RedisType → Bool
  | string | json | stream | bloom | hyperLogLog | tDigest | timeSeries | cuckooFilter => true
  | _ => false

@[simp] theorem fromU8_asU8 (t : RedisType) : fromU8 t.asU8 = t := by
  cases t <;> decide

theorem asU8_le (t : RedisType) : t.asU8 ≤ 14 := by
  cases t <;> decide

end RedisType

def slice (bs : Bytes) (start len : ℕ) : Bytes := (bs.drop start).take len

def readU64 (bs : Bytes) (start : ℕ) : UInt64 := UInt64.fromBeBytes (slice bs start 8)

def readU16 (bs : Bytes) (start : ℕ) : UInt16 := UInt16.ofNat (beNat (slice bs start 2))

def readU32 (bs : Bytes) (start : ℕ) : UInt32 := UInt32.ofNat (beNat (slice bs start 4))

structure KeyMeta where
  rtype : RedisType
  flags : UInt8
  expireAt : UInt64
  version : UInt64
  size : UInt64
  deriving DecidableEq, Repr

namespace KeyMeta

def meta64bitEncodingMask : UInt8 := 0x80
def metaTypeMask : UInt8 := 0x0F
def encodedSize : ℕ := 26
def kvrocksComplexEncodedSize : ℕ := 25
def kvrocksSingleKvEncodedSize : ℕ := 9

def isEmptyableType (m : KeyMeta) : Bool := m.rtype.isEmptyableType

def isExpired (m : KeyMeta) (nowMs : UInt64) : Bool :=
  if !m.isEmptyableType && m.size == 0 then true
  else decide (m.expireAt > 0) && decide (m.expireAt ≤ nowMs)

def encode (m : KeyMeta) : Bytes :=
  m.rtype.asU8 :: m.flags ::
    (m.expireAt.toBeBytes ++ m.version.toBeBytes ++ m.size.toBeBytes)

def decode (bytes : Bytes) : Option KeyMeta :=
  match bytes with
  | [] => none
  | first :: _ =>
    if bytes.length ≥ encodedSize ∧ first ≤ 14 then
      some ⟨.fromU8 first, bytes.getD 1 0, readU64 bytes 2, readU64 bytes 10, readU64 bytes 18⟩
    else if first &&& meta64bitEncodingMask ≠ 0 then
      let rtype := RedisType.fromU8 (first &&& metaTypeMask)
      if rtype.isSingleKvType then
        if bytes.length < kvrocksSingleKvEncodedSize then none
        else some ⟨rtype, first, readU64 bytes 1, 0, 0⟩
      else if bytes.length ≥ kvrocksComplexEncodedSize then
        some ⟨rtype, first, readU64 bytes 1, readU64 bytes 9, readU64 bytes 17⟩
      else none
    else none

@[simp] theorem encode_length (m : KeyMeta) : m.encode.length = encodedSize := by
  simp [encode, encodedSize]

theorem slice_append_right {a b : Bytes} {n len : ℕ} (h : a.length = n) :
    slice (a ++ b) n len = b.take len := by
  rw [slice, ← h, List.drop_left]

theorem readU64_append {a b : Bytes} {n : ℕ} (x : UInt64) (h : a.length = n) :
    readU64 (a ++ (x.toBeBytes ++ b)) n = x := by
  rw [readU64, slice_append_right h, List.take_append_of_le_length (by simp),
    List.take_of_length_le (by simp), UInt64.fromBeBytes_toBeBytes]

theorem readU16_append {a b : Bytes} {n : ℕ} (x : UInt16) (h : a.length = n) :
    readU16 (a ++ (x.toBeBytes ++ b)) n = x := by
  rw [readU16, slice_append_right h, List.take_append_of_le_length (by simp),
    List.take_of_length_le (by simp), UInt16.beNat_toBeBytes, UInt16.ofNat_toNat]

theorem readU32_append {a b : Bytes} {n : ℕ} (x : UInt32) (h : a.length = n) :
    readU32 (a ++ (x.toBeBytes ++ b)) n = x := by
  rw [readU32, slice_append_right h, List.take_append_of_le_length (by simp),
    List.take_of_length_le (by simp), UInt32.beNat_toBeBytes, UInt32.ofNat_toNat]

theorem decode_encode_append (m : KeyMeta) (t : Bytes) : decode (m.encode ++ t) = some m := by
  have hexp : readU64 (m.encode ++ t) 2 = m.expireAt := by
    have h := readU64_append (a := [m.rtype.asU8, m.flags])
      (b := m.version.toBeBytes ++ (m.size.toBeBytes ++ t)) m.expireAt (n := 2) rfl
    simpa [encode] using h
  have hver : readU64 (m.encode ++ t) 10 = m.version := by
    have h := readU64_append (a := m.rtype.asU8 :: m.flags :: m.expireAt.toBeBytes)
      (b := m.size.toBeBytes ++ t) m.version (n := 10) (by simp)
    simpa [encode] using h
  have hsize : readU64 (m.encode ++ t) 18 = m.size := by
    have h := readU64_append
      (a := m.rtype.asU8 :: m.flags :: (m.expireAt.toBeBytes ++ m.version.toBeBytes))
      (b := t) m.size (n := 18) (by simp)
    simpa [encode] using h
  have hlen : encodedSize ≤ (m.encode ++ t).length := by simp
  rw [encode] at hexp hver hsize hlen ⊢
  simp only [List.cons_append] at hexp hver hsize hlen ⊢
  rw [decode, if_pos ⟨hlen, m.rtype.asU8_le⟩]
  simp only [hexp, hver, hsize, RedisType.fromU8_asU8, List.getD_cons_succ, List.getD_cons_zero]

theorem decode_encode (m : KeyMeta) : decode m.encode = some m := by
  simpa using decode_encode_append m []

theorem encode_not_kvrocks (m : KeyMeta) (t : Bytes) :
    ¬((m.encode ++ t).headD 0 &&& meta64bitEncodingMask ≠ 0 ∨
      (m.encode ++ t).length ≥ kvrocksComplexEncodedSize ∧ (m.encode ++ t).headD 0 > 14) := by
  have hfirst : (m.encode ++ t).headD 0 = m.rtype.asU8 := rfl
  have hmask : m.rtype.asU8 &&& meta64bitEncodingMask = 0 := by
    cases m.rtype <;> decide
  rw [hfirst]
  rintro (h | h)
  · exact h hmask
  · exact absurd m.rtype.asU8_le (not_le.mpr h.2)

theorem isExpired_mono {m : KeyMeta} {now t : UInt64} (h : m.isExpired now = true)
    (ht : now ≤ t) : m.isExpired t = true := by
  unfold isExpired at h ⊢
  split_ifs at h ⊢ with he
  · rfl
  · simp only [Bool.and_eq_true, decide_eq_true_eq] at h ⊢
    exact ⟨h.1, h.2.trans ht⟩

end KeyMeta

def normalizeRange (start stop len : ℤ) : ℤ × ℤ :=
  if len ≤ 0 then (0, -1)
  else
    let s := if start < 0 then len + start else start
    let e := if stop < 0 then len + stop else stop
    (if s < 0 then 0 else s, if e ≥ len then len - 1 else e)

/-!
## Framed bytes and texts

Values of varying length are written behind their length in four bytes. A text is its
bytes, and reading one checks them.
-/

def fromUtf8 (bytes : Bytes) : Option String := String.fromUTF8? ⟨bytes.toArray⟩

def textBytes (text : String) : Bytes := text.toUTF8.data.toList

theorem fromUtf8_textBytes (text : String) : fromUtf8 (textBytes text) = some text := by
  have hbytes : (⟨text.toUTF8.data.toList.toArray⟩ : ByteArray) = text.toUTF8 := by simp
  rw [fromUtf8, textBytes, hbytes, String.fromUTF8?, String.toUTF8_eq_toByteArray,
    dif_pos text.isValidUTF8]
  rfl

theorem textBytes_fromUtf8 {bytes : Bytes} {text : String} (h : fromUtf8 bytes = some text) :
    textBytes text = bytes := by
  rw [fromUtf8, String.fromUTF8?] at h
  split_ifs at h with hvalid
  rw [← Option.some.inj h]
  rfl

def takeFramed (bytes : Bytes) : Option (Bytes × Bytes) :=
  if bytes.length < 4 then none
  else
    let len := beNat (bytes.take 4)
    let rest := bytes.drop 4
    if rest.length < len then none else some (rest.take len, rest.drop len)

def encodeFramed (bytes : Bytes) : Bytes := (UInt32.ofNat bytes.length).toBeBytes ++ bytes

theorem beNat_ofNat_u32 {n : ℕ} (h : n < 2 ^ 32) : beNat (UInt32.ofNat n).toBeBytes = n := by
  rw [UInt32.beNat_toBeBytes, UInt32.toNat_ofNat_of_lt' h]

theorem takeFramed_encodeFramed {bytes : Bytes} (h : bytes.length < 2 ^ 32) (rest : Bytes) :
    takeFramed (encodeFramed bytes ++ rest) = some (bytes, rest) := by
  have hframe : encodeFramed bytes ++ rest =
      (UInt32.ofNat bytes.length).toBeBytes ++ (bytes ++ rest) := List.append_assoc _ _ _
  have hlen := beNat_ofNat_u32 h
  have htake : (encodeFramed bytes ++ rest).take 4 = (UInt32.ofNat bytes.length).toBeBytes := by
    rw [hframe, List.take_append_of_le_length (by simp), List.take_of_length_le (by simp)]
  have hdrop : (encodeFramed bytes ++ rest).drop 4 = bytes ++ rest := by
    rw [hframe, List.drop_append_of_le_length (by simp), List.drop_of_length_le (by simp),
      List.nil_append]
  rw [takeFramed, if_neg (by simp [encodeFramed]), htake, hlen, hdrop]
  simp

end Wedb
