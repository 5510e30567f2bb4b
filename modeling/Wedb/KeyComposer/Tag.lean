import Wedb.Ordered.ByteString

/-!
# Key tags

One byte tells the record families of a key apart: a string, the metadata of a
composite type, or one of its subkey families. A second set of tags follows the
byte `0xFF` of the system keys.
-/

namespace Wedb

inductive KeyTag
  | rawString
  | hashMeta
  | hashData
  | listMeta
  | listData
  | setMeta
  | setData
  | zSetMeta
  | zSetScore
  | zSetData
  | bloomMeta
  | bloomData
  | cuckooMeta
  | cuckooData
  | bitmapMeta
  | bitmapData
  | hllMeta
  | hllRaw
  | jsonMeta
  | jsonData
  | sortedIntMeta
  | sortedIntData
  | streamMeta
  | streamData
  | streamGroup
  | streamConsumer
  | streamPel
  | tDigestMeta
  | tDigestData
  | timeSeriesMeta
  | timeSeriesData
  | ftSchema
  | ftAlias
  | ftIndex
  | ftData
  deriving DecidableEq, Repr

namespace KeyTag

def all : List KeyTag :=
  [rawString, hashMeta, hashData, listMeta, listData, setMeta, setData, zSetMeta, zSetScore,
    zSetData, bloomMeta, bloomData, cuckooMeta, cuckooData, bitmapMeta, bitmapData, hllMeta, hllRaw,
    jsonMeta, jsonData, sortedIntMeta, sortedIntData, streamMeta, streamData, streamGroup,
    streamConsumer, streamPel, tDigestMeta, tDigestData, timeSeriesMeta, timeSeriesData, ftSchema,
    ftAlias, ftIndex, ftData]

def asU8 : KeyTag → UInt8
  | rawString => 0x00
  | hashMeta => 0x01
  | hashData => 0x02
  | listMeta => 0x03
  | listData => 0x04
  | setMeta => 0x05
  | setData => 0x06
  | zSetMeta => 0x07
  | zSetScore => 0x08
  | zSetData => 0x09
  | bloomMeta => 0x0A
  | bloomData => 0x0B
  | cuckooMeta => 0x0C
  | cuckooData => 0x0D
  | bitmapMeta => 0x0E
  | bitmapData => 0x0F
  | hllMeta => 0x10
  | hllRaw => 0x11
  | jsonMeta => 0x12
  | jsonData => 0x13
  | sortedIntMeta => 0x14
  | sortedIntData => 0x15
  | streamMeta => 0x16
  | streamData => 0x17
  | streamGroup => 0x18
  | streamConsumer => 0x19
  | streamPel => 0x1A
  | tDigestMeta => 0x1B
  | tDigestData => 0x1C
  | timeSeriesMeta => 0x1D
  | timeSeriesData => 0x1E
  | ftSchema => 0x1F
  | ftAlias => 0x20
  | ftIndex => 0x21
  | ftData => 0x22

def asSlice (t : KeyTag) : Bytes := [t.asU8]

def fromU8 (b : UInt8) : Option KeyTag := all.find? fun t => t.asU8 == b

def isMeta : KeyTag → Bool
  | hashMeta | listMeta | setMeta | zSetMeta | bloomMeta | cuckooMeta | bitmapMeta | hllMeta
  | jsonMeta | sortedIntMeta | streamMeta | tDigestMeta | timeSeriesMeta | ftSchema | ftAlias => true
  | _ => false

def isData : KeyTag → Bool
  | hashData | listData | setData | zSetScore | zSetData | bloomData | cuckooData | bitmapData
  | hllRaw | jsonData | sortedIntData | streamData | streamGroup | streamConsumer | streamPel
  | tDigestData | timeSeriesData | ftIndex | ftData => true
  | _ => false

def typeName : KeyTag → String
  | rawString => "string"
  | hashMeta | hashData => "hash"
  | listMeta | listData => "list"
  | setMeta | setData => "set"
  | zSetMeta | zSetScore | zSetData => "zset"
  | bloomMeta | bloomData => "MBbloom--"
  | cuckooMeta | cuckooData => "MBbloomCF"
  | bitmapMeta | bitmapData => "bitmap"
  | hllMeta | hllRaw => "hyperloglog"
  | jsonMeta | jsonData => "ReJSON-RL"
  | sortedIntMeta | sortedIntData => "sortedint"
  | streamMeta | streamData | streamGroup | streamConsumer | streamPel => "stream"
  | tDigestMeta | tDigestData => "TDIS-TYPE"
  | timeSeriesMeta | timeSeriesData => "timeseries"
  | ftSchema | ftAlias | ftIndex | ftData => "ft"

theorem mem_all (t : KeyTag) : t ∈ all := by cases t <;> decide

theorem asU8_injective : Function.Injective asU8 := by
  have h : ∀ a ∈ all, ∀ b ∈ all, a.asU8 = b.asU8 → a = b := by decide
  exact fun a b => h a (mem_all a) b (mem_all b)

@[simp] theorem asU8_inj {a b : KeyTag} : a.asU8 = b.asU8 ↔ a = b := asU8_injective.eq_iff

@[simp] theorem asSlice_length (t : KeyTag) : t.asSlice.length = 1 := rfl

theorem asSlice_injective : Function.Injective asSlice := fun a b h => by
  simpa [asSlice] using h

theorem asSlice_delimited : Delimited asSlice :=
  Delimited.of_length asSlice_injective (by simp)

theorem fromU8_eq_some {b : UInt8} {t : KeyTag} : fromU8 b = some t ↔ t.asU8 = b := by
  constructor
  · intro h
    simpa using List.find?_some h
  · rintro rfl
    have hmem : ∀ a ∈ all, fromU8 a.asU8 = some a := by decide
    exact hmem t (mem_all t)

@[simp] theorem fromU8_asU8 (t : KeyTag) : fromU8 t.asU8 = some t := fromU8_eq_some.mpr rfl

end KeyTag

def allCompositeMetaTags : List KeyTag :=
  [.hashMeta, .listMeta, .setMeta, .zSetMeta, .bloomMeta, .cuckooMeta, .bitmapMeta, .hllMeta,
    .jsonMeta, .sortedIntMeta, .streamMeta, .tDigestMeta, .timeSeriesMeta]

inductive SystemDomainTag
  | sysMeta
  | catalog
  | ttlIndex
  | raftState
  | cluster
  deriving DecidableEq, Repr

def SystemDomainTag.asU8 : SystemDomainTag → UInt8
  | sysMeta => 0x01
  | catalog => 0x02
  | ttlIndex => 0x03
  | raftState => 0x04
  | cluster => 0x05

inductive SysMetaTag
  | nsName
  | nsId
  | nsNextId
  | nsToken
  | dbNextId
  deriving DecidableEq, Repr

def SysMetaTag.asU8 : SysMetaTag → UInt8
  | nsName => 0x01
  | nsId => 0x02
  | nsNextId => 0x03
  | nsToken => 0x04
  | dbNextId => 0x05

end Wedb
