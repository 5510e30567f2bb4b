import Wedb.Key.Family
import Wedb.Ordered.Saturating

/-!
# Metadata without further fields

Some composite types keep nothing but the header. Their metadata is the header of
their type, and a header of another type does not decode.
-/

namespace Wedb

structure SimpleMeta (rtype : RedisType) (tag : KeyTag) where
  base : KeyMeta
  deriving DecidableEq, Repr

namespace SimpleMeta
variable {rtype : RedisType} {tag : KeyTag}

def new (expireAt version size : UInt64) : SimpleMeta rtype tag := ⟨⟨rtype, 0, expireAt, version, size⟩⟩

def newWithVersion (version expireAt size : UInt64) : SimpleMeta rtype tag :=
  .new expireAt version size

def size (m : SimpleMeta rtype tag) : UInt64 := m.base.size

def isEmpty (m : SimpleMeta rtype tag) : Bool := m.base.size == 0

def isExpired (m : SimpleMeta rtype tag) (nowMs : UInt64) : Bool := m.base.isExpired nowMs

def setSize (m : SimpleMeta rtype tag) (size : UInt64) : SimpleMeta rtype tag :=
  ⟨{ m.base with size }⟩

def encode (m : SimpleMeta rtype tag) : Bytes := m.base.encode

def decode (bytes : Bytes) : Option (SimpleMeta rtype tag) :=
  match KeyMeta.decode bytes with
  | some base => if base.rtype = rtype then some ⟨base⟩ else none
  | none => none

instance simpleMetaOps (rtype : RedisType) (tag : KeyTag) : MetaOps (SimpleMeta rtype tag) where
  tag := tag
  decode := decode
  base := base
  isExpired := isExpired
  encodeBytes := encode

theorem decode_encode {m : SimpleMeta rtype tag} (h : m.base.rtype = rtype) :
    decode m.encode = some m := by
  rw [decode, encode, KeyMeta.decode_encode]
  exact if_pos h

@[simp] theorem setSize_base (m : SimpleMeta rtype tag) (size : UInt64) :
    (m.setSize size).base = { m.base with size } := rfl

theorem isExpired_eq_false {m : SimpleMeta rtype tag} {now : UInt64} (hsize : m.base.size ≠ 0)
    (hexp : m.base.expireAt = 0 ∨ now < m.base.expireAt) : m.isExpired now = false := by
  rw [isExpired, KeyMeta.isExpired, if_neg (by simp [hsize])]
  rcases hexp with h0 | hlt
  · simp [h0]
  · simp [hlt]

theorem isExpired_eq_true {m : SimpleMeta rtype tag} {now : UInt64} (hne : m.base.expireAt ≠ 0)
    (hle : m.base.expireAt ≤ now) : m.isExpired now = true := by
  have hpos : m.base.expireAt > 0 := UInt64.pos_iff_ne_zero.mpr hne
  rw [isExpired, KeyMeta.isExpired]
  split_ifs
  · rfl
  · simp [hpos, hle]

end SimpleMeta

end Wedb
