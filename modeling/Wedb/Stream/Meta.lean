import Wedb.Key.Family
import Wedb.Ordered.Log

/-!
# Stream ids and metadata

An id is a millisecond part and a sequence, ordered by the first and then the
second, and written as sixteen bytes in that order. The next id of a stream is
generated from its last one. Increments carry from the sequence into the
milliseconds and stop at the greatest id named.
-/

namespace Wedb

def errLastEntryIdReached : String := "last possible entry id reached"
def errAddEntryIdSmaller : String :=
  "The ID specified in XADD is equal or smaller than the target stream top item"
def errSeqOverflow : String := "Elements are too large to be stored"
def errEntryIdOutOfRange : String := "The ID specified in XADD must be greater than 0-0"
def errStreamExhaustedId : String :=
  "The stream has exhausted the last possible ID, unable to add more items"

@[ext] structure StreamId where
  ms : UInt64
  seq : UInt64
  deriving Repr

namespace StreamId

def toPair (id : StreamId) : UInt64 ×ₗ UInt64 := toLex (id.ms, id.seq)

theorem toPair_injective : Function.Injective toPair := fun a b h => by
  have hpair := Prod.ext_iff.mp (toLex_inj.mp h)
  exact StreamId.ext hpair.1 hpair.2

instance linearOrder : LinearOrder StreamId := .lift' toPair toPair_injective

instance lawfulBEq : LawfulBEq StreamId := inferInstance

def min : StreamId := ⟨0, 0⟩

/-- The greatest id named; its milliseconds are one below the greatest word. -/
def max : StreamId := ⟨0xFFFFFFFFFFFFFFFE, 0xFFFFFFFFFFFFFFFF⟩

def isMin (id : StreamId) : Bool := id.ms == 0 && id.seq == 0

def isMax (id : StreamId) : Bool := id.ms == 0xFFFFFFFFFFFFFFFE && id.seq == 0xFFFFFFFFFFFFFFFF

/-- The words wrap around in a build without overflow checks. -/
def increment (id : StreamId) : Except Error StreamId :=
  if id.seq = 0xFFFFFFFFFFFFFFFF then
    if id.ms = 0xFFFFFFFFFFFFFFFE then .error (.invalidData errLastEntryIdReached)
    else .ok ⟨id.ms + 1, 0⟩
  else .ok ⟨id.ms, id.seq + 1⟩

def val (id : StreamId) : ℕ := id.ms.toNat * 2 ^ 64 + id.seq.toNat

theorem lt_iff_parts {a b : StreamId} : a < b ↔ a.ms < b.ms ∨ a.ms = b.ms ∧ a.seq < b.seq := by
  have hlift : a < b ↔ toPair a < toPair b := Iff.rfl
  rw [hlift, toPair, toPair, Prod.Lex.toLex_lt_toLex]

theorem lt_iff_val {a b : StreamId} : a < b ↔ a.val < b.val := by
  have ha := a.seq.toNat_lt
  have hb := b.seq.toNat_lt
  rw [lt_iff_parts, UInt64.lt_iff_toNat_lt, UInt64.lt_iff_toNat_lt, ← UInt64.toNat_inj, val, val]
  omega

theorem le_iff_val {a b : StreamId} : a ≤ b ↔ a.val ≤ b.val := by
  rw [← not_lt, lt_iff_val, not_lt]

theorem min_le (id : StreamId) : min ≤ id := le_iff_val.mpr (Nat.zero_le _)

theorem le_max_iff {id : StreamId} : id ≤ max ↔ id.ms ≠ 0xFFFFFFFFFFFFFFFF := by
  have hms := id.ms.toNat_lt
  have hseq := id.seq.toNat_lt
  rw [le_iff_val, Ne, ← UInt64.toNat_inj, val, val]
  change _ ≤ 18446744073709551614 * 2 ^ 64 + 18446744073709551615 ↔ ¬_ = 18446744073709551615
  omega

end StreamId

def encodeId (id : StreamId) : Bytes := id.ms.toBeBytes ++ id.seq.toBeBytes

def decodeId (buf : Bytes) : StreamId :=
  if buf.length ≥ 16 then ⟨readU64 buf 0, readU64 buf 8⟩ else .min

@[simp] theorem encodeId_length (id : StreamId) : (encodeId id).length = 16 := by
  simp [encodeId]

theorem encodeId_strictMono : StrictMono encodeId := by
  intro a b h
  rcases StreamId.lt_iff_parts.mp h with hms | ⟨hms, hseq⟩
  · refine Bytes.append_lt_append_of_lt (UInt64.toBeBytes_lt_iff.mpr hms) (fun hp => ?_) _ _
    have heq := hp.eq_of_length (by simp)
    exact hms.ne (UInt64.toBeBytes_injective heq)
  · rw [encodeId, encodeId, hms]
    exact Bytes.append_lt_append_iff.mpr (UInt64.toBeBytes_lt_iff.mpr hseq)

theorem readU64_append_left {a b : Bytes} (h : a.length = 8) :
    readU64 (a ++ b) 0 = UInt64.fromBeBytes a := by
  rw [readU64, slice, List.drop_zero, List.take_append_of_le_length h.ge,
    List.take_of_length_le h.le]

theorem decodeId_encodeId_append (id : StreamId) (t : Bytes) : decodeId (encodeId id ++ t) = id := by
  have hseq : readU64 (encodeId id ++ t) 8 = id.seq := by
    rw [encodeId, List.append_assoc]
    exact KeyMeta.readU64_append id.seq (by simp)
  have hms : readU64 (encodeId id ++ t) 0 = id.ms := by
    rw [encodeId, List.append_assoc, readU64_append_left (by simp), UInt64.fromBeBytes_toBeBytes]
  have hlen : (encodeId id ++ t).length ≥ 16 := by simp
  rw [decodeId, if_pos hlen, hseq, hms]

/-! ## The next id -/

inductive NextStreamEntryIdStrategy
  | auto
  | currentTimestampSpecificSeq (seq : UInt64)
  | specificTimestampAnySeq (ms : UInt64)
  | fullySpecified (id : StreamId)
  deriving DecidableEq, Repr

def NextStreamEntryIdStrategy.generateId (lastId : StreamId) (nowMs : UInt64) :
    NextStreamEntryIdStrategy → Except Error StreamId
  | .auto => if nowMs > lastId.ms then .ok ⟨nowMs, 0⟩ else lastId.increment
  | .currentTimestampSpecificSeq seq =>
    let next : StreamId := ⟨nowMs, seq⟩
    if next ≤ lastId then .error (.invalidData errAddEntryIdSmaller) else .ok next
  | .specificTimestampAnySeq ms =>
    if ms < lastId.ms then .error (.invalidData errAddEntryIdSmaller)
    else if ms = lastId.ms then
      if lastId.seq = 0xFFFFFFFFFFFFFFFF then .error (.invalidData errSeqOverflow)
      else .ok ⟨ms, lastId.seq + 1⟩
    else .ok ⟨ms, 0⟩
  | .fullySpecified id =>
    if lastId.ms = 0xFFFFFFFFFFFFFFFE ∧ lastId.seq = 0xFFFFFFFFFFFFFFFF then
      .error (.invalidData errStreamExhaustedId)
    else if id.ms = 0 ∧ id.seq = 0 then .error (.invalidData errEntryIdOutOfRange)
    else if id ≤ lastId then .error (.invalidData errAddEntryIdSmaller)
    else .ok id

/-- The milliseconds a strategy or the clock may give stay below the greatest word. -/
def NextStreamEntryIdStrategy.Within (nowMs : UInt64) : NextStreamEntryIdStrategy → Prop
  | .auto | .currentTimestampSpecificSeq _ => nowMs ≠ 0xFFFFFFFFFFFFFFFF
  | .specificTimestampAnySeq ms => ms ≠ 0xFFFFFFFFFFFFFFFF
  | .fullySpecified id => id.ms ≠ 0xFFFFFFFFFFFFFFFF

section
variable {lastId id : StreamId} {now : UInt64} {strategy : NextStreamEntryIdStrategy}

theorem toNat_succ {x : UInt64} (h : x ≠ 0xFFFFFFFFFFFFFFFF) : (x + 1).toNat = x.toNat + 1 := by
  have hlt := x.toNat_lt
  have hne : x.toNat ≠ 18446744073709551615 := fun h' => h (UInt64.toNat_inj.mp h')
  rw [UInt64.toNat_add, UInt64.toNat_one]
  omega

theorem StreamId.increment_spec (hlast : lastId ≤ .max) (h : lastId.increment = .ok id) :
    id ≤ .max ∧ lastId < id := by
  rw [le_max_iff] at hlast
  rw [increment] at h
  split_ifs at h with hseq hms
  · cases h
    have hnext := toNat_succ hlast
    rw [le_max_iff, lt_iff_parts, UInt64.lt_iff_toNat_lt, hnext]
    refine ⟨fun heq => hms ?_, Or.inl (Nat.lt_succ_self _)⟩
    have hval := congrArg UInt64.toNat heq
    rw [hnext] at hval
    exact UInt64.toNat_inj.mp (Nat.succ.inj hval)
  · cases h
    rw [le_max_iff, lt_iff_parts, UInt64.lt_iff_toNat_lt, UInt64.lt_iff_toNat_lt, toNat_succ hseq]
    exact ⟨hlast, Or.inr ⟨rfl, Nat.lt_succ_self _⟩⟩

theorem NextStreamEntryIdStrategy.generateId_spec (hlast : lastId ≤ .max)
    (hwithin : strategy.Within now) (h : strategy.generateId lastId now = .ok id) :
    id ≤ .max ∧ lastId < id := by
  cases strategy with
  | auto =>
    rw [generateId] at h
    split_ifs at h with hnow
    · cases h
      exact ⟨StreamId.le_max_iff.mpr hwithin, StreamId.lt_iff_parts.mpr (Or.inl hnow)⟩
    · exact StreamId.increment_spec hlast h
  | currentTimestampSpecificSeq seq =>
    simp only [generateId] at h
    split_ifs at h with hle
    cases h
    exact ⟨StreamId.le_max_iff.mpr hwithin, not_le.mp hle⟩
  | specificTimestampAnySeq ms =>
    rw [generateId] at h
    split_ifs at h with hlt heq hseq
    · cases h
      refine ⟨StreamId.le_max_iff.mpr hwithin, StreamId.lt_iff_parts.mpr (Or.inr ⟨heq.symm, ?_⟩)⟩
      rw [UInt64.lt_iff_toNat_lt, toNat_succ hseq]
      exact Nat.lt_succ_self _
    · cases h
      exact ⟨StreamId.le_max_iff.mpr hwithin,
        StreamId.lt_iff_parts.mpr (Or.inl (lt_of_le_of_ne (not_lt.mp hlt) (Ne.symm heq)))⟩
  | fullySpecified id' =>
    rw [generateId] at h
    split_ifs at h with hmax hmin hle
    cases h
    exact ⟨StreamId.le_max_iff.mpr hwithin, not_le.mp hle⟩

end

/-! ## Metadata -/

structure StreamMeta where
  base : KeyMeta
  lastGeneratedId : StreamId
  recordedFirstEntryId : StreamId
  maxDeletedEntryId : StreamId
  firstEntryId : StreamId
  lastEntryId : StreamId
  entriesAdded : UInt64
  groupNumber : UInt64
  deriving DecidableEq, Repr

namespace StreamMeta

def encodedSize : ℕ := KeyMeta.encodedSize + 16 * 5 + 8 + 8

/-- The metadata of a fresh stream; `version` is the next generated version. -/
def new (expireAt version : UInt64) : StreamMeta where
  base := ⟨.stream, 0, expireAt, version, 0⟩
  lastGeneratedId := .min
  recordedFirstEntryId := .min
  maxDeletedEntryId := .min
  firstEntryId := .min
  lastEntryId := .min
  entriesAdded := 0
  groupNumber := 0

def isExpired (m : StreamMeta) (nowMs : UInt64) : Bool := m.base.isExpired nowMs

def setSize (m : StreamMeta) (size : UInt64) : StreamMeta := { m with base := { m.base with size } }

def encode (m : StreamMeta) : Bytes :=
  m.base.encode ++ (encodeId m.lastGeneratedId ++ (encodeId m.recordedFirstEntryId ++
    (encodeId m.maxDeletedEntryId ++ (encodeId m.firstEntryId ++ (encodeId m.lastEntryId ++
      (m.entriesAdded.toBeBytes ++ (m.groupNumber.toBeBytes ++ [])))))))

def decode (bytes : Bytes) : Option StreamMeta :=
  if bytes.length < KeyMeta.encodedSize then none
  else
    match KeyMeta.decode bytes with
    | none => none
    | some base =>
      if base.rtype ≠ .stream then none
      else if bytes.length < encodedSize then
        some ⟨base, .min, .min, .min, .min, .min, base.size, 0⟩
      else
        some {
          base
          lastGeneratedId := decodeId (slice bytes 26 16)
          recordedFirstEntryId := decodeId (slice bytes 42 16)
          maxDeletedEntryId := decodeId (slice bytes 58 16)
          firstEntryId := decodeId (slice bytes 74 16)
          lastEntryId := decodeId (slice bytes 90 16)
          entriesAdded := readU64 bytes 106
          groupNumber := readU64 bytes 114 }

theorem decodeId_slice {a b : Bytes} {n : ℕ} (id : StreamId) (h : a.length = n) :
    decodeId (slice (a ++ (encodeId id ++ b)) n 16) = id := by
  have hdec := decodeId_encodeId_append id []
  rw [List.append_nil] at hdec
  rw [KeyMeta.slice_append_right h, List.take_append_of_le_length (by simp),
    List.take_of_length_le (by simp), hdec]

theorem decode_encode {m : StreamMeta} (h : m.base.rtype = .stream) : decode m.encode = some m := by
  have h26 : m.base.encode.length = 26 := m.base.encode_length
  have hlen : m.encode.length = encodedSize := by
    simp [encode, encodedSize, KeyMeta.encodedSize]
  have hbase : KeyMeta.decode m.encode = some m.base := KeyMeta.decode_encode_append _ _
  have hgen : decodeId (slice m.encode 26 16) = m.lastGeneratedId := decodeId_slice _ h26
  have hrec : decodeId (slice m.encode 42 16) = m.recordedFirstEntryId := by
    have hs := decodeId_slice (a := m.base.encode ++ encodeId m.lastGeneratedId)
      (b := encodeId m.maxDeletedEntryId ++ (encodeId m.firstEntryId ++ (encodeId m.lastEntryId ++
        (m.entriesAdded.toBeBytes ++ (m.groupNumber.toBeBytes ++ []))))) m.recordedFirstEntryId
      (n := 42) (by simp [h26])
    simpa only [encode, List.append_assoc] using hs
  have hdel : decodeId (slice m.encode 58 16) = m.maxDeletedEntryId := by
    have hs := decodeId_slice (a := m.base.encode ++ (encodeId m.lastGeneratedId ++
        encodeId m.recordedFirstEntryId))
      (b := encodeId m.firstEntryId ++ (encodeId m.lastEntryId ++
        (m.entriesAdded.toBeBytes ++ (m.groupNumber.toBeBytes ++ [])))) m.maxDeletedEntryId
      (n := 58) (by simp [h26])
    simpa only [encode, List.append_assoc] using hs
  have hfirst : decodeId (slice m.encode 74 16) = m.firstEntryId := by
    have hs := decodeId_slice (a := m.base.encode ++ (encodeId m.lastGeneratedId ++
        (encodeId m.recordedFirstEntryId ++ encodeId m.maxDeletedEntryId)))
      (b := encodeId m.lastEntryId ++ (m.entriesAdded.toBeBytes ++
        (m.groupNumber.toBeBytes ++ []))) m.firstEntryId (n := 74) (by simp [h26])
    simpa only [encode, List.append_assoc] using hs
  have hlast : decodeId (slice m.encode 90 16) = m.lastEntryId := by
    have hs := decodeId_slice (a := m.base.encode ++ (encodeId m.lastGeneratedId ++
        (encodeId m.recordedFirstEntryId ++ (encodeId m.maxDeletedEntryId ++
          encodeId m.firstEntryId))))
      (b := m.entriesAdded.toBeBytes ++ (m.groupNumber.toBeBytes ++ [])) m.lastEntryId
      (n := 90) (by simp [h26])
    simpa only [encode, List.append_assoc] using hs
  have hadded : readU64 m.encode 106 = m.entriesAdded := by
    have hs := KeyMeta.readU64_append (a := m.base.encode ++ (encodeId m.lastGeneratedId ++
        (encodeId m.recordedFirstEntryId ++ (encodeId m.maxDeletedEntryId ++
          (encodeId m.firstEntryId ++ encodeId m.lastEntryId)))))
      (b := m.groupNumber.toBeBytes ++ []) m.entriesAdded (n := 106) (by simp [h26])
    simpa only [encode, List.append_assoc] using hs
  have hgroups : readU64 m.encode 114 = m.groupNumber := by
    have hs := KeyMeta.readU64_append (a := m.base.encode ++ (encodeId m.lastGeneratedId ++
        (encodeId m.recordedFirstEntryId ++ (encodeId m.maxDeletedEntryId ++
          (encodeId m.firstEntryId ++ (encodeId m.lastEntryId ++ m.entriesAdded.toBeBytes))))))
      (b := []) m.groupNumber (n := 114) (by simp [h26])
    simpa only [encode, List.append_assoc] using hs
  have hmin : ¬m.encode.length < KeyMeta.encodedSize := by
    rw [hlen]
    decide
  rw [decode, if_neg hmin, hbase]
  simp only [h, ne_eq, not_true_eq_false, if_false, hlen, lt_irrefl, hgen, hrec, hdel, hfirst, hlast,
    hadded, hgroups]

end StreamMeta

instance streamMetaOps : MetaOps StreamMeta where
  tag := .streamMeta
  decode := StreamMeta.decode
  base := StreamMeta.base
  isExpired := StreamMeta.isExpired
  encodeBytes := StreamMeta.encode

end Wedb
