import Wedb.Key.Family
import Wedb.Ordered.Saturating
import Wedb.Ordered.Distinct

/-!
# Hash metadata

The metadata of a hash counts its physical fields and those without an expiry,
and bounds the expiries of the others. A field is stored behind an eight-byte
expiry; its state is read against the clock. Each way a field can change has a
transition of the counters.
-/

namespace Wedb

inductive HashSubkeyEncodingMode
  | legacy
  | fieldExpiration
  deriving DecidableEq, Repr

def HashSubkeyEncodingMode.asU8 : HashSubkeyEncodingMode → UInt8
  | legacy => 0
  | fieldExpiration => 1

inductive HashFieldStateKind
  | missing
  | persistent
  | liveTTL
  | expiredTTLPhysical
  deriving DecidableEq, Repr

structure HashFieldState where
  kind : HashFieldStateKind
  expire : UInt64
  value : Bytes

structure HashMeta where
  base : KeyMeta
  mode : HashSubkeyEncodingMode
  persist : UInt64
  lower : UInt64
  upper : UInt64
  deriving DecidableEq, Repr

def fieldExpirePrefixLen : ℕ := 8

def encodeHashValue (val : Bytes) (expireAtMs : UInt64) : Bytes := expireAtMs.toBeBytes ++ val

def decodeHashValue (bytes : Bytes) : UInt64 × Bytes :=
  if bytes.length ≥ fieldExpirePrefixLen then (readU64 bytes 0, bytes.drop fieldExpirePrefixLen)
  else (0, bytes)

def isFieldExpired (expireAt nowMs : UInt64) : Bool :=
  decide (expireAt > 0) && decide (expireAt ≤ nowMs)

def isImmediateExpire (expireAt nowMs : UInt64) : Bool := decide (expireAt ≤ nowMs)

namespace HashMeta

def encodedSize : ℕ := KeyMeta.encodedSize + 1 + 8 + 8 + 8

def newWithVersion (expireAt size version : UInt64) : HashMeta where
  base := ⟨.hash, 0, expireAt, version, size⟩
  mode := .fieldExpiration
  persist := size
  lower := 0
  upper := 0

def isExpired (m : HashMeta) (nowMs : UInt64) : Bool := m.base.isExpired nowMs

def isLegacySubkeyEncoding (m : HashMeta) : Bool := m.mode == .legacy

def isFieldExpirationEncoding (m : HashMeta) : Bool := m.mode == .fieldExpiration

def encodeSubkeyValue (m : HashMeta) (value : Bytes) (expireAtMs : UInt64) : Bytes :=
  if m.isLegacySubkeyEncoding then value else encodeHashValue value expireAtMs

def decodeSubkeyValue (m : HashMeta) (raw : Bytes) : Option (UInt64 × Bytes) :=
  if m.isLegacySubkeyEncoding then some (0, raw)
  else if raw.length < fieldExpirePrefixLen then none
  else some (decodeHashValue raw)

def decodeLiveSubkeyValue (m : HashMeta) (raw : Bytes) (nowMs : UInt64) : Option (UInt64 × Bytes) :=
  (m.decodeSubkeyValue raw).filter fun x => !isFieldExpired x.1 nowMs

def clearBoundsIfNoTtlCandidates (m : HashMeta) : HashMeta :=
  if m.isFieldExpirationEncoding && m.base.size == m.persist then { m with lower := 0, upper := 0 }
  else m

def expandExpireBounds (m : HashMeta) (expireAt : UInt64) : HashMeta :=
  if !m.isFieldExpirationEncoding || expireAt == 0 then m
  else if m.base.size == m.persist then { m with lower := expireAt, upper := expireAt }
  else
    { m with
      lower := if m.lower == 0 || expireAt < m.lower then expireAt else m.lower
      upper := max m.upper expireAt }

def setSize (m : HashMeta) (size : UInt64) : HashMeta := { m with base := { m.base with size } }

def applyMissingToPersistent (m : HashMeta) : HashMeta :=
  let m := m.setSize (m.base.size.satAdd 1)
  if m.isFieldExpirationEncoding then
    { m with persist := m.persist.satAdd 1 }.clearBoundsIfNoTtlCandidates
  else m

def applyMissingToTtl (m : HashMeta) (expireAt : UInt64) : HashMeta :=
  let m := m.expandExpireBounds expireAt
  m.setSize (m.base.size.satAdd 1)

def applyPersistentToTtl (m : HashMeta) (expireAt : UInt64) : HashMeta :=
  let m := m.expandExpireBounds expireAt
  { m with persist := m.persist.satSub 1 }

def applyTtlToTtl (m : HashMeta) (expireAt : UInt64) : HashMeta := m.expandExpireBounds expireAt

def applyTtlToPersistent (m : HashMeta) : HashMeta :=
  { m with persist := min (m.persist.satAdd 1) m.base.size }.clearBoundsIfNoTtlCandidates

def applyPersistentToDeleted (m : HashMeta) : HashMeta :=
  let m := m.setSize (m.base.size.satSub 1)
  { m with persist := m.persist.satSub 1 }.clearBoundsIfNoTtlCandidates

def applyTtlToDeleted (m : HashMeta) : HashMeta :=
  let m := m.setSize (m.base.size.satSub 1)
  let m := if m.persist > m.base.size then { m with persist := m.base.size } else m
  m.clearBoundsIfNoTtlCandidates

def encode (m : HashMeta) : Bytes :=
  m.base.encode ++ if m.isLegacySubkeyEncoding then []
    else m.mode.asU8 :: (m.persist.toBeBytes ++ m.lower.toBeBytes ++ m.upper.toBeBytes)

def decode (bytes : Bytes) : Option HashMeta :=
  if bytes.length < KeyMeta.kvrocksComplexEncodedSize then none
  else do
    let base ← KeyMeta.decode bytes
    let baseLen :=
      if bytes.length ≥ KeyMeta.encodedSize ∧ bytes.headD 0 ≤ 14 then KeyMeta.encodedSize
      else KeyMeta.kvrocksComplexEncodedSize
    let remain := bytes.drop baseLen
    if remain.length < 1 + 8 + 8 + 8 then
      some ⟨base, .legacy, base.size, 0, 0⟩
    else
      let mode := if remain.headD 0 = 1 then .fieldExpiration else .legacy
      some ⟨base, mode, readU64 remain 1, readU64 remain 9, readU64 remain 17⟩

end HashMeta

def decodeFieldState (m : HashMeta) (rawValue : Bytes) (nowMs : UInt64) : Option HashFieldState :=
  (m.decodeSubkeyValue rawValue).map fun x =>
    ⟨if x.1 = 0 then .persistent
      else if isFieldExpired x.1 nowMs then .expiredTTLPhysical
      else .liveTTL, x.1, x.2⟩

instance : MetaOps HashMeta where
  tag := .hashMeta
  decode := HashMeta.decode
  base := HashMeta.base
  isExpired := HashMeta.isExpired
  encodeBytes := HashMeta.encode

/-! ## Reading back what is written -/

theorem readU64_toBeBytes_append (x : UInt64) (t : Bytes) : readU64 (x.toBeBytes ++ t) 0 = x := by
  simpa using KeyMeta.readU64_append (a := []) (b := t) x rfl

theorem decodeHashValue_encodeHashValue (val : Bytes) (expireAtMs : UInt64) :
    decodeHashValue (encodeHashValue val expireAtMs) = (expireAtMs, val) := by
  have hlen : (encodeHashValue val expireAtMs).length ≥ fieldExpirePrefixLen := by
    simp [encodeHashValue, fieldExpirePrefixLen]
  have hdrop : (encodeHashValue val expireAtMs).drop fieldExpirePrefixLen = val := by
    have h8 : expireAtMs.toBeBytes.length = fieldExpirePrefixLen := by simp [fieldExpirePrefixLen]
    rw [encodeHashValue, ← h8, List.drop_left]
  rw [decodeHashValue, if_pos hlen, hdrop, encodeHashValue, readU64_toBeBytes_append]

theorem HashMeta.decode_encode {m : HashMeta} (h : m.mode = .fieldExpiration) :
    decode m.encode = some m := by
  have hleg : m.isLegacySubkeyEncoding = false := by simp [isLegacySubkeyEncoding, h]
  set tail := m.mode.asU8 :: (m.persist.toBeBytes ++ m.lower.toBeBytes ++ m.upper.toBeBytes)
    with htail
  have henc : m.encode = m.base.encode ++ tail := by
    rw [encode, hleg, if_neg Bool.false_ne_true]
  have htlen : tail.length = 25 := by simp [htail]
  have hlen : m.encode.length = 51 := by
    rw [henc, List.length_append, KeyMeta.encode_length, htlen]
    rfl
  have hhead : m.encode.headD 0 = m.base.rtype.asU8 := rfl
  have hdrop : m.encode.drop KeyMeta.encodedSize = tail := by
    rw [henc, ← KeyMeta.encode_length m.base, List.drop_left]
  have hbase : KeyMeta.decode m.encode = some m.base := by
    rw [henc, KeyMeta.decode_encode_append]
  have hp : readU64 tail 1 = m.persist := by
    have h1 := KeyMeta.readU64_append (a := [m.mode.asU8])
      (b := m.lower.toBeBytes ++ m.upper.toBeBytes) m.persist (n := 1) rfl
    simpa [htail] using h1
  have hl : readU64 tail 9 = m.lower := by
    have h1 := KeyMeta.readU64_append (a := m.mode.asU8 :: m.persist.toBeBytes)
      (b := m.upper.toBeBytes) m.lower (n := 9) (by simp)
    simpa [htail] using h1
  have hu : readU64 tail 17 = m.upper := by
    have h1 := KeyMeta.readU64_append
      (a := m.mode.asU8 :: (m.persist.toBeBytes ++ m.lower.toBeBytes)) (b := [])
      m.upper (n := 17) (by simp)
    simpa [htail] using h1
  have hmode : tail.headD 0 = 1 := by simp [htail, h, HashSubkeyEncodingMode.asU8]
  have hstd : m.encode.length ≥ KeyMeta.encodedSize ∧ m.encode.headD 0 ≤ 14 :=
    ⟨by rw [hlen]; decide, by rw [hhead]; exact m.base.rtype.asU8_le⟩
  have hlong : ¬m.encode.length < KeyMeta.kvrocksComplexEncodedSize := by
    rw [hlen]
    decide
  have hremain : ¬tail.length < 1 + 8 + 8 + 8 := by
    rw [htlen]
    decide
  simp only [decode, if_neg hlong, hbase, Option.bind_eq_bind, Option.bind_some, if_pos hstd, hdrop,
    if_neg hremain, if_pos hmode, hp, hl, hu]
  rw [← h]

/-!
## Hash commands

Setting, deleting and counting fields, and integer increments. A write to a key
without live hash metadata starts a fresh hash and clears what fields are left.
Field states come from the committed store while writes are queued, so commands
with several fields first drop repeated ones.
-/

section

structure CachedFieldState where
  kind : HashFieldStateKind
  expire : UInt64
  raw : Option Bytes

def CachedFieldState.missing : CachedFieldState := ⟨.missing, 0, none⟩

def composeHashMetaKey (kc : KeyComposer) (key : Key) : Bytes :=
  kc.composeMetaKeyStack KeyTag.hashMeta.asSlice key.bytes

def composeHashPrefix (kc : KeyComposer) (key : Key) : Bytes :=
  kc.composePrefixStack KeyTag.hashData.asSlice key.bytes

def keyForField (kc : KeyComposer) (key : Key) (field : Bytes) : Bytes :=
  composeHashPrefix kc key ++ field

def errHashValueNotInteger : String := "ERR hash value is not an integer"
def errIncrementOverflow : String := "ERR increment or decrement would overflow"

def isAsciiWhitespace (b : UInt8) : Bool :=
  b == 0x20 || b == 0x09 || b == 0x0A || b == 0x0C || b == 0x0D

def parseHashInteger (parseI64Fast : Bytes → Option Int64) (v : Bytes) : Except Error Int64 :=
  if v.isEmpty || v.head?.any isAsciiWhitespace || v.getLast?.any isAsciiWhitespace then
    .error (.invalidData errHashValueNotInteger)
  else
    match parseI64Fast v with
    | some n => .ok n
    | none => .error (.invalidData errHashValueNotInteger)

def checkedAdd (a b : Int64) : Option Int64 :=
  let sum := a.toInt + b.toInt
  if -2 ^ 63 ≤ sum ∧ sum < 2 ^ 63 then some (Int64.ofInt sum) else none

def formatInt (n : Int64) : Bytes := (toString n.toInt).toUTF8.toList

/-- What a loop over fields carries: the counters, the queue and a count. -/
structure HashWork where
  hm : HashMeta
  ops : Batch
  count : ℕ

def applyFieldStateToMeta (hm : HashMeta) : HashFieldStateKind → HashMeta × Bool
  | .missing => (hm.applyMissingToPersistent, true)
  | .expiredTTLPhysical => (hm.applyTtlToPersistent, true)
  | .liveTTL => (hm.applyTtlToPersistent, false)
  | .persistent => (hm, false)

def commitHashMetaOrRm (metaK : Bytes) (hm : HashMeta) : Batch :=
  if hm.base.size = 0 then [.rmMeta metaK]
  else [.insertMeta metaK hm.clearBoundsIfNoTtlCandidates.encode]

inductive HashLengthMode
  | accurate
  | approximate
  deriving DecidableEq, Repr

section
variable (s : Store) (kc : KeyComposer) (key : Key) (nowMs : UInt64)

def loadFieldState (hm : HashMeta) (field : Bytes) : CachedFieldState :=
  match s.data.get (keyForField kc key field) with
  | some raw =>
    match decodeFieldState hm raw nowMs with
    | some state => ⟨state.kind, state.expire, some raw⟩
    | none => .missing
  | none => .missing

def getHashMeta : Except Error (Option HashMeta) :=
  getMetaChecked HashMeta s kc key (composeHashMetaKey kc key) nowMs

def prepareHashMetaForWrite (version : UInt64) : Except Error (HashMeta × Bool × Batch) := do
  match ← getHashMeta s kc key nowMs with
  | some hm => return (hm, true, [])
  | none => return (.newWithVersion 0 0 version, false,
      clearPrefixInBatch s .data (composeHashPrefix kc key))

def hsetOneInternal (version : UInt64) (field value : Bytes) : Except Error (ℕ × Batch) := do
  let (hm, metadataExisted, ops) ← prepareHashMetaForWrite s kc key nowMs version
  let (hm, inserted) :=
    if metadataExisted then applyFieldStateToMeta hm (loadFieldState s kc key nowMs hm field).kind
    else (hm.applyMissingToPersistent, true)
  return (if inserted then 1 else 0,
    ops ++ [.insertData (keyForField kc key field) (hm.encodeSubkeyValue value 0),
      .insertMeta (composeHashMetaKey kc key) hm.encode])

def hsetFreshField (w : HashWork) (fv : Bytes × Bytes) : HashWork where
  hm := w.hm.applyMissingToPersistent
  ops := w.ops ++ [.insertData (keyForField kc key fv.1) (w.hm.encodeSubkeyValue fv.2 0)]
  count := w.count + 1

def hsetField (w : HashWork) (fv : Bytes × Bytes) : HashWork :=
  let (hm, inserted) := applyFieldStateToMeta w.hm (loadFieldState s kc key nowMs w.hm fv.1).kind
  { hm
    ops := w.ops ++ [.insertData (keyForField kc key fv.1) (hm.encodeSubkeyValue fv.2 0)]
    count := if inserted then w.count + 1 else w.count }

def hset (version : UInt64) (fields : List (Bytes × Bytes)) : Except Error (ℕ × Batch) :=
  match fields with
  | [] => .ok (0, [])
  | [(field, value)] => hsetOneInternal s kc key nowMs version field value
  | fields => do
    let (hm, metadataExisted, ops) ← prepareHashMetaForWrite s kc key nowMs version
    if metadataExisted then
      let w := (keepLast fields).foldl (hsetField s kc key nowMs) ⟨hm, ops, 0⟩
      return (w.count, w.ops ++ commitHashMetaOrRm (composeHashMetaKey kc key) w.hm)
    else
      let w := (keepFirst fields []).foldl (hsetFreshField kc key) ⟨hm, ops, 0⟩
      return (w.count, w.ops ++ [.insertMeta (composeHashMetaKey kc key) w.hm.encode])

def hsetnx (version : UInt64) (field value : Bytes) : Except Error (Bool × Batch) := do
  let (hm, metadataExisted, ops) ← prepareHashMetaForWrite s kc key nowMs version
  let write (hm : HashMeta) : Except Error (Bool × Batch) :=
    .ok (true, ops ++ [.insertData (keyForField kc key field) (hm.encodeSubkeyValue value 0),
      .insertMeta (composeHashMetaKey kc key) hm.encode])
  if metadataExisted then
    match (loadFieldState s kc key nowMs hm field).kind with
    | .persistent | .liveTTL => return (false, [])
    | .expiredTTLPhysical => write hm.applyTtlToPersistent
    | .missing => write hm.applyMissingToPersistent
  else write hm.applyMissingToPersistent

/-- The value a counter is read as: its number, whether the field is missing,
whether it is expired, and the expiry it keeps. -/
def hincrbyCurrent (parseI64Fast : Bytes → Option Int64) (hm : HashMeta) (metadataExisted : Bool)
    (field : Bytes) : Except Error (Int64 × Bool × Bool × UInt64) :=
  if metadataExisted then
    match (s.data.get (keyForField kc key field)).bind hm.decodeSubkeyValue with
    | some (exp, payload) =>
      if isFieldExpired exp nowMs then .ok (0, false, true, 0)
      else (parseHashInteger parseI64Fast payload).map fun n => (n, false, false, exp)
    | none => .ok (0, true, false, 0)
  else .ok (0, true, false, 0)

def hincrby (parseI64Fast : Bytes → Option Int64) (version : UInt64) (field : Bytes)
    (step : Int64) : Except Error (Int64 × Batch) := do
  let (hm, metadataExisted, ops) ← prepareHashMetaForWrite s kc key nowMs version
  let (curVal, isMissing, isExpiredTtl, targetExpire) ←
    hincrbyCurrent s kc key nowMs parseI64Fast hm metadataExisted field
  match checkedAdd curVal step with
  | none => .error (.invalidData errIncrementOverflow)
  | some newVal =>
    let hm :=
      if isMissing then hm.applyMissingToPersistent
      else if isExpiredTtl then hm.applyTtlToPersistent
      else hm
    return (newVal,
      ops ++ [.insertData (keyForField kc key field)
          (hm.encodeSubkeyValue (formatInt newVal) targetExpire),
        .insertMeta (composeHashMetaKey kc key) hm.encode])

def hdelField (hm : HashMeta) (field : Bytes) : Option (HashMeta × Bool) :=
  match (s.data.get (keyForField kc key field)).bind hm.decodeSubkeyValue with
  | some (exp, _) =>
    some (if exp = 0 then hm.applyPersistentToDeleted else hm.applyTtlToDeleted,
      !isFieldExpired exp nowMs)
  | none => none

def hdelOneInternal (field : Bytes) : Except Error (ℕ × Batch) := do
  match ← getHashMeta s kc key nowMs with
  | none => return (0, [])
  | some hm =>
    if hm.base.size > 0 then
      match hdelField s kc key nowMs hm field with
      | some (hm, live) =>
        return (if live then 1 else 0, .rmWeakData (keyForField kc key field) ::
          commitHashMetaOrRm (composeHashMetaKey kc key) hm)
      | none => return (0, [])
    else return (0, [])

def hdelStep (w : HashWork) (field : Bytes) : HashWork :=
  match hdelField s kc key nowMs w.hm field with
  | some (hm, live) =>
    { hm
      ops := w.ops ++ [.rmWeakData (keyForField kc key field)]
      count := if live then w.count + 1 else w.count }
  | none => w

def hdel (fields : List Bytes) : Except Error (ℕ × Batch) :=
  match fields with
  | [] => .ok (0, [])
  | [field] => hdelOneInternal s kc key nowMs field
  | fields => do
    match ← getHashMeta s kc key nowMs with
    | none => return (0, [])
    | some hm =>
      if hm.base.size > 0 then
        let names := (keepFirst (fields.map fun f => (f, ())) []).map Prod.fst
        let w := names.foldl (hdelStep s kc key nowMs) ⟨hm, [], 0⟩
        if w.ops.isEmpty then return (w.count, [])
        else return (w.count, w.ops ++ commitHashMetaOrRm (composeHashMetaKey kc key) w.hm)
      else return (0, [])

def repairEntry (hm : HashMeta) (w : HashWork) (x : Bytes × Bytes) : HashWork :=
  match decodeFieldState hm x.2 nowMs with
  | some state =>
    match state.kind with
    | .expiredTTLPhysical => { w with ops := w.ops ++ [.rmData x.1] }
    | .persistent =>
      { w with
        hm := { w.hm.setSize (w.hm.base.size + 1) with persist := w.hm.persist + 1 }
        count := w.count + 1 }
    | .liveTTL =>
      { w with
        hm := { w.hm.setSize (w.hm.base.size + 1) with
          lower := if w.hm.lower == 0 || state.expire < w.hm.lower then state.expire else w.hm.lower
          upper := max w.hm.upper state.expire }
        count := w.count + 1 }
    | .missing => w
  | none => w

def scanAndRepairHash (hm : HashMeta) : Except Error (ℕ × Batch) :=
  let repaired := { hm.setSize 0 with persist := 0, lower := 0, upper := 0 }
  let w := (SortedMap.prefixed (composeHashPrefix kc key) s.data).foldl (repairEntry nowMs hm)
    ⟨repaired, [], 0⟩
  .ok (w.hm.base.size.toNat, w.ops ++ commitHashMetaOrRm (composeHashMetaKey kc key) w.hm)

def hlenWithMode (mode : HashLengthMode) : Except Error (ℕ × Batch) := do
  match ← getHashMeta s kc key nowMs with
  | none => return (0, [])
  | some hm =>
    if hm.isLegacySubkeyEncoding || mode == .approximate then return (hm.base.size.toNat, [])
    else if hm.persist > hm.base.size then scanAndRepairHash s kc key nowMs hm
    else if hm.base.size.satSub hm.persist == 0 then return (hm.base.size.toNat, [])
    else if hm.lower != 0 && decide (nowMs < hm.lower) then return (hm.base.size.toNat, [])
    else if hm.upper != 0 && decide (nowMs > hm.upper) && hm.persist == 0 then
      return (0, [.rmMeta (composeHashMetaKey kc key)])
    else scanAndRepairHash s kc key nowMs hm

end

end

end Wedb
