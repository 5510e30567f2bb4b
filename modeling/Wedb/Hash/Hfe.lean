import Wedb.Hash.Impl

/-!
# Field expiry

Setting, clearing and reading field expiries. A command with several fields
walks them once, keeps the state of each in a cache that follows what it queued,
and commits when a field changed. What it does to one field is a handler: the
reply and, for a change, the new counters, the queued writes and the state.
-/

namespace Wedb

inductive HExpire
  | none
  | nx
  | xx
  | gt
  | lt
  deriving DecidableEq, Repr

inductive HashFieldSetCondition
  | none
  | fnx
  | fxx
  deriving DecidableEq, Repr

inductive TTLAction
  | discard
  | keep
  | set
  | persist
  deriving DecidableEq, Repr

structure HashSetEx where
  condition : HashFieldSetCondition
  ttlAction : TTLAction
  expireAtMs : UInt64

structure HashGetEx where
  ttlAction : TTLAction
  expireAtMs : UInt64

inductive HSet
  | ex (sec : UInt64)
  | px (ms : UInt64)
  | exAt (sec : UInt64)
  | pxAt (ms : UInt64)
  | keepTtl
  | fnx
  | fxx

inductive HGetEx
  | ex (sec : UInt64)
  | px (ms : UInt64)
  | exAt (sec : UInt64)
  | pxAt (ms : UInt64)
  | persist

def HashSetEx.fromOptions (options : List HSet) (nowMs : UInt64) : HashSetEx :=
  options.foldl (fun opts flag =>
    match flag with
    | .ex sec => { opts with ttlAction := .set, expireAtMs := nowMs.satAdd (sec.satMul 1000) }
    | .px ms => { opts with ttlAction := .set, expireAtMs := nowMs.satAdd ms }
    | .exAt sec => { opts with ttlAction := .set, expireAtMs := sec.satMul 1000 }
    | .pxAt ms => { opts with ttlAction := .set, expireAtMs := ms }
    | .keepTtl => { opts with ttlAction := .keep }
    | .fnx => { opts with condition := .fnx }
    | .fxx => { opts with condition := .fxx }) ⟨.none, .discard, 0⟩

def HashGetEx.fromOptions (options : List HGetEx) (nowMs : UInt64) : HashGetEx :=
  match options.head? with
  | some (.ex sec) => ⟨.set, nowMs.satAdd (sec.satMul 1000)⟩
  | some (.px ms) => ⟨.set, nowMs.satAdd ms⟩
  | some (.exAt sec) => ⟨.set, sec.satMul 1000⟩
  | some (.pxAt ms) => ⟨.set, ms⟩
  | some .persist => ⟨.persist, 0⟩
  | none => ⟨.discard, 0⟩

def hashFieldNotFound : ℤ := -2
def hashFieldPersistent : ℤ := -1
def hashExpireCondFailed : ℤ := 0
def hashExpireSetOk : ℤ := 1
def hashExpireDeleted : ℤ := 2

def errHashFieldExpirationLegacyEncoding : String :=
  "ERR hash field expiration is not supported by legacy hash encoding"

def hexpireConditionPasses (condition : HExpire) (kind : HashFieldStateKind)
    (currentExpireAt targetExpireAt : UInt64) : Bool :=
  match kind with
  | .missing | .expiredTTLPhysical => false
  | .persistent =>
    match condition with
    | .none | .nx | .lt => true
    | .xx | .gt => false
  | .liveTTL =>
    match condition with
    | .none | .xx => true
    | .nx => false
    | .gt => decide (targetExpireAt > currentExpireAt)
    | .lt => decide (targetExpireAt < currentExpireAt)

def extractSubkeyPayload (hm : HashMeta) (raw : Option Bytes) : Bytes :=
  ((raw.bind hm.decodeSubkeyValue).map Prod.snd).getD []

def removeFieldMeta (hm : HashMeta) (entryKind : HashFieldStateKind) : HashMeta :=
  if entryKind = .persistent then hm.applyPersistentToDeleted else hm.applyTtlToDeleted

/-- A change of one field: the counters, the queued writes and its state after. -/
structure FieldChange where
  hm : HashMeta
  ops : Batch
  entry : CachedFieldState

def removeFieldInBatch (hm : HashMeta) (itemK : Bytes) (entryKind : HashFieldStateKind) :
    FieldChange :=
  ⟨removeFieldMeta hm entryKind, [.rmData itemK], .missing⟩

def applyPersistInBatch (hm : HashMeta) (itemK : Bytes) (raw : Option Bytes) : FieldChange :=
  let hm := hm.applyTtlToPersistent
  ⟨hm, [.insertData itemK (hm.encodeSubkeyValue (extractSubkeyPayload hm raw) 0)],
    ⟨.persistent, 0, raw⟩⟩

def applyExpireInBatch (hm : HashMeta) (itemK : Bytes) (entryKind : HashFieldStateKind)
    (raw : Option Bytes) (expireAtMs : UInt64) : FieldChange :=
  let hm :=
    if entryKind = .persistent then hm.applyPersistentToTtl expireAtMs
    else hm.applyTtlToTtl expireAtMs
  ⟨hm, [.insertData itemK (hm.encodeSubkeyValue (extractSubkeyPayload hm raw) expireAtMs)],
    ⟨.liveTTL, expireAtMs, raw⟩⟩

/-- What a command does to one field. -/
abbrev FieldHandler (ρ : Type) :=
  HashMeta → Bytes → CachedFieldState → ρ × Option FieldChange

def purgeExpired {ρ : Type} (notFound : ρ) (handler : FieldHandler ρ) : FieldHandler ρ :=
  fun hm itemK entry =>
    match entry.kind with
    | .missing => (notFound, none)
    | .expiredTTLPhysical => (notFound, some (removeFieldInBatch hm itemK entry.kind))
    | .persistent | .liveTTL => handler hm itemK entry

def expireHandler (condition : HExpire) (expireAtMs nowMs : UInt64) : FieldHandler ℤ :=
  purgeExpired hashFieldNotFound fun hm itemK entry =>
    if !hexpireConditionPasses condition entry.kind entry.expire expireAtMs then
      (hashExpireCondFailed, none)
    else if isImmediateExpire expireAtMs nowMs then
      (hashExpireDeleted, some (removeFieldInBatch hm itemK entry.kind))
    else (hashExpireSetOk, some (applyExpireInBatch hm itemK entry.kind entry.raw expireAtMs))

def persistHandler : FieldHandler ℤ :=
  purgeExpired hashFieldNotFound fun hm itemK entry =>
    if entry.kind = .persistent then (hashFieldPersistent, none)
    else (hashExpireSetOk, some (applyPersistInBatch hm itemK entry.raw))

def getDelHandler : FieldHandler (Option Bytes) :=
  purgeExpired none fun hm itemK entry =>
    (some (extractSubkeyPayload hm entry.raw), some (removeFieldInBatch hm itemK entry.kind))

def getExOneHandler (options : HashGetEx) (nowMs : UInt64) : FieldHandler (Option Bytes) :=
  purgeExpired none fun hm itemK entry =>
    let payload := (entry.raw.bind hm.decodeSubkeyValue).map Prod.snd
    if options.ttlAction = .discard ∨ options.ttlAction = .persist ∧ entry.kind = .persistent then
      (payload, none)
    else if options.ttlAction = .set ∧ isImmediateExpire options.expireAtMs nowMs then
      (none, some (removeFieldInBatch hm itemK entry.kind))
    else
      let targetExpire := if options.ttlAction = .persist then 0 else options.expireAtMs
      let hm :=
        if options.ttlAction = .persist then
          if entry.kind = .liveTTL then hm.applyTtlToPersistent else hm
        else if entry.kind = .persistent then hm.applyPersistentToTtl targetExpire
        else hm.applyTtlToTtl targetExpire
      let ops := match payload with
        | some p => [.insertData itemK (hm.encodeSubkeyValue p targetExpire)]
        | none => []
      (payload, some ⟨hm, ops,
        ⟨if targetExpire = 0 then .persistent else .liveTTL, targetExpire, entry.raw⟩⟩)

/-- Several fields: the reply holds the payload even when the field is removed. -/
def getExHandler (options : HashGetEx) (nowMs : UInt64) : FieldHandler (Option Bytes) :=
  purgeExpired none fun hm itemK entry =>
    let payload := extractSubkeyPayload hm entry.raw
    let isImmediate := options.ttlAction = .set ∧ isImmediateExpire options.expireAtMs nowMs
    (some payload,
      if entry.kind = .persistent then
        if isImmediate then some (removeFieldInBatch hm itemK entry.kind)
        else if options.ttlAction = .set ∧ options.expireAtMs ≠ 0 then
          some (applyExpireInBatch hm itemK entry.kind entry.raw options.expireAtMs)
        else none
      else if isImmediate then some (removeFieldInBatch hm itemK entry.kind)
      else
        match options.ttlAction with
        | .persist => some (applyPersistInBatch hm itemK entry.raw)
        | .set => some (applyExpireInBatch hm itemK entry.kind entry.raw options.expireAtMs)
        | .keep | .discard => none)

structure HfeWork where
  hm : HashMeta
  ops : Batch
  metaChanged : Bool
  stateCache : SortedMap Bytes CachedFieldState

section
variable (s : Store) (kc : KeyComposer) (key : Key) (nowMs : UInt64)

def getHfeMeta : Except Error (Option HashMeta) := do
  match ← getHashMeta s kc key nowMs with
  | none => return none
  | some hm =>
    if hm.isLegacySubkeyEncoding then .error (.invalidData errHashFieldExpirationLegacyEncoding)
    else return some hm

def getLiveHfeMeta : Except Error (Option HashMeta) := do
  match ← getHfeMeta s kc key nowMs with
  | some hm =>
    if hm.upper ≠ 0 ∧ nowMs > hm.upper ∧ hm.persist = 0 then return none else return some hm
  | none => return none

def cachedEntry (w : HfeWork) (field : Bytes) : CachedFieldState :=
  match w.stateCache.get field with
  | some cached => cached
  | none => loadFieldState s kc key nowMs w.hm field

def hfeStep {ρ : Type} (handler : FieldHandler ρ) (w : HfeWork) (field : Bytes) : HfeWork × ρ :=
  let entry := cachedEntry s kc key nowMs w field
  let w := { w with stateCache := w.stateCache.insert field entry }
  match handler w.hm (keyForField kc key field) entry with
  | (reply, none) => (w, reply)
  | (reply, some c) =>
    (⟨c.hm, w.ops ++ c.ops, true, w.stateCache.insert field c.entry⟩, reply)

def hfeFields {ρ : Type} (handler : FieldHandler ρ) : HfeWork → List Bytes → HfeWork × List ρ
  | w, [] => (w, [])
  | w, field :: fields =>
    let (w, reply) := hfeStep s kc key nowMs handler w field
    let (w, replies) := hfeFields handler w fields
    (w, reply :: replies)

def hfeOne {ρ : Type} (handler : FieldHandler ρ) (notFound : ρ) (field : Bytes) :
    Except Error (ρ × Batch) := do
  match ← getLiveHfeMeta s kc key nowMs with
  | none => return (notFound, [])
  | some hm =>
    match handler hm (keyForField kc key field) (loadFieldState s kc key nowMs hm field) with
    | (reply, none) => return (reply, [])
    | (reply, some c) =>
      return (reply, c.ops ++ commitHashMetaOrRm (composeHashMetaKey kc key) c.hm)

def hfeMany {ρ : Type} (handler : FieldHandler ρ) (notFound : ρ) (fields : List Bytes) :
    Except Error (List ρ × Batch) := do
  match ← getLiveHfeMeta s kc key nowMs with
  | none => return (List.replicate fields.length notFound, [])
  | some hm =>
    let (w, replies) := hfeFields s kc key nowMs handler ⟨hm, [], false, ∅⟩ fields
    return (replies,
      if w.metaChanged then w.ops ++ commitHashMetaOrRm (composeHashMetaKey kc key) w.hm else [])

def hfeCommand {ρ : Type} (one many : FieldHandler ρ) (notFound : ρ) (fields : List Bytes) :
    Except Error (List ρ × Batch) :=
  match fields with
  | [] => .ok ([], [])
  | [field] => (hfeOne s kc key nowMs one notFound field).map fun x => ([x.1], x.2)
  | fields => hfeMany s kc key nowMs many notFound fields

def expireFields (fields : List Bytes) (expireAtMs : UInt64) (condition : HExpire) :
    Except Error (List ℤ × Batch) :=
  let handler := expireHandler condition expireAtMs nowMs
  hfeCommand s kc key nowMs handler handler hashFieldNotFound fields

def firstCondition (options : List HExpire) : HExpire := options.head?.getD .none

def relativeMs (amount : Int64) (unit : UInt64) : UInt64 :=
  if amount ≤ 0 then 0 else nowMs.satAdd (amount.toUInt64.satMul unit)

def hexpire (fields : List Bytes) (seconds : Int64) (options : List HExpire) :
    Except Error (List ℤ × Batch) :=
  expireFields s kc key nowMs fields (relativeMs nowMs seconds 1000) (firstCondition options)

def hpexpire (fields : List Bytes) (milliseconds : Int64) (options : List HExpire) :
    Except Error (List ℤ × Batch) :=
  expireFields s kc key nowMs fields (relativeMs nowMs milliseconds 1) (firstCondition options)

def hexpireat (fields : List Bytes) (unixTimeSec : UInt64) (options : List HExpire) :
    Except Error (List ℤ × Batch) :=
  expireFields s kc key nowMs fields (unixTimeSec.satMul 1000) (firstCondition options)

def hpexpireat (fields : List Bytes) (unixTimeMs : UInt64) (options : List HExpire) :
    Except Error (List ℤ × Batch) :=
  expireFields s kc key nowMs fields unixTimeMs (firstCondition options)

def hpersist (fields : List Bytes) : Except Error (List ℤ × Batch) :=
  hfeCommand s kc key nowMs persistHandler persistHandler hashFieldNotFound fields

def hgetdel (fields : List Bytes) : Except Error (List (Option Bytes) × Batch) :=
  hfeCommand s kc key nowMs getDelHandler getDelHandler none fields

def hgetex (field : Bytes) (options : List HGetEx) : Except Error (Option Bytes × Batch) :=
  hfeOne s kc key nowMs (getExOneHandler (.fromOptions options nowMs) nowMs) none field

def hmgetEx (fields : List Bytes) (options : List HGetEx) :
    Except Error (List (Option Bytes) × Batch) :=
  let opts := HashGetEx.fromOptions options nowMs
  hfeCommand s kc key nowMs (getExOneHandler opts nowMs) (getExHandler opts nowMs) none fields

/-! ## Setting fields with an expiry -/

def resolveTargetExpire (ttlAction : TTLAction) (optionsExpire : UInt64)
    (entryKind : HashFieldStateKind) (entryExpire : UInt64) : UInt64 :=
  match ttlAction with
  | .discard | .persist => 0
  | .keep =>
    if entryKind = .liveTTL ∨ entryKind = .expiredTTLPhysical then entryExpire else 0
  | .set => optionsExpire

def setexMeta (hm : HashMeta) (entryKind : HashFieldStateKind) (targetExpire : UInt64) : HashMeta :=
  match entryKind with
  | .missing | .expiredTTLPhysical =>
    if targetExpire = 0 then hm.applyMissingToPersistent else hm.applyMissingToTtl targetExpire
  | .persistent => if targetExpire ≠ 0 then hm.applyPersistentToTtl targetExpire else hm
  | .liveTTL =>
    if targetExpire = 0 then hm.applyTtlToPersistent else hm.applyTtlToTtl targetExpire

def setConditionMet (condition : HashFieldSetCondition) (kind : HashFieldStateKind) : Bool :=
  match condition with
  | .none => true
  | .fnx => kind == .missing || kind == .expiredTTLPhysical
  | .fxx => kind == .persistent || kind == .liveTTL

def setexEntry (metadataExisted : Bool) (hm : HashMeta) (field : Bytes) : CachedFieldState :=
  if metadataExisted then loadFieldState s kc key nowMs hm field else .missing

def setexField (options : HashSetEx) (hm : HashMeta) (itemK value : Bytes)
    (entry : CachedFieldState) : HashMeta × Batch :=
  if options.ttlAction = .set ∧ isImmediateExpire options.expireAtMs nowMs then
    if entry.kind ≠ .missing then (removeFieldMeta hm entry.kind, [.rmData itemK]) else (hm, [])
  else
    let targetExpire :=
      resolveTargetExpire options.ttlAction options.expireAtMs entry.kind entry.expire
    let hm := setexMeta hm entry.kind targetExpire
    (hm, [.insertData itemK (hm.encodeSubkeyValue value targetExpire)])

def setFieldWithExpireOne (version : UInt64) (field value : Bytes) (options : HashSetEx) :
    Except Error (Bool × Batch) := do
  let (hm, metadataExisted, ops) ← prepareHashMetaForWrite s kc key nowMs version
  if metadataExisted && hm.isLegacySubkeyEncoding then
    .error (.invalidData errHashFieldExpirationLegacyEncoding)
  else
    let entry := setexEntry s kc key nowMs metadataExisted hm field
    if !setConditionMet options.condition entry.kind then return (false, [])
    else if options.ttlAction = .set ∧ isImmediateExpire options.expireAtMs nowMs ∧
        entry.kind = .missing then return (true, [])
    else
      let (hm, fieldOps) := setexField nowMs options hm (keyForField kc key field) value entry
      return (true, ops ++ fieldOps ++ commitHashMetaOrRm (composeHashMetaKey kc key) hm)

def setexStep (options : HashSetEx) (metadataExisted : Bool) (w : HashMeta × Batch)
    (fv : Bytes × Bytes) : HashMeta × Batch :=
  let entry := setexEntry s kc key nowMs metadataExisted w.1 fv.1
  let (hm, fieldOps) := setexField nowMs options w.1 (keyForField kc key fv.1) fv.2 entry
  (hm, w.2 ++ fieldOps)

def setFieldsWithExpire (version : UInt64) (fieldValues : List (Bytes × Bytes))
    (options : HashSetEx) : Except Error (Bool × Batch) :=
  match fieldValues with
  | [] => .ok (false, [])
  | [(field, value)] => setFieldWithExpireOne s kc key nowMs version field value options
  | fieldValues => do
    let (hm, metadataExisted, ops) ← prepareHashMetaForWrite s kc key nowMs version
    if metadataExisted && hm.isLegacySubkeyEncoding then
      .error (.invalidData errHashFieldExpirationLegacyEncoding)
    else if !fieldValues.all (fun fv => setConditionMet options.condition
        (setexEntry s kc key nowMs metadataExisted hm fv.1).kind) then return (false, [])
    else
      -- each name is handled once, so its cached state is the one loaded for it
      let w := (keepLast fieldValues).foldl (setexStep s kc key nowMs options metadataExisted)
        (hm, ops)
      return (true, w.2 ++ commitHashMetaOrRm (composeHashMetaKey kc key) w.1)

def hsetexOne (version : UInt64) (field value : Bytes) (options : List HSet) :
    Except Error (Bool × Batch) :=
  setFieldWithExpireOne s kc key nowMs version field value (.fromOptions options nowMs)

def hsetex (version : UInt64) (fieldValues : List (Bytes × Bytes)) (options : List HSet) :
    Except Error (Bool × Batch) :=
  setFieldsWithExpire s kc key nowMs version fieldValues (.fromOptions options nowMs)

end

end Wedb
