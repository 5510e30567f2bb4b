import Wedb.Stream.Meta
import Wedb.Ordered.Saturating

/-!
# Stream commands

Entries are stored under their ids. Adding an entry first generates its id and
trims what the options ask for; trimming walks the entries from the first one on,
and a deletion that hits the first or the last entry looks for the next one left.
All of it is queued in one batch with the metadata.
-/

namespace Wedb

def errStreamNotFound : String := "Stream not found"
def errInvalidStartIdInterval : String := "invalid start ID for the interval"
def errInvalidEndIdInterval : String := "invalid end ID for the interval"
def errSetIdSmallerThanTop : String :=
  "The ID specified in XSETID is smaller than the target stream top item"
def errSetIdEntriesAddedSmaller : String :=
  "The entries_added specified in XSETID is smaller than the target stream length"
def errSetIdMaxDelGreater : String :=
  "The ID specified in XSETID is smaller than the provided max_deleted_entry_id"
def errEmptyStreamEntriesAdded : String :=
  "an empty stream should have non-zero value of ENTRIESADDED"
def errEmptyStreamMaxDeleted : String := "an empty stream should have MAXDELETEDID"

/-! ## Keys and payloads -/

def streamMetaKey (kc : KeyComposer) (key : Key) : Bytes :=
  kc.composeMetaKeyStack KeyTag.streamMeta.asSlice key.bytes

def streamItem (kc : KeyComposer) (key : Key) (id : StreamId) : Bytes :=
  kc.composeSubkey2Stack KeyTag.streamData.asSlice key.bytes id.ms.toBeBytes id.seq.toBeBytes

def streamPrefix (kc : KeyComposer) (key : Key) : Bytes :=
  kc.composePrefixStack KeyTag.streamData.asSlice key.bytes

def parseStreamIdFromSubkey (sub : Bytes) : Option StreamId :=
  if sub.length = 16 then some ⟨readU64 sub 0, readU64 sub 8⟩ else none

def encodeStreamEntryPairs (fields : List (Bytes × Bytes)) : Bytes :=
  (UInt32.ofNat fields.length).toBeBytes ++ fields.flatMap fun f =>
    (UInt32.ofNat f.1.length).toBeBytes ++ f.1 ++ (UInt32.ofNat f.2.length).toBeBytes ++ f.2

def streamEntryFields : ℕ → Bytes → List (Bytes × Bytes)
  | 0, _ => []
  | n + 1, bytes =>
    match takeFramed bytes with
    | none => []
    | some (k, bytes) =>
      match takeFramed bytes with
      | none => []
      | some (v, bytes) => (k, v) :: streamEntryFields n bytes

def decodeStreamEntryRawBytes (bytes : Bytes) : Option (List (Bytes × Bytes)) :=
  if bytes.length < 4 then none
  else some (streamEntryFields (beNat (bytes.take 4)) (bytes.drop 4))

def decodeStreamEntryFields (bytes : Bytes) : Option (List (String × String)) := do
  let pairs ← decodeStreamEntryRawBytes bytes
  pairs.mapM fun f => do return (← fromUtf8 f.1, ← fromUtf8 f.2)

abbrev StreamEntry := StreamId × List (String × String)

/-! ## Options -/

inductive StreamTrimStrategy
  | none
  | maxLen
  | minId
  deriving DecidableEq, Repr

structure StreamTrim where
  strategy : StreamTrimStrategy := .none
  maxLen : UInt64 := 0
  minId : StreamId := .min
  limit : Option ℕ := none
  deriving DecidableEq, Repr

structure StreamAdd where
  trimOptions : StreamTrim := {}
  nextIdStrategy : NextStreamEntryIdStrategy := .auto
  nomkstream : Bool := false
  deriving DecidableEq, Repr

structure StreamRange where
  start : StreamId := .min
  stop : StreamId := .max
  count : Option ℕ := none
  reverse : Bool := false
  excludeStart : Bool := false
  excludeEnd : Bool := false
  deriving DecidableEq, Repr

section
variable (s : Store) (kc : KeyComposer) (key : Key) (nowMs : UInt64)

def getStreamMeta : Except Error (Option StreamMeta) :=
  getMetaChecked StreamMeta s kc key (streamMetaKey kc key) nowMs

def getStreamEntry (id : StreamId) : Option StreamEntry :=
  (s.data.get (streamItem kc key id)).map fun v => (id, (decodeStreamEntryFields v).getD [])

def cleanStreamResidue : Batch := cleanupCompositeDataRaw s kc KeyTag.streamMeta.asU8 key.bytes

/-! ## Trimming -/

def streamSubkeys : List (Bytes × StreamId) :=
  (SortedMap.prefixed (streamPrefix kc key) s.data).filterMap fun x =>
    (parseStreamIdFromSubkey (x.1.drop (streamPrefix kc key).length)).map fun id => (x.1, id)

/-- What a walk over the entries has deleted, and the first entry it leaves. -/
structure TrimState where
  deleteCnt : ℕ := 0
  lastDeletedId : StreamId := .min
  newFirstId : Option StreamId := none
  ops : Batch := []

def TrimState.delete (st : TrimState) (k : Bytes) (id : StreamId) : TrimState :=
  { st with deleteCnt := st.deleteCnt + 1, lastDeletedId := id, ops := st.ops ++ [.rmWeakData k] }

def trimStops (m : StreamMeta) (options : StreamTrim) (deleteCnt : ℕ) (id : StreamId) : Bool :=
  decide (options.strategy = .maxLen ∧ m.base.size.satSub (UInt64.ofNat deleteCnt) ≤ options.maxLen) ||
    decide (options.strategy = .minId ∧ options.minId ≤ id)

def trimLoop (m : StreamMeta) (options : StreamTrim) : List (Bytes × StreamId) → TrimState → TrimState
  | [], st => st
  | (k, id) :: rest, st =>
    if trimStops m options st.deleteCnt id then { st with newFirstId := some id }
    else
      let st := st.delete k id
      match options.limit with
      | some lim =>
        if st.deleteCnt ≥ lim then { st with newFirstId := rest.head?.map Prod.snd }
        else trimLoop m options rest st
      | none => trimLoop m options rest st

def StreamMeta.trimmed (m : StreamMeta) (st : TrimState) : StreamMeta :=
  if st.deleteCnt > 0 then
    let size := m.base.size.satSub (UInt64.ofNat st.deleteCnt)
    let m := m.setSize size
    let m :=
      if st.lastDeletedId > m.maxDeletedEntryId then { m with maxDeletedEntryId := st.lastDeletedId }
      else m
    if size = 0 ∨ st.newFirstId = none then
      { m.setSize 0 with firstEntryId := .min, lastEntryId := .min, recordedFirstEntryId := .min }
    else
      { m with
        firstEntryId := st.newFirstId.getD .min
        recordedFirstEntryId := st.newFirstId.getD .min }
  else m

def trimStreamInternal (m : StreamMeta) (options : StreamTrim) : ℕ × StreamMeta × Batch :=
  if m.base.size = 0 then (0, m, [])
  else if options.strategy = .maxLen ∧ m.base.size ≤ options.maxLen then (0, m, [])
  else if options.strategy = .minId ∧ options.minId ≤ m.firstEntryId then (0, m, [])
  else
    let st := trimLoop m options (streamSubkeys s kc key) {}
    (st.deleteCnt, m.trimmed st, st.ops)

def streamTrim (options : StreamTrim) : Except Error (ℕ × Batch) := do
  match ← getStreamMeta s kc key nowMs with
  | none => return (0, [])
  | some m =>
    let (deleteCnt, m, ops) := trimStreamInternal s kc key m options
    if deleteCnt > 0 then return (deleteCnt, ops ++ [.insertMeta (streamMetaKey kc key) m.encode])
    else return (0, [])

/-! ## Adding -/

def addTrimOptions (options : StreamTrim) : StreamTrim :=
  if options.strategy = .maxLen then
    { options with maxLen := if options.maxLen > 0 then options.maxLen - 1 else 0 }
  else options

def shouldAdd (options : StreamTrim) (id : StreamId) : Bool :=
  !(decide (options.strategy = .minId ∧ id < options.minId) ||
    decide (options.strategy = .maxLen ∧ options.maxLen = 0))

def StreamMeta.added (m : StreamMeta) (id : StreamId) : StreamMeta :=
  let size := m.base.size + 1
  { m.setSize size with
    lastGeneratedId := id
    lastEntryId := id
    firstEntryId := if size = 1 then id else m.firstEntryId
    recordedFirstEntryId := if size = 1 then id else m.recordedFirstEntryId }

def StreamMeta.skipped (m : StreamMeta) (id : StreamId) : StreamMeta :=
  { m with lastGeneratedId := id, maxDeletedEntryId := id }

def streamAdd (version : UInt64) (options : StreamAdd) (fieldVals : List (Bytes × Bytes)) :
    Except Error (StreamId × Batch) := do
  let found ← getStreamMeta s kc key nowMs
  if found.isNone && options.nomkstream then .error (.notFound errStreamNotFound)
  else
    let m := found.getD (.new 0 version)
    let nextEntryId ← options.nextIdStrategy.generateId m.lastGeneratedId nowMs
    let residue := if found.isNone then cleanStreamResidue s kc key else []
    let (m, trimOps) :=
      if options.trimOptions.strategy ≠ .none then
        (trimStreamInternal s kc key m (addTrimOptions options.trimOptions)).2
      else (m, [])
    let add := decide (options.trimOptions.strategy = .none) || shouldAdd options.trimOptions nextEntryId
    let itemOps :=
      if add then
        [WriteOp.insertData (streamItem kc key nextEntryId) (encodeStreamEntryPairs fieldVals)]
      else []
    let m := if add then m.added nextEntryId else m.skipped nextEntryId
    let m := { m with entriesAdded := m.entriesAdded + 1 }
    return (nextEntryId,
      residue ++ (trimOps ++ (itemOps ++ [.insertMeta (streamMetaKey kc key) m.encode])))

/-! ## Deleting -/

def storedIds : List StreamId → List StreamId → List StreamId
  | [], _ => []
  | id :: ids, seen =>
    if id ∈ seen then storedIds ids seen
    else if s.data.contains (streamItem kc key id) then id :: storedIds ids (id :: seen)
    else storedIds ids (id :: seen)

def findStreamBoundaryId (ids : List (Bytes × StreamId)) (deletedIds : List StreamId) :
    Option StreamId :=
  (ids.find? fun x => decide (x.2 ∉ deletedIds)).map Prod.snd

def StreamMeta.deleted (m : StreamMeta) (subkeys : List (Bytes × StreamId)) (ids hit : List StreamId) :
    StreamMeta :=
  let size := m.base.size.satSub (UInt64.ofNat hit.length)
  let m := { m.setSize size with maxDeletedEntryId := hit.foldl Max.max m.maxDeletedEntryId }
  if size = 0 then
    { m with firstEntryId := .min, lastEntryId := .min, recordedFirstEntryId := .min }
  else
    let first := if m.firstEntryId ∈ ids then findStreamBoundaryId subkeys ids else none
    let last := if m.lastEntryId ∈ ids then findStreamBoundaryId subkeys.reverse ids else none
    { m with
      firstEntryId := first.getD m.firstEntryId
      recordedFirstEntryId := first.getD m.recordedFirstEntryId
      lastEntryId := last.getD m.lastEntryId }

def streamDel (ids : List StreamId) : Except Error (ℕ × Batch) :=
  if ids.isEmpty then .ok (0, [])
  else do
    match ← getStreamMeta s kc key nowMs with
    | none => return (0, [])
    | some m =>
      if m.base.size = 0 then return (0, [])
      else
        let hit := storedIds s kc key ids []
        if hit.length > 0 then
          let m := m.deleted (streamSubkeys s kc key) ids hit
          return (hit.length, hit.map (fun id => WriteOp.rmWeakData (streamItem kc key id)) ++
            [.insertMeta (streamMetaKey kc key) m.encode])
        else return (0, [])

/-! ## Setting the last id -/

def streamSetid (version : UInt64) (lastGeneratedId : StreamId) (entriesAdded : Option UInt64)
    (maxDeletedId : Option StreamId) : Except Error (Unit × Batch) :=
  if maxDeletedId.any fun d => decide (lastGeneratedId < d) then
    .error (.invalidData errSetIdMaxDelGreater)
  else do
    let found ← getStreamMeta s kc key nowMs
    if found.isNone && (entriesAdded == none || entriesAdded == some 0) then
      .error (.invalidData errEmptyStreamEntriesAdded)
    else if found.isNone && (maxDeletedId == none || maxDeletedId == some .min) then
      .error (.invalidData errEmptyStreamMaxDeleted)
    else
      let m := found.getD (.new 0 version)
      if m.base.size > 0 ∧ lastGeneratedId < m.lastGeneratedId then
        .error (.invalidData errSetIdSmallerThanTop)
      else if m.base.size > 0 ∧ entriesAdded.any (fun ea => decide (ea < m.base.size)) then
        .error (.invalidData errSetIdEntriesAddedSmaller)
      else
        let m := { m with
          lastGeneratedId
          entriesAdded := entriesAdded.getD m.entriesAdded
          maxDeletedEntryId :=
            match maxDeletedId with
            | some d => if !d.isMin then d else m.maxDeletedEntryId
            | none => m.maxDeletedEntryId }
        return ((), [.insertMeta (streamMetaKey kc key) m.encode])

/-! ## Ranges -/

def rangeSkips (options : StreamRange) (id : StreamId) : Bool :=
  options.excludeStart &&
    if options.reverse then decide (options.start ≤ id) else decide (id ≤ options.start)

def rangeEnds (options : StreamRange) (id : StreamId) : Bool :=
  if options.reverse then
    options.excludeEnd && decide (id ≤ options.stop) || decide (id < options.stop)
  else options.excludeEnd && decide (options.stop ≤ id) || decide (options.stop < id)

def rangeScan (options : StreamRange) : List (StreamId × Bytes) → List StreamEntry → List StreamEntry
  | [], results => results
  | (id, v) :: rest, results =>
    if rangeSkips options id then rangeScan options rest results
    else if rangeEnds options id then results
    else
      let results := results ++ [(id, (decodeStreamEntryFields v).getD [])]
      if options.count.all fun c => decide (results.length < c) then rangeScan options rest results
      else results

def rangeEntries (low high : StreamId) : List (StreamId × Bytes) :=
  (s.data.range (.included (streamItem kc key low)) (.included (streamItem kc key high))).filterMap
    fun x => (parseStreamIdFromSubkey (x.1.drop (streamPrefix kc key).length)).map fun id => (id, x.2)

def streamRangeWithOptions (options : StreamRange) : Except Error (List StreamEntry) :=
  if options.excludeStart && options.start.isMax then
    .error (.invalidData errInvalidStartIdInterval)
  else if options.excludeEnd && options.stop.isMin then
    .error (.invalidData errInvalidEndIdInterval)
  else if options.count = some 0 then .ok []
  else if !options.reverse && decide (options.stop < options.start) ||
      options.reverse && decide (options.start < options.stop) then .ok []
  else do
    match ← getStreamMeta s kc key nowMs with
    | none => return []
    | some m =>
      if m.base.size = 0 then return []
      else if !options.reverse &&
          (decide (m.lastEntryId < options.start) || decide (options.stop < m.firstEntryId)) then
        return []
      else if options.reverse &&
          (decide (options.start < m.firstEntryId) || decide (m.lastEntryId < options.stop)) then
        return []
      else if options.start = options.stop then
        if options.excludeStart || options.excludeEnd then return []
        else return (getStreamEntry s kc key options.start).toList
      else if options.reverse then
        return rangeScan options (rangeEntries s kc key options.stop options.start).reverse []
      else return rangeScan options (rangeEntries s kc key options.start options.stop) []

def streamRange (start stop : StreamId) (count : Option ℕ) : Except Error (List StreamEntry) :=
  streamRangeWithOptions s kc key nowMs { start, stop, count }

end

end Wedb
