import Wedb.Stream.Exact

/-!
# Fields of an entry

An entry is stored as the number of its fields and each name and value behind its length.
Fields of text shorter than four gigabytes are read back as they were given.
-/

namespace Wedb

def fieldsBytes (fields : List (String × String)) : List (Bytes × Bytes) :=
  fields.map fun f => (textBytes f.1, textBytes f.2)

/-- The numbers written in front of fields fit their four bytes. -/
structure FieldsFramed (fields : List (Bytes × Bytes)) : Prop where
  count : fields.length < 2 ^ 32
  lengths : ∀ f ∈ fields, f.1.length < 2 ^ 32 ∧ f.2.length < 2 ^ 32

theorem streamEntryFields_succ {bytes k v rest rest' : Bytes} (n : ℕ)
    (hk : takeFramed bytes = some (k, rest)) (hv : takeFramed rest = some (v, rest')) :
    streamEntryFields (n + 1) bytes = (k, v) :: streamEntryFields n rest' := by
  simp only [streamEntryFields, hk, hv]

theorem streamEntryFields_encode {fields : List (Bytes × Bytes)}
    (h : ∀ f ∈ fields, f.1.length < 2 ^ 32 ∧ f.2.length < 2 ^ 32) :
    streamEntryFields fields.length (fields.flatMap fun f => encodeFramed f.1 ++ encodeFramed f.2) =
      fields := by
  induction fields with
  | nil => rfl
  | cons f fields ih =>
    obtain ⟨hname, hvalue⟩ := h f (by simp)
    have hrest := ih fun g hg => h g (List.mem_cons_of_mem f hg)
    rw [List.length_cons, List.flatMap_cons, List.append_assoc,
      streamEntryFields_succ fields.length (takeFramed_encodeFramed hname _)
        (takeFramed_encodeFramed hvalue _), hrest]

theorem decodeStreamEntryRawBytes_encode {fields : List (Bytes × Bytes)} (h : FieldsFramed fields) :
    decodeStreamEntryRawBytes (encodeStreamEntryPairs fields) = some fields := by
  have hencode : encodeStreamEntryPairs fields = (UInt32.ofNat fields.length).toBeBytes ++
      fields.flatMap fun f => encodeFramed f.1 ++ encodeFramed f.2 := by
    rw [encodeStreamEntryPairs]
    congr 2
    funext f
    simp [encodeFramed]
  have hcount := beNat_ofNat_u32 h.count
  rw [hencode, decodeStreamEntryRawBytes, if_neg (by simp), List.take_append_of_le_length (by simp),
    List.take_of_length_le (by simp), hcount, List.drop_append_of_le_length (by simp),
    List.drop_of_length_le (by simp), List.nil_append, streamEntryFields_encode h.lengths]

theorem decodeStreamEntryFields_encode {fields : List (String × String)}
    (h : FieldsFramed (fieldsBytes fields)) :
    decodeStreamEntryFields (encodeStreamEntryPairs (fieldsBytes fields)) = some fields := by
  have htext : (fieldsBytes fields).mapM (fun f => do
      return (← fromUtf8 f.1, ← fromUtf8 f.2)) = some fields := by
    clear h
    induction fields with
    | nil => rfl
    | cons f fields ih =>
      rw [fieldsBytes, List.map_cons, List.mapM_cons, ← fieldsBytes, ih]
      simp [fromUtf8_textBytes]
  rw [decodeStreamEntryFields, decodeStreamEntryRawBytes_encode h]
  exact htext

/-!
## Consumer groups

A group remembers the last id delivered to it and how many entries it has read, `-1` when
that is not known. Reading new entries moves the last id and, unless acknowledgement is
waived, records each entry as pending. The lag of a group is the number of entries after
its last id, as far as the counters tell.
-/

section

def errGroupNotFound : String := "Consumer group not found"
def errGroupBusy : String := "BUSYGROUP Consumer Group name already exists"
def errXgroupKeyRequireExist : String :=
  "The XGROUP subcmd requires the key to exist. Note that for CREATE you may want to use " ++
    "the MKSTREAM option to create an empty stream automatically."
def errInvalidStreamId : String := "Invalid stream ID specified as stream command argument"

/-! ## Ids given as text -/

def isWhiteSpace (c : Char) : Bool :=
  let n := c.toNat
  decide (9 ≤ n ∧ n ≤ 13) || n == 32 || n == 0x85 || n == 0xA0 || n == 0x1680 ||
    decide (0x2000 ≤ n ∧ n ≤ 0x200A) || n == 0x2028 || n == 0x2029 || n == 0x202F || n == 0x205F ||
    n == 0x3000

def trimText (text : List Char) : List Char :=
  ((text.dropWhile isWhiteSpace).reverse.dropWhile isWhiteSpace).reverse

def parseU64 (text : List Char) : Option UInt64 :=
  let digits := if text.head? = some '+' then text.tail else text
  if digits.isEmpty || !digits.all Char.isDigit then none
  else
    let n := digits.foldl (fun n c => n * 10 + (c.toNat - 48)) 0
    if n < 2 ^ 64 then some (.ofNat n) else none

def stripChar (c : Char) (text : List Char) : List Char :=
  if text.head? = some c then text.tail else text

def parseIdParts (text : List Char) (defaultSeq : UInt64) : Except Error StreamId :=
  let parsed :=
    if '-' ∈ text then do
      let ms ← parseU64 (text.takeWhile (· ≠ '-'))
      let seq ← parseU64 ((text.dropWhile (· ≠ '-')).tail)
      return StreamId.mk ms seq
    else (parseU64 text).map fun ms => StreamId.mk ms defaultSeq
  match parsed with
  | some id => .ok id
  | none => .error (.invalidData errInvalidStreamId)

def StreamId.parse (text : String) : Except Error StreamId :=
  let text := trimText text.toList
  if text = ['+'] then .ok .max
  else if text = ['-'] then .ok .min
  else parseIdParts (stripChar '(' (stripChar '[' text)) 0

/-! ## Records -/

structure StreamConsumerGroupMeta where
  consumerNumber : UInt64 := 0
  pendingNumber : UInt64 := 0
  lastDeliveredId : StreamId := .min
  entriesRead : Int64 := 0
  lag : UInt64 := 0
  deriving DecidableEq

namespace StreamConsumerGroupMeta

def encodedSize : ℕ := 8 + 8 + 16 + 8 + 8

def encode (g : StreamConsumerGroupMeta) : Bytes :=
  g.consumerNumber.toBeBytes ++ (g.pendingNumber.toBeBytes ++ (encodeId g.lastDeliveredId ++
    (g.entriesRead.toUInt64.toBeBytes ++ g.lag.toBeBytes)))

def decode (bytes : Bytes) : Option StreamConsumerGroupMeta :=
  if bytes.length < encodedSize then none
  else some {
    consumerNumber := readU64 bytes 0
    pendingNumber := readU64 bytes 8
    lastDeliveredId := decodeId (slice bytes 16 16)
    entriesRead := (readU64 bytes 32).toInt64
    lag := readU64 bytes 40 }

theorem decode_encode (g : StreamConsumerGroupMeta) : decode g.encode = some g := by
  have hlen : g.encode.length = encodedSize := by simp [encode, encodedSize]
  have hconsumers : readU64 g.encode 0 = g.consumerNumber := by
    rw [encode, readU64_append_left (by simp), UInt64.fromBeBytes_toBeBytes]
  have hpending : readU64 g.encode 8 = g.pendingNumber := KeyMeta.readU64_append _ (by simp)
  have hlast : decodeId (slice g.encode 16 16) = g.lastDeliveredId := by
    rw [encode, ← List.append_assoc]
    exact StreamMeta.decodeId_slice _ (by simp)
  have hread : readU64 g.encode 32 = g.entriesRead.toUInt64 := by
    rw [encode, ← List.append_assoc, ← List.append_assoc]
    exact KeyMeta.readU64_append _ (by simp)
  have hlag : readU64 g.encode 40 = g.lag := by
    have happend := @KeyMeta.readU64_append (g.consumerNumber.toBeBytes ++ (g.pendingNumber.toBeBytes ++
      (encodeId g.lastDeliveredId ++ g.entriesRead.toUInt64.toBeBytes))) [] 40 g.lag (by simp)
    simpa [encode] using happend
  rw [decode, if_neg (by rw [hlen]; simp), hconsumers, hpending, hlast, hread, hlag]
  rfl

end StreamConsumerGroupMeta

structure StreamConsumerMeta where
  pendingNumber : UInt64 := 0
  lastAttemptedInteractionMs : UInt64 := 0
  lastSuccessfulInteractionMs : UInt64 := 0
  deriving DecidableEq

def StreamConsumerMeta.encode (c : StreamConsumerMeta) : Bytes :=
  c.pendingNumber.toBeBytes ++ c.lastAttemptedInteractionMs.toBeBytes ++
    c.lastSuccessfulInteractionMs.toBeBytes

def StreamConsumerMeta.decode (bytes : Bytes) : Option StreamConsumerMeta :=
  if bytes.length < 24 then none
  else some ⟨readU64 bytes 0, readU64 bytes 8, readU64 bytes 16⟩

structure StreamPelEntry where
  lastDeliveryTimeMs : UInt64
  lastDeliveryCount : UInt64
  consumerName : String
  deriving DecidableEq

def StreamPelEntry.encode (p : StreamPelEntry) : Bytes :=
  p.lastDeliveryTimeMs.toBeBytes ++ p.lastDeliveryCount.toBeBytes ++
    (UInt64.ofNat (textBytes p.consumerName).length).toBeBytes ++ textBytes p.consumerName

/-- The length of the name takes eight bytes, or four in an older layout. -/
def StreamPelEntry.decode (bytes : Bytes) : Option StreamPelEntry :=
  let named (start len : ℕ) : Option StreamPelEntry :=
    (fromUtf8 (slice bytes start len)).map fun name => ⟨readU64 bytes 0, readU64 bytes 8, name⟩
  if bytes.length ≥ 24 ∧ bytes.length ≥ 24 + (readU64 bytes 16).toNat then
    named 24 (readU64 bytes 16).toNat
  else if bytes.length ≥ 20 ∧ bytes.length ≥ 20 + (readU32 bytes 16).toNat then
    named 20 (readU32 bytes 16).toNat
  else none

/-! ## Lag -/

def streamRangeHasTombstones (m : StreamMeta) (startId : StreamId) : Bool :=
  if m.base.size = 0 ∨ m.maxDeletedEntryId.isMin then false
  else if m.maxDeletedEntryId < m.firstEntryId then false
  else decide (startId ≤ m.maxDeletedEntryId ∧ m.maxDeletedEntryId ≤ .max)

def streamEstimateDistanceFromFirstEverEntry (m : StreamMeta) (id : StreamId) : Int64 :=
  if m.entriesAdded = 0 then 0
  else if m.base.size = 0 ∧ id < m.lastEntryId then m.entriesAdded.toInt64
  else if id = m.lastEntryId then m.entriesAdded.toInt64
  else if m.lastEntryId < id then -1
  else if m.maxDeletedEntryId.isMin ∨ m.maxDeletedEntryId < m.firstEntryId then
    if id < m.firstEntryId then (m.entriesAdded.satSub m.base.size).toInt64
    else if id = m.firstEntryId then (m.entriesAdded.satSub m.base.size + 1).toInt64
    else -1
  else -1

def invalidLag : UInt64 := 0xFFFFFFFFFFFFFFFF

def checkLagValid (m : StreamMeta) (g : StreamConsumerGroupMeta) : StreamConsumerGroupMeta :=
  if m.entriesAdded = 0 then { g with lag := 0 }
  else if g.entriesRead ≠ -1 ∧ streamRangeHasTombstones m g.lastDeliveredId = false then
    { g with lag := m.entriesAdded.satSub g.entriesRead.toUInt64 }
  else
    let entriesRead := streamEstimateDistanceFromFirstEverEntry m g.lastDeliveredId
    if entriesRead ≠ -1 then { g with lag := m.entriesAdded.satSub entriesRead.toUInt64 }
    else { g with lag := invalidLag }

/-! ## Commands -/

section
variable (s : Store) (kc : KeyComposer) (key : Key) (nowMs : UInt64)

def streamGroupMeta (kc : KeyComposer) (key : Key) (group : String) : Bytes :=
  kc.composeSubkeyStack KeyTag.streamGroup.asSlice key.bytes (textBytes group)

def streamConsumerMeta (kc : KeyComposer) (key : Key) (group consumer : String) : Bytes :=
  kc.composeOppvSubkeyStack KeyTag.streamConsumer.asSlice key.bytes (textBytes group)
    (textBytes consumer)

def streamPelItem (kc : KeyComposer) (key : Key) (group : String) (id : StreamId) : Bytes :=
  kc.composeOppvSubkeyStack KeyTag.streamPel.asSlice key.bytes (textBytes group) (encodeId id)

def streamPelPrefix (kc : KeyComposer) (key : Key) (group : String) : Bytes :=
  kc.composeOppvSubkeyStack KeyTag.streamPel.asSlice key.bytes (textBytes group) []

def groupStartId (m : StreamMeta) (lastId : String) : Except Error StreamId :=
  if lastId = "$" then .ok m.lastEntryId else StreamId.parse lastId

def streamGroupCreate (version : UInt64) (group lastId : String) (mkstream : Bool)
    (entriesRead : Option Int64) : Except Error (Unit × Batch) := do
  let found ← getStreamMeta s kc key nowMs
  if found.isNone && !mkstream then .error (.invalidData errXgroupKeyRequireExist)
  else if s.data.contains (streamGroupMeta kc key group) then .error (.redis errGroupBusy)
  else
    let m := found.getD (.new 0 version)
    let lastDeliveredId ← groupStartId m lastId
    let g : StreamConsumerGroupMeta := { lastDeliveredId, entriesRead := entriesRead.getD (-1) }
    let residue := if found.isNone then cleanStreamResidue s kc key else []
    let m := { m with groupNumber := m.groupNumber + 1 }
    return ((), residue ++ [.insertData (streamGroupMeta kc key group) g.encode,
      .insertMeta (streamMetaKey kc key) m.encode])

/-- What a delivery has changed so far. -/
structure Delivery where
  group : StreamConsumerGroupMeta
  consumer : StreamConsumerMeta
  maxId : StreamId := .min
  ops : Batch := []

def Delivery.step (group consumer : String) (noack : Bool) (d : Delivery) (id : StreamId) : Delivery :=
  let d := { d with maxId := if d.maxId < id then id else d.maxId }
  if noack then d
  else { d with
    ops := d.ops ++ [.insertData (streamPelItem kc key group id)
      (StreamPelEntry.encode ⟨nowMs, 1, consumer⟩)]
    group := { d.group with
      entriesRead := d.group.entriesRead + 1
      pendingNumber := d.group.pendingNumber + 1 }
    consumer := { d.consumer with pendingNumber := d.consumer.pendingNumber + 1 } }

def StreamConsumerGroupMeta.advanced (g : StreamConsumerGroupMeta) (maxId : StreamId) :
    StreamConsumerGroupMeta :=
  if g.lastDeliveredId < maxId then { g with lastDeliveredId := maxId } else g

def pendingLoop (consumer : String) (startId : StreamId) (count : Option ℕ) (pelPrefix : Bytes) :
    List (Bytes × Bytes) → List StreamEntry × Batch → List StreamEntry × Batch
  | [], found => found
  | (k, v) :: rest, found =>
    let hit := do
      let id ← parseStreamIdFromSubkey (k.drop pelPrefix.length)
      let pel ← StreamPelEntry.decode v
      if startId ≤ id ∧ pel.consumerName = consumer then
        let item ← s.data.get (streamItem kc key id)
        return (id, pel, item)
      else none
    match hit with
    | none => pendingLoop consumer startId count pelPrefix rest found
    | some (id, pel, item) =>
      let entries := found.1 ++ [(id, (decodeStreamEntryFields item).getD [])]
      let pel := { pel with lastDeliveryCount := pel.lastDeliveryCount + 1, lastDeliveryTimeMs := nowMs }
      let found := (entries, found.2 ++ [WriteOp.insertData k pel.encode])
      if count.any fun c => decide (c ≤ entries.length) then found
      else pendingLoop consumer startId count pelPrefix rest found

def streamReadgroup (group consumer start : String) (count : Option ℕ) (noack : Bool) :
    Except Error (List StreamEntry × Batch) := do
  if (← getStreamMeta s kc key nowMs).isNone then .error (.notFound errStreamNotFound)
  else
    match s.data.get (streamGroupMeta kc key group) with
    | none => .error (.notFound errGroupNotFound)
    | some groupBytes =>
      let g := (StreamConsumerGroupMeta.decode groupBytes).getD {}
      let found := s.data.get (streamConsumerMeta kc key group consumer)
      let g := if found.isNone then { g with consumerNumber := g.consumerNumber + 1 } else g
      let c : StreamConsumerMeta := { (found.bind StreamConsumerMeta.decode).getD {} with
        lastAttemptedInteractionMs := nowMs
        lastSuccessfulInteractionMs := nowMs }
      if start = ">" then
        let entries ← streamRangeWithOptions s kc key nowMs
          { start := g.lastDeliveredId, count, excludeStart := true }
        let d := (entries.map Prod.fst).foldl (Delivery.step kc key nowMs group consumer noack)
          { group := g, consumer := c }
        return (entries, d.ops ++
          [.insertData (streamGroupMeta kc key group) (d.group.advanced d.maxId).encode,
            .insertData (streamConsumerMeta kc key group consumer) d.consumer.encode])
      else
        let startId ← StreamId.parse start
        let (entries, ops) := pendingLoop s kc key nowMs consumer startId count
          (streamPelPrefix kc key group) (SortedMap.prefixed (streamPelPrefix kc key group) s.data) ([], [])
        return (entries, ops ++ [.insertData (streamGroupMeta kc key group) g.encode,
          .insertData (streamConsumerMeta kc key group consumer) c.encode])

def streamInfoGroups : Except Error (List (String × StreamConsumerGroupMeta)) := do
  match ← getStreamMeta s kc key nowMs with
  | none => .error (.notFound errStreamNotFound)
  | some m =>
    let pre := kc.composePrefixStack KeyTag.streamGroup.asSlice key.bytes
    return (SortedMap.prefixed pre s.data).filterMap fun x =>
      (StreamConsumerGroupMeta.decode x.2).map fun g =>
        ((fromUtf8 (x.1.drop pre.length)).getD "", checkLagValid m g)

end

end

end Wedb
