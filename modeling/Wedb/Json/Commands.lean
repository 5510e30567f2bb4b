import Wedb.Json.Merge
import Wedb.Key.Family

/-!
# Storing documents

A document is stored as its text, with metadata beside it. A command that sets several paths
keeps the documents that it has changed in a map, whose entries it reads in place of the store,
and writes them when all paths have been set. How text is parsed and printed is a parameter.
-/

namespace Wedb

inductive JsonStorageFormat
  | json
  | cbor
  deriving DecidableEq

namespace JsonStorageFormat

def asU8 : JsonStorageFormat → UInt8
  | json => 0
  | cbor => 1

def ofU8 (b : UInt8) : JsonStorageFormat := if b = 1 then cbor else json

theorem ofU8_asU8 (format : JsonStorageFormat) : ofU8 format.asU8 = format := by
  cases format <;> rfl

end JsonStorageFormat

structure JsonMeta where
  base : KeyMeta
  format : JsonStorageFormat
  deriving DecidableEq

namespace JsonMeta

def new (expireAt version size : UInt64) : JsonMeta := ⟨⟨.json, 0, expireAt, version, size⟩, .json⟩

def newWithVersion (version expireAt size : UInt64) : JsonMeta := .new expireAt version size

def isExpired (m : JsonMeta) (nowMs : UInt64) : Bool := m.base.isExpired nowMs

def setSize (m : JsonMeta) (size : UInt64) : JsonMeta := { m with base := { m.base with size } }

def encode (m : JsonMeta) : Bytes := m.base.encode ++ [m.format.asU8]

def decode (bytes : Bytes) : Option JsonMeta :=
  let first := bytes.headD 0
  let standard :=
    if 27 ≤ bytes.length ∧ first = RedisType.json.asU8 then
      (KeyMeta.decode (bytes.take 26)).map fun base => ⟨base, .ofU8 (bytes.getD 26 0)⟩
    else none
  let compact :=
    if 10 ≤ bytes.length ∧ first &&& KeyMeta.metaTypeMask = RedisType.json.asU8 ∧
        first &&& KeyMeta.meta64bitEncodingMask ≠ 0 then
      (KeyMeta.decode (bytes.take 9)).map fun base => ⟨base, .ofU8 (bytes.getD 9 0)⟩
    else none
  standard.or compact

instance : MetaOps JsonMeta where
  tag := .jsonMeta
  decode := decode
  base := base
  isExpired := isExpired
  encodeBytes := encode

theorem decode_encode {m : JsonMeta} (h : m.base.rtype = .json) : decode m.encode = some m := by
  have hlength : m.base.encode.length = 26 := m.base.encode_length
  have hfirst : (m.base.encode ++ [m.format.asU8]).headD 0 = RedisType.json.asU8 := by
    rw [KeyMeta.encode, h]
    rfl
  have htake : (m.base.encode ++ [m.format.asU8]).take 26 = m.base.encode := by
    rw [List.take_append_of_le_length hlength.ge, List.take_of_length_le hlength.le]
  have hlast : (m.base.encode ++ [m.format.asU8]).getD 26 0 = m.format.asU8 := by
    rw [List.getD_eq_getElem?_getD, List.getElem?_append_right hlength.le, hlength]
    rfl
  rw [decode, encode]
  simp only [hfirst, htake, hlast, KeyMeta.decode_encode, JsonStorageFormat.ofU8_asU8]
  rw [if_pos ⟨by simp [hlength], trivial⟩]
  rfl

theorem rtype_of_keyMeta_decode {first : UInt8} {rest : Bytes} {base : KeyMeta}
    (h : KeyMeta.decode (first :: rest) = some base)
    (hfirst : first = RedisType.json.asU8 ∧ 26 ≤ (first :: rest).length ∨
      first &&& KeyMeta.metaTypeMask = RedisType.json.asU8 ∧ (first :: rest).length < 26) :
    base.rtype = .json := by
  rw [KeyMeta.decode] at h
  rcases hfirst with ⟨rfl, hlong⟩ | ⟨hmask, hshort⟩
  · rw [if_pos ⟨hlong, by decide⟩] at h
    cases h
    rfl
  · rw [if_neg fun hlong => absurd hlong.1 (not_le.mpr hshort)] at h
    simp only [hmask, RedisType.fromU8_asU8, RedisType.isSingleKvType, if_true] at h
    split_ifs at h
    cases h
    rfl

theorem rtype_of_decode {bytes : Bytes} {m : JsonMeta} (h : decode bytes = some m) :
    m.base.rtype = .json := by
  cases bytes with
  | nil => cases h
  | cons first rest =>
    rw [decode, Option.or_eq_some_iff] at h
    rcases h with h | ⟨-, h⟩
    · split_ifs at h with hstandard
      obtain ⟨base, hbase, rfl⟩ := Option.map_eq_some_iff.mp h
      rw [List.take_succ_cons] at hbase
      refine rtype_of_keyMeta_decode hbase (Or.inl ⟨hstandard.2, ?_⟩)
      have hlong := hstandard.1
      rw [List.length_cons] at hlong ⊢
      rw [List.length_take]
      omega
    · split_ifs at h with hcompact
      obtain ⟨base, hbase, rfl⟩ := Option.map_eq_some_iff.mp h
      rw [List.take_succ_cons] at hbase
      refine rtype_of_keyMeta_decode hbase (Or.inr ⟨hcompact.2.1, ?_⟩)
      rw [List.length_cons, List.length_take]
      omega

end JsonMeta

/-! ## Reading and writing documents -/

/-- How text is parsed and printed, with what the serialiser says where it fails. -/
structure JsonCodec where
  parse : Bytes → Except String Json
  print : Json → Except String Bytes

def jsonMetaKey (kc : KeyComposer) (key : Key) : Bytes :=
  kc.composeMetaKeyStack KeyTag.jsonMeta.asSlice key.bytes

def jsonPrefix (kc : KeyComposer) (key : Key) : Bytes :=
  kc.composePrefixStack KeyTag.jsonData.asSlice key.bytes

section
variable (codec : JsonCodec) (s : Store) (kc : KeyComposer) (nowMs : UInt64)

def parseJson (message : String) (text : Bytes) : Except Error Json :=
  match codec.parse text with
  | .ok val => .ok val
  | .error e => .error (.invalidData (message ++ ": " ++ e))

def readJsonMetaAndVal (key : Key) : Except Error (Option (JsonMeta × Json)) :=
  (getMetaChecked JsonMeta s kc key (jsonMetaKey kc key) nowMs).bind fun found =>
    match found with
    | none => .ok none
    | some m =>
      match s.data.get (jsonPrefix kc key) with
      | none => .ok none
      | some payload => (parseJson codec "ERR corrupted JSON" payload).map fun val => some (m, val)

def writeJsonMetaAndVal (key : Key) (m : JsonMeta) (val : Json) : Except Error Batch :=
  match codec.print val with
  | .error e => .error (.invalidData ("ERR JSON serialize: " ++ e))
  | .ok payload => .ok [.insertMeta (jsonMetaKey kc key) (m.setSize (UInt64.ofNat payload.length)).encode,
      .insertData (jsonPrefix kc key) payload]

def jsonDoc (key : Key) : Except Error (Option Json) :=
  (readJsonMetaAndVal codec s kc nowMs key).map fun found => found.map Prod.snd

end

/-! ## The commands -/

structure JsonTriplet where
  key : Key
  path : Text
  json : Bytes

inductive JsonSet
  | nx
  | xx

def JsonSet.refuses (keyExists : Bool) : JsonSet → Bool
  | nx => keyExists
  | xx => !keyExists

section
variable (codec : JsonCodec) (api : ValueApi) (fuel : ℕ) (kc : KeyComposer) (nowMs : UInt64)

def setDoc (existing : Option (JsonMeta × Json)) (path : Text) (newVal : Json) (newMeta : JsonMeta) :
    Except Error (Option (JsonMeta × Json)) :=
  match existing with
  | some (m, rootVal) =>
    (Json.jsonSetPath api fuel rootVal path newVal).map fun result => result.map fun val => (m, val)
  | none =>
    if JsonPath.isRootPath (JsonPath.trim path) then .ok (some (newMeta, newVal))
    else .error Json.errNewObjectsMustBeCreatedAtRoot

def newJsonMeta (version : UInt64) (text : Bytes) : JsonMeta :=
  .newWithVersion version 0 (UInt64.ofNat text.length)

def jsonSet (s : Store) (version : UInt64) (t : JsonTriplet) (optLi : List JsonSet) :
    Except Error (Option (Bool × Batch)) :=
  (parseJson codec "ERR invalid JSON" t.json).bind fun newVal =>
    (readJsonMetaAndVal codec s kc nowMs t.key).bind fun existing =>
      if optLi.any (JsonSet.refuses existing.isSome) then .ok (some (false, []))
      else
        (setDoc api fuel existing t.path newVal (newJsonMeta version t.json)).bind fun result =>
          match result with
          | none => .ok none
          | some (m, val) =>
            (writeJsonMetaAndVal codec kc t.key m val).map fun ops => some (true, ops)

def jsonSetOne (e : Engine) (step : UInt64 × JsonTriplet) : Except Error (Option Engine) :=
  (jsonSet codec api fuel kc nowMs e.store step.1 step.2 []).bind fun plan =>
    match plan with
    | none => .ok none
    | some (_, ops) => (e.commit ops).map some

def setEach (e : Engine) : List (UInt64 × JsonTriplet) → Except Error (Option Engine)
  | [] => .ok (some e)
  | step :: steps => (jsonSetOne codec api fuel kc nowMs e step).bind fun result =>
      match result with
      | none => .ok none
      | some e => setEach e steps

/-- The changed documents, which are walked in any order. -/
abbrev DirtyKeys := List (Key × Json × JsonMeta)

def DirtyKeys.insert (dirtyKeys : DirtyKeys) (key : Key) (val : Json) (m : JsonMeta) : DirtyKeys :=
  (key, val, m) :: dirtyKeys.filter fun entry => entry.1 ≠ key

def pendingOrStored (s : Store) (dirtyKeys : DirtyKeys) (key : Key) :
    Except Error (Option (JsonMeta × Json)) :=
  match dirtyKeys.lookup key with
  | some (val, m) => .ok (some (m, val))
  | none => readJsonMetaAndVal codec s kc nowMs key

def msetStep (s : Store) (dirtyKeys : DirtyKeys) (step : UInt64 × JsonTriplet) :
    Except Error (Option DirtyKeys) :=
  (parseJson codec "ERR invalid JSON" step.2.json).bind fun newVal =>
    (pendingOrStored codec kc nowMs s dirtyKeys step.2.key).bind fun existing =>
      (setDoc api fuel existing step.2.path newVal (newJsonMeta step.1 step.2.json)).map fun result =>
        result.map fun (m, val) => dirtyKeys.insert step.2.key val m

def msetDirty (s : Store) (dirtyKeys : DirtyKeys) :
    List (UInt64 × JsonTriplet) → Except Error (Option DirtyKeys)
  | [] => .ok (some dirtyKeys)
  | step :: steps => (msetStep codec api fuel kc nowMs s dirtyKeys step).bind fun result =>
      match result with
      | none => .ok none
      | some dirtyKeys => msetDirty s dirtyKeys steps

def writeDirty (e : Engine) : DirtyKeys → Except Error Unit × Engine
  | [] => (.ok (), e)
  | (key, val, m) :: dirtyKeys =>
    match (writeJsonMetaAndVal codec kc key m val).bind e.commit with
    | .error err => (.error err, e)
    | .ok e => writeDirty e dirtyKeys

def jsonMset (order : DirtyKeys → DirtyKeys) (e : Engine) (steps : List (UInt64 × JsonTriplet)) :
    Option (Except Error Unit × Engine) :=
  match msetDirty codec api fuel kc nowMs e.store [] steps with
  | .error err => some (.error err, e)
  | .ok none => none
  | .ok (some dirtyKeys) => some (writeDirty codec kc e (order dirtyKeys))

end

/-! ## Reading what was written -/

/-- What has been parsed, and what setting a path has made of it. -/
inductive Composed (codec : JsonCodec) (api : ValueApi) (fuel : ℕ) : Json → Prop
  | parsed {text : Bytes} {val : Json} (h : codec.parse text = .ok val) : Composed codec api fuel val
  | set {rootVal newVal val : Json} {path : Text} (hroot : Composed codec api fuel rootVal)
      (hnew : Composed codec api fuel newVal)
      (h : Json.jsonSetPath api fuel rootVal path newVal = .ok (some val)) : Composed codec api fuel val

/-- Such values are printed, and parsed again as what they were. -/
def ReadsBack (codec : JsonCodec) (api : ValueApi) (fuel : ℕ) : Prop :=
  ∀ val, Composed codec api fuel val →
    ∃ payload, codec.print val = .ok payload ∧ codec.parse payload = .ok val

/-- The key holds no string, and the metadata is that of a live document. -/
structure Writable (s : Store) (kc : KeyComposer) (nowMs : UInt64) (key : Key) (m : JsonMeta) :
    Prop where
  notString : (liveString s kc key nowMs).isSome = false
  json : m.base.rtype = .json
  live : m.isExpired nowMs = false

section
variable {codec : JsonCodec} {api : ValueApi} {fuel : ℕ} {kc : KeyComposer} {nowMs : UInt64}
  {s t : Store} {key : Key} {m : JsonMeta} {val : Json} {payload text : Bytes} {message : String}

theorem jsonPrefix_eq (kc : KeyComposer) (key : Key) :
    jsonPrefix kc key = Addr.phys ⟨kc, key, .sub .jsonData []⟩ := by
  rw [Addr.phys_sub, List.append_nil]
  rfl

theorem isExpired_setSize (h : m.base.rtype = .json) (size : UInt64) (nowMs : UInt64) :
    (m.setSize size).isExpired nowMs = m.isExpired nowMs := by
  simp only [JsonMeta.isExpired, JsonMeta.setSize, KeyMeta.isExpired, KeyMeta.isEmptyableType, h,
    RedisType.isEmptyableType, Bool.not_true, Bool.false_and, Bool.false_eq_true, if_false]

theorem parseJson_eq_ok : parseJson codec message text = .ok val ↔ codec.parse text = .ok val := by
  rw [parseJson]
  cases codec.parse text with
  | ok val' => simp
  | error e => simp

def docWrites (kc : KeyComposer) (key : Key) (m : JsonMeta) (payload : Bytes) : Batch :=
  [.insertMeta (jsonMetaKey kc key) (m.setSize (UInt64.ofNat payload.length)).encode,
    .insertData (jsonPrefix kc key) payload]

theorem writeJsonMetaAndVal_of_print (h : codec.print val = .ok payload) :
    writeJsonMetaAndVal codec kc key m val = .ok (docWrites kc key m payload) := by
  rw [writeJsonMetaAndVal, h]
  rfl

theorem docWrites_ownedBy (kc : KeyComposer) (key : Key) (m : JsonMeta) (payload : Bytes) :
    ∀ o ∈ docWrites kc key m payload, o.OwnedBy kc key .jsonMeta := by
  intro o ho
  rcases List.mem_pair.mp ho with rfl | rfl
  · exact ownedBy_metadata rfl rfl rfl
  · exact ownedBy_sub .jsonData rfl rfl (jsonPrefix_eq kc key)

theorem docWrites_localTo (kc : KeyComposer) (key : Key) (m : JsonMeta) (payload : Bytes) :
    ∀ o ∈ docWrites kc key m payload, o.LocalTo kc key :=
  fun o ho => (docWrites_ownedBy kc key m payload o ho).localTo

theorem metadata_apply_docWrites : (s.apply (docWrites kc key m payload)).metadata =
    s.metadata.insert (jsonMetaKey kc key) (m.setSize (UInt64.ofNat payload.length)).encode := rfl

theorem data_apply_docWrites : (s.apply (docWrites kc key m payload)).data =
    s.data.insert (jsonPrefix kc key) payload := rfl

theorem liveString_apply_docWrites : liveString (s.apply (docWrites kc key m payload)) kc key nowMs =
    liveString s kc key nowMs :=
  liveString_congr (str_at_apply_of_owned (docWrites_ownedBy kc key m payload))

theorem readJsonMetaAndVal_docWrites (h : Writable s kc nowMs key m)
    (hparse : codec.parse payload = .ok val) :
    readJsonMetaAndVal codec (s.apply (docWrites kc key m payload)) kc nowMs key =
      .ok (some (m.setSize (UInt64.ofNat payload.length), val)) := by
  have hmeta : getMetaChecked JsonMeta (s.apply (docWrites kc key m payload)) kc key
      (jsonMetaKey kc key) nowMs = .ok (some (m.setSize (UInt64.ofNat payload.length))) := by
    have hdecode : MetaOps.decode (M := JsonMeta)
        (m.setSize (UInt64.ofNat payload.length)).encode =
          some (m.setSize (UInt64.ofNat payload.length)) := JsonMeta.decode_encode h.json
    have hlive : MetaOps.isExpired (m.setSize (UInt64.ofNat payload.length)) nowMs = false :=
      (isExpired_setSize h.json _ _).trans h.live
    rw [getMetaChecked, liveString_apply_docWrites, h.notString, metadata_apply_docWrites,
      SortedMap.get_insert_self, Option.bind_some, hdecode]
    simp only [Bool.false_eq_true, if_false, hlive]
  rw [readJsonMetaAndVal, hmeta, data_apply_docWrites]
  simp only [Except.bind, SortedMap.get_insert_self, parseJson_eq_ok.mpr hparse, Except.map]

theorem readJsonMetaAndVal_congr
    (h : ∀ slot : Slot, slot.Valid → t.at ⟨kc, key, slot⟩ = s.at ⟨kc, key, slot⟩) :
    readJsonMetaAndVal codec t kc nowMs key = readJsonMetaAndVal codec s kc nowMs key := by
  have hmeta : getMetaChecked JsonMeta t kc key (jsonMetaKey kc key) nowMs =
      getMetaChecked JsonMeta s kc key (jsonMetaKey kc key) nowMs :=
    getMetaChecked_congr (h .str trivial)
      (fun u hu _ => h (.metadata u) (allCompositeMetaTags_isMeta hu))
      (h (.metadata .jsonMeta) rfl)
  have hdata : t.data.get (jsonPrefix kc key) = s.data.get (jsonPrefix kc key) := by
    rw [jsonPrefix_eq]
    exact h (.sub .jsonData []) rfl
  rw [readJsonMetaAndVal, readJsonMetaAndVal, hmeta, hdata]

theorem writable_of_read (h : readJsonMetaAndVal codec s kc nowMs key = .ok (some (m, val))) :
    Writable s kc nowMs key m ∧ ∃ payload, codec.parse payload = .ok val := by
  rw [readJsonMetaAndVal] at h
  obtain ⟨found, hmeta, h⟩ := bind_eq_ok h
  cases found with
  | none => cases h
  | some m' =>
    simp only [Except.bind] at h
    cases hget : s.data.get (jsonPrefix kc key) with
    | none =>
      rw [hget] at h
      cases h
    | some payload =>
      simp only [hget] at h
      cases hparse : parseJson codec "ERR corrupted JSON" payload with
      | error e =>
        rw [hparse] at h
        cases h
      | ok val' =>
        rw [hparse] at h
        cases h
        obtain ⟨hstr, hlive, v, -, hdecode⟩ := getMetaChecked_eq_some hmeta
        exact ⟨⟨hstr, JsonMeta.rtype_of_decode hdecode, hlive⟩, payload, parseJson_eq_ok.mp hparse⟩

theorem writable_new (h : readJsonMetaAndVal codec s kc nowMs key = .ok none) (version : UInt64)
    (text : Bytes) : Writable s kc nowMs key (newJsonMeta version text) := by
  refine ⟨?_, rfl, ?_⟩
  · by_contra hstr
    rw [Bool.not_eq_false] at hstr
    rw [readJsonMetaAndVal, getMetaChecked, if_pos hstr] at h
    cases h
  · simp [newJsonMeta, JsonMeta.newWithVersion, JsonMeta.new, JsonMeta.isExpired, KeyMeta.isExpired,
      KeyMeta.isEmptyableType, RedisType.isEmptyableType]

theorem Writable.of_at (h : Writable s kc nowMs key m)
    (hat : t.at ⟨kc, key, .str⟩ = s.at ⟨kc, key, .str⟩) : Writable t kc nowMs key m :=
  ⟨by rw [liveString_congr hat, h.notString], h.json, h.live⟩

end

/-! ## The changed documents go before the stored ones -/

/-- The store after single sets, as it is seen through the changed documents: these are the ones
that it holds now, and everything else is as it was. -/
structure Shadows (codec : JsonCodec) (api : ValueApi) (fuel : ℕ) (kc : KeyComposer)
    (nowMs : UInt64) (s t : Store) (dirtyKeys : DirtyKeys) : Prop where
  others : ∀ kc' key', ¬(kc' = kc ∧ (dirtyKeys.lookup key').isSome = true) →
    ∀ slot : Slot, slot.Valid → t.at ⟨kc', key', slot⟩ = s.at ⟨kc', key', slot⟩
  pending : ∀ key val m, dirtyKeys.lookup key = some (val, m) → Writable s kc nowMs key m ∧
    Composed codec api fuel val ∧ ∃ m', readJsonMetaAndVal codec t kc nowMs key = .ok (some (m', val))
  within : ∀ p k, ((s.part p).get k).isSome = true → ((t.part p).get k).isSome = true
  nodup : (dirtyKeys.map Prod.fst).Nodup

section
variable {codec : JsonCodec} {api : ValueApi} {fuel : ℕ} {kc : KeyComposer} {nowMs : UInt64}
  {s t : Store} {key key' : Key} {m m' : JsonMeta} {val : Json} {payload : Bytes}
  {dirtyKeys : DirtyKeys}

theorem DirtyKeys.lookup_insert : (dirtyKeys.insert key val m).lookup key' =
    if key' = key then some (val, m) else dirtyKeys.lookup key' := by
  rw [DirtyKeys.insert, List.lookup_cons]
  by_cases h : key' = key
  · rw [if_pos h, beq_iff_eq.mpr h]
  · rw [if_neg h, beq_false_of_ne h]
    simp only []
    induction dirtyKeys with
    | nil => rfl
    | cons entry dirtyKeys ih =>
      rw [List.filter_cons]
      by_cases hentry : entry.1 = key
      · rw [if_neg (by simpa using hentry), ih, List.lookup_cons,
          beq_false_of_ne fun heq => h (heq.trans hentry)]
      · rw [if_pos (by simpa using hentry), List.lookup_cons, List.lookup_cons, ih]

theorem DirtyKeys.nodup_insert (h : (dirtyKeys.map Prod.fst).Nodup) :
    ((dirtyKeys.insert key val m).map Prod.fst).Nodup := by
  rw [DirtyKeys.insert, List.map_cons, List.nodup_cons]
  refine ⟨fun hmem => ?_, h.sublist (List.filter_sublist.map Prod.fst)⟩
  obtain ⟨entry, hentry, hkey⟩ := List.mem_map.mp hmem
  exact absurd hkey (by simpa using (List.mem_filter.mp hentry).2)

theorem isSome_get_docWrites (p : Partition) (k : Bytes) (h : ((t.part p).get k).isSome = true) :
    (((t.apply (docWrites kc key m payload)).part p).get k).isSome = true := by
  cases p with
  | data =>
    simp only [Store.part, data_apply_docWrites, SortedMap.get_insert] at h ⊢
    split_ifs
    · rfl
    · exact h
  | metadata =>
    simp only [Store.part, metadata_apply_docWrites, SortedMap.get_insert] at h ⊢
    split_ifs
    · rfl
    · exact h

theorem Shadows.write (h : Shadows codec api fuel kc nowMs s t dirtyKeys)
    (hs : Writable s kc nowMs key m) (ht : Writable t kc nowMs key m')
    (hval : Composed codec api fuel val) (hparse : codec.parse payload = .ok val) :
    Shadows codec api fuel kc nowMs s (t.apply (docWrites kc key m' payload))
      (dirtyKeys.insert key val m) := by
  have hlocal := docWrites_localTo kc key m' payload
  refine ⟨fun kc' key' hnot slot hslot => ?_, fun key' val' m'' hlookup => ?_, fun p k hk => ?_,
    DirtyKeys.nodup_insert h.nodup⟩
  · rw [DirtyKeys.lookup_insert] at hnot
    have hne : ¬(kc' = kc ∧ key' = key) := by
      rintro ⟨hkc, hkey⟩
      exact hnot ⟨hkc, by rw [if_pos hkey]; rfl⟩
    rw [at_apply_of_local hlocal hslot hne]
    refine h.others kc' key' (fun hdirty => hnot ⟨hdirty.1, ?_⟩) slot hslot
    rw [if_neg fun hkey => hne ⟨hdirty.1, hkey⟩]
    exact hdirty.2
  · rw [DirtyKeys.lookup_insert] at hlookup
    by_cases hkey : key' = key
    · rw [if_pos hkey] at hlookup
      cases hlookup
      subst hkey
      exact ⟨hs, hval, _, readJsonMetaAndVal_docWrites ht hparse⟩
    · rw [if_neg hkey] at hlookup
      obtain ⟨hwritable, hcomposed, m1, hread⟩ := h.pending key' val' m'' hlookup
      refine ⟨hwritable, hcomposed, m1, ?_⟩
      rw [← hread]
      exact readJsonMetaAndVal_congr fun slot hslot =>
        at_apply_of_local hlocal hslot fun hsame => hkey hsame.2
  · exact isSome_get_docWrites p k (h.within p k hk)

/-- The document that is to be changed is the same for a single set and for many. -/
inductive SameDoc (codec : JsonCodec) (api : ValueApi) (fuel : ℕ) (kc : KeyComposer)
    (nowMs : UInt64) (s t : Store) (key : Key) :
    Except Error (Option (JsonMeta × Json)) → Except Error (Option (JsonMeta × Json)) → Prop
  | failed (e : Error) : SameDoc codec api fuel kc nowMs s t key (.error e) (.error e)
  | absent (hs : ∀ version text, Writable s kc nowMs key (newJsonMeta version text))
      (ht : ∀ version text, Writable t kc nowMs key (newJsonMeta version text)) :
      SameDoc codec api fuel kc nowMs s t key (.ok none) (.ok none)
  | found {m m' : JsonMeta} {val : Json} (hs : Writable s kc nowMs key m)
      (ht : Writable t kc nowMs key m') (hval : Composed codec api fuel val) :
      SameDoc codec api fuel kc nowMs s t key (.ok (some (m', val))) (.ok (some (m, val)))

theorem Shadows.sameDoc (h : Shadows codec api fuel kc nowMs s t dirtyKeys) (key : Key) :
    SameDoc codec api fuel kc nowMs s t key (readJsonMetaAndVal codec t kc nowMs key)
      (pendingOrStored codec kc nowMs s dirtyKeys key) := by
  rw [pendingOrStored]
  cases hlookup : dirtyKeys.lookup key with
  | some entry =>
    obtain ⟨val, m⟩ := entry
    obtain ⟨hs, hval, m', hread⟩ := h.pending key val m hlookup
    rw [hread]
    exact .found hs (writable_of_read hread).1 hval
  | none =>
    have hat := h.others kc key (by simp [hlookup])
    have hsame : readJsonMetaAndVal codec t kc nowMs key = readJsonMetaAndVal codec s kc nowMs key :=
      readJsonMetaAndVal_congr hat
    rw [hsame]
    cases hread : readJsonMetaAndVal codec s kc nowMs key with
    | error e => exact .failed e
    | ok found =>
      cases found with
      | none =>
        exact .absent (writable_new hread) (writable_new (hsame.trans hread))
      | some pair =>
        obtain ⟨m, val⟩ := pair
        obtain ⟨hs, text, hparse⟩ := writable_of_read hread
        exact .found hs (hs.of_at (hat .str trivial)) (.parsed hparse)

theorem sameDoc_setDoc {x y : Except Error (Option (JsonMeta × Json))} {path : Text} {newVal : Json}
    (h : SameDoc codec api fuel kc nowMs s t key x y) (hnew : Composed codec api fuel newVal)
    (version version' : UInt64) (text : Bytes) :
    (∃ e, (x.bind fun existing => setDoc api fuel existing path newVal (newJsonMeta version text)) =
        .error e ∧
      (y.bind fun existing => setDoc api fuel existing path newVal (newJsonMeta version' text)) =
        .error e) ∨
    ((x.bind fun existing => setDoc api fuel existing path newVal (newJsonMeta version text)) =
        .ok none) ∨
    ∃ m m' val, Writable s kc nowMs key m ∧ Writable t kc nowMs key m' ∧
      Composed codec api fuel val ∧
      (x.bind fun existing => setDoc api fuel existing path newVal (newJsonMeta version text)) =
        .ok (some (m', val)) ∧
      (y.bind fun existing => setDoc api fuel existing path newVal (newJsonMeta version' text)) =
        .ok (some (m, val)) := by
  cases h with
  | failed e => exact Or.inl ⟨e, rfl, rfl⟩
  | absent hs ht =>
    simp only [Except.bind, setDoc]
    by_cases hroot : JsonPath.isRootPath (JsonPath.trim path)
    · rw [if_pos hroot, if_pos hroot]
      exact Or.inr (Or.inr ⟨_, _, newVal, hs version' text, ht version text, hnew, rfl, rfl⟩)
    · rw [if_neg hroot, if_neg hroot]
      exact Or.inl ⟨_, rfl, rfl⟩
  | @found m m' val hs ht hval =>
    simp only [Except.bind, setDoc]
    cases hset : Json.jsonSetPath api fuel val path newVal with
    | error e => exact Or.inl ⟨e, rfl, rfl⟩
    | ok result =>
      cases result with
      | none => exact Or.inr (Or.inl rfl)
      | some val' =>
        exact Or.inr (Or.inr ⟨m, m', val', hs, ht, .set hval hnew hset, rfl, rfl⟩)

/-! ## Runs -/

variable {step step' : UInt64 × JsonTriplet} {steps steps' : List (UInt64 × JsonTriplet)}
  {e e' : Engine} {err : Error} {newVal : Json}

def setResult (codec : JsonCodec) (api : ValueApi) (fuel : ℕ) (kc : KeyComposer) (nowMs : UInt64)
    (t : Store) (step : UInt64 × JsonTriplet) (newVal : Json) :
    Except Error (Option (JsonMeta × Json)) :=
  (readJsonMetaAndVal codec t kc nowMs step.2.key).bind fun existing =>
    setDoc api fuel existing step.2.path newVal (newJsonMeta step.1 step.2.json)

theorem jsonSet_of_parse (h : codec.parse step.2.json = .ok newVal) :
    jsonSet codec api fuel kc nowMs t step.1 step.2 [] =
      (setResult codec api fuel kc nowMs t step newVal).bind fun result =>
        match result with
        | none => .ok none
        | some (m, val) =>
          (writeJsonMetaAndVal codec kc step.2.key m val).map fun ops => some (true, ops) := by
  rw [jsonSet, parseJson_eq_ok.mpr h, setResult]
  cases readJsonMetaAndVal codec t kc nowMs step.2.key <;> rfl

theorem msetStep_of_parse (h : codec.parse step.2.json = .ok newVal) :
    msetStep codec api fuel kc nowMs s dirtyKeys step =
      ((pendingOrStored codec kc nowMs s dirtyKeys step.2.key).bind fun existing =>
        setDoc api fuel existing step.2.path newVal (newJsonMeta step.1 step.2.json)).map
          fun result => result.map fun (m, val) => dirtyKeys.insert step.2.key val m := by
  rw [msetStep, parseJson_eq_ok.mpr h]
  cases pendingOrStored codec kc nowMs s dirtyKeys step.2.key <;> rfl

/-- A single set and one of many fail alike, or both make the same document. -/
theorem Shadows.single (hread : ReadsBack codec api fuel)
    (h : Shadows codec api fuel kc nowMs s t dirtyKeys) (hsame : step.2 = step'.2) :
    (∃ err, jsonSet codec api fuel kc nowMs t step.1 step.2 [] = .error err ∧
      msetStep codec api fuel kc nowMs s dirtyKeys step' = .error err) ∨
    jsonSet codec api fuel kc nowMs t step.1 step.2 [] = .ok none ∨
    ∃ ops next, jsonSet codec api fuel kc nowMs t step.1 step.2 [] = .ok (some (true, ops)) ∧
      msetStep codec api fuel kc nowMs s dirtyKeys step' = .ok (some next) ∧
      Shadows codec api fuel kc nowMs s (t.apply ops) next := by
  cases hparse : codec.parse step.2.json with
  | error text =>
    refine Or.inl ⟨.invalidData ("ERR invalid JSON" ++ ": " ++ text), ?_, ?_⟩
    · rw [jsonSet, parseJson, hparse]
      rfl
    · rw [msetStep, parseJson, ← hsame, hparse]
      rfl
  | ok newVal =>
    rw [jsonSet_of_parse hparse, msetStep_of_parse (hsame ▸ hparse), setResult, ← hsame]
    rcases sameDoc_setDoc (h.sameDoc step.2.key) (.parsed hparse) step.1 step'.1 step.2.json with
      ⟨err, hx, hy⟩ | hx | ⟨m, m', val, hs, ht, hval, hx, hy⟩
    · exact Or.inl ⟨err, by rw [hx]; rfl, by rw [hy]; rfl⟩
    · exact Or.inr (Or.inl (by rw [hx]; rfl))
    · obtain ⟨payload, hprint, hback⟩ := hread val hval
      refine Or.inr (Or.inr ⟨docWrites kc step.2.key m' payload, dirtyKeys.insert step.2.key val m,
        ?_, ?_, h.write hs ht hval hback⟩)
      · rw [hx]
        simp only [Except.bind, writeJsonMetaAndVal_of_print hprint, Except.map]
      · rw [hy]
        rfl

theorem Shadows.setEach (hread : ReadsBack codec api fuel)
    (h : Shadows codec api fuel kc nowMs s e.store dirtyKeys)
    (hsame : steps.map Prod.snd = steps'.map Prod.snd)
    (hrun : Wedb.setEach codec api fuel kc nowMs e steps = .ok (some e')) :
    ∃ next, msetDirty codec api fuel kc nowMs s dirtyKeys steps' = .ok (some next) ∧
      Shadows codec api fuel kc nowMs s e'.store next := by
  induction steps generalizing steps' e dirtyKeys with
  | nil =>
    rw [List.map_nil, eq_comm, List.map_eq_nil_iff] at hsame
    subst hsame
    cases hrun
    exact ⟨dirtyKeys, rfl, h⟩
  | cons step steps ih =>
    cases steps' with
    | nil => cases hsame
    | cons step' steps' =>
      rw [List.map_cons, List.map_cons, List.cons.injEq] at hsame
      rw [Wedb.setEach, jsonSetOne] at hrun
      rw [msetDirty]
      rcases h.single hread hsame.1 with ⟨err, hx, hy⟩ | hx | ⟨ops, next, hx, hy, hnext⟩
      · rw [hx] at hrun
        cases hrun
      · rw [hx] at hrun
        cases hrun
      · rw [hx] at hrun
        rw [hy]
        simp only [Except.bind] at hrun ⊢
        cases hcommit : e.commit ops with
        | error err =>
          rw [hcommit] at hrun
          cases hrun
        | ok e1 =>
          simp only [hcommit, Except.map] at hrun
          rw [← Engine.commit_eq_ok hcommit] at hnext
          exact ih hnext hsame.2 hrun

theorem msetDirty_append (before after : List (UInt64 × JsonTriplet)) :
    msetDirty codec api fuel kc nowMs s dirtyKeys (before ++ after) =
      (msetDirty codec api fuel kc nowMs s dirtyKeys before).bind fun result =>
        match result with
        | none => .ok none
        | some next => msetDirty codec api fuel kc nowMs s next after := by
  induction before generalizing dirtyKeys with
  | nil => rfl
  | cons step before ih =>
    rw [List.cons_append, msetDirty, msetDirty]
    cases msetStep codec api fuel kc nowMs s dirtyKeys step with
    | error err => rfl
    | ok result =>
      cases result with
      | none => rfl
      | some next => exact ih

theorem shadows_start (codec : JsonCodec) (api : ValueApi) (fuel : ℕ) (kc : KeyComposer)
    (nowMs : UInt64) (s : Store) : Shadows codec api fuel kc nowMs s s [] where
  others _ _ _ _ _ := rfl
  pending _ _ _ h := by cases h
  within _ _ h := h
  nodup := List.nodup_nil

/-! ## Writing the changed documents -/

theorem Store.PartitionFits.of_keys {a b : SortedMap Bytes Bytes} (hb : Store.PartitionFits b)
    (h : ∀ k, (a.get k).isSome = true → (b.get k).isSome = true) : Store.PartitionFits a := by
  refine ⟨lt_of_le_of_lt (SortedMap.length_le_of_get h) hb.length_lt, fun x hx => ?_⟩
  obtain ⟨y, hy, hyx⟩ := List.mem_map.mp (SortedMap.keys_subset h (List.mem_map_of_mem hx))
  rw [← hyx]
  exact hb.key_lt y hy

theorem Store.Fits.of_keys (ht : t.Fits)
    (h : ∀ p k, ((s.part p).get k).isSome = true → ((t.part p).get k).isSome = true) : s.Fits :=
  ⟨ht.data.of_keys (h .data), ht.metadata.of_keys (h .metadata)⟩

theorem writeDirty_spec (hread : ReadsBack codec api fuel) (ht : t.Fits)
    (hnodup : (dirtyKeys.map Prod.fst).Nodup)
    (hpending : ∀ key val m, (key, val, m) ∈ dirtyKeys → Writable e.store kc nowMs key m ∧
      Composed codec api fuel val ∧ (t.metadata.get (jsonMetaKey kc key)).isSome = true ∧
        (t.data.get (jsonPrefix kc key)).isSome = true)
    (hwithin : ∀ p k, ((e.store.part p).get k).isSome = true → ((t.part p).get k).isSome = true) :
    ∃ e', writeDirty codec kc e dirtyKeys = (.ok (), e') ∧
      (∀ kc' key', ¬(kc' = kc ∧ key' ∈ dirtyKeys.map Prod.fst) →
        ∀ slot : Slot, slot.Valid → e'.store.at ⟨kc', key', slot⟩ = e.store.at ⟨kc', key', slot⟩) ∧
      ∀ key val m, (key, val, m) ∈ dirtyKeys →
        ∃ m', readJsonMetaAndVal codec e'.store kc nowMs key = .ok (some (m', val)) := by
  induction dirtyKeys generalizing e with
  | nil => exact ⟨e, rfl, fun _ _ _ _ _ => rfl, fun _ _ _ h => absurd h List.not_mem_nil⟩
  | cons entry dirtyKeys ih =>
    obtain ⟨key, val, m⟩ := entry
    obtain ⟨hwritable, hcomposed, hmeta, hdata⟩ := hpending key val m List.mem_cons_self
    obtain ⟨payload, hprint, hparse⟩ := hread val hcomposed
    rw [List.map_cons, List.nodup_cons] at hnodup
    have hlocal := docWrites_localTo kc key m payload
    have hstays : ∀ p k, (((e.store.apply (docWrites kc key m payload)).part p).get k).isSome = true →
        ((t.part p).get k).isSome = true := by
      intro p k hk
      cases p with
      | data =>
        simp only [Store.part, data_apply_docWrites, SortedMap.get_insert] at hk ⊢
        split_ifs at hk with hkey
        · rw [← hkey]
          exact hdata
        · exact hwithin .data k hk
      | metadata =>
        simp only [Store.part, metadata_apply_docWrites, SortedMap.get_insert] at hk ⊢
        split_ifs at hk with hkey
        · rw [← hkey]
          exact hmeta
        · exact hwithin .metadata k hk
    obtain ⟨e1, hcommit⟩ : ∃ e1, e.commit (docWrites kc key m payload) = .ok e1 :=
      ⟨_, Engine.commit_of_fits (ht.of_keys hstays)⟩
    have hstore := Engine.commit_eq_ok hcommit
    have hrest : ∀ key' val' m', (key', val', m') ∈ dirtyKeys →
        Writable e1.store kc nowMs key' m' ∧ Composed codec api fuel val' ∧
          (t.metadata.get (jsonMetaKey kc key')).isSome = true ∧
            (t.data.get (jsonPrefix kc key')).isSome = true := by
      intro key' val' m' hmem
      obtain ⟨hw, hc, hpresent⟩ := hpending key' val' m' (List.mem_cons_of_mem _ hmem)
      refine ⟨hw.of_at ?_, hc, hpresent⟩
      rw [hstore]
      refine at_apply_of_local hlocal trivial ?_
      rintro ⟨-, rfl⟩
      exact hnodup.1 (List.mem_map.mpr ⟨_, hmem, rfl⟩)
    obtain ⟨e', hwrite, hothers, hdocs⟩ := ih hnodup.2 hrest (by rw [hstore]; exact hstays)
    refine ⟨e', ?_, fun kc' key' hnot slot hslot => ?_, fun key' val' m' hmem => ?_⟩
    · rw [writeDirty, writeJsonMetaAndVal_of_print hprint]
      simp only [Except.bind, hcommit, hwrite]
    · rw [List.map_cons, List.mem_cons] at hnot
      rw [hothers kc' key' (fun h => hnot ⟨h.1, Or.inr h.2⟩) slot hslot, hstore]
      exact at_apply_of_local hlocal hslot fun h => hnot ⟨h.1, Or.inl h.2⟩
    · rcases List.mem_cons.mp hmem with hhead | htail
      · cases hhead
        refine ⟨_, (readJsonMetaAndVal_congr fun slot hslot => ?_).trans
          (hstore ▸ readJsonMetaAndVal_docWrites hwritable hparse)⟩
        exact hothers kc key (fun h => hnodup.1 h.2) slot hslot
      · exact hdocs key' val' m' htail

theorem mem_of_lookup {entry : Json × JsonMeta} (h : dirtyKeys.lookup key = some entry) :
    (key, entry) ∈ dirtyKeys := by
  induction dirtyKeys with
  | nil => cases h
  | cons first dirtyKeys ih =>
    rw [List.lookup_cons] at h
    by_cases hkey : key = first.1
    · rw [beq_iff_eq.mpr hkey] at h
      simp only [Option.some.injEq] at h
      rw [hkey, ← h]
      exact List.mem_cons_self
    · rw [beq_false_of_ne hkey] at h
      exact List.mem_cons_of_mem first (ih h)

theorem lookup_of_mem (hnodup : (dirtyKeys.map Prod.fst).Nodup) {entry : Json × JsonMeta}
    (h : (key, entry) ∈ dirtyKeys) : dirtyKeys.lookup key = some entry := by
  induction dirtyKeys with
  | nil => cases h
  | cons first dirtyKeys ih =>
    rw [List.map_cons, List.nodup_cons] at hnodup
    rw [List.lookup_cons]
    rcases List.mem_cons.mp h with rfl | hmem
    · rw [beq_self_eq_true]
    · have hne : key ≠ first.1 := by
        rintro rfl
        exact hnodup.1 (List.mem_map.mpr ⟨_, hmem, rfl⟩)
      rw [beq_false_of_ne hne]
      exact ih hnodup.2 hmem

theorem present_of_read (h : readJsonMetaAndVal codec t kc nowMs key = .ok (some (m, val))) :
    (t.metadata.get (jsonMetaKey kc key)).isSome = true ∧
      (t.data.get (jsonPrefix kc key)).isSome = true := by
  rw [readJsonMetaAndVal] at h
  cases hmeta : getMetaChecked JsonMeta t kc key (jsonMetaKey kc key) nowMs with
  | error e =>
    rw [hmeta] at h
    cases h
  | ok found =>
    cases found with
    | none =>
      rw [hmeta] at h
      cases h
    | some m' =>
      obtain ⟨-, -, v, hv, -⟩ := getMetaChecked_eq_some hmeta
      rw [hmeta] at h
      cases hget : t.data.get (jsonPrefix kc key) with
      | none =>
        simp only [Except.bind, hget] at h
        cases h
      | some payload => exact ⟨by rw [hv]; rfl, rfl⟩

theorem Shadows.writeDirty (hread : ReadsBack codec api fuel) {order : DirtyKeys → DirtyKeys}
    (horder : ∀ dirtyKeys, (order dirtyKeys).Perm dirtyKeys)
    (h : Shadows codec api fuel kc nowMs e.store e'.store dirtyKeys) :
    ∃ last, Wedb.writeDirty codec kc e (order dirtyKeys) = (.ok (), last) ∧ ∀ kc' key,
      jsonDoc codec last.store kc' nowMs key = jsonDoc codec e'.store kc' nowMs key := by
  have hperm := horder dirtyKeys
  have hkeys := hperm.map Prod.fst
  have hpending : ∀ key val m, (key, val, m) ∈ order dirtyKeys → Writable e.store kc nowMs key m ∧
      Composed codec api fuel val ∧ (e'.store.metadata.get (jsonMetaKey kc key)).isSome = true ∧
        (e'.store.data.get (jsonPrefix kc key)).isSome = true := by
    intro key val m hmem
    have hlookup := lookup_of_mem h.nodup (hperm.mem_iff.mp hmem)
    obtain ⟨hw, hc, m', hread'⟩ := h.pending key val m hlookup
    exact ⟨hw, hc, present_of_read hread'⟩
  obtain ⟨last, hwrite, hothers, hdocs⟩ := writeDirty_spec hread e'.fits
    (hkeys.nodup_iff.mpr h.nodup) hpending h.within
  refine ⟨last, hwrite, fun kc' key => ?_⟩
  by_cases hdirty : kc' = kc ∧ (dirtyKeys.lookup key).isSome = true
  · obtain ⟨rfl, hsome⟩ := hdirty
    obtain ⟨⟨val, m⟩, hlookup⟩ := Option.isSome_iff_exists.mp hsome
    obtain ⟨m1, hlast⟩ := hdocs key val m (hperm.mem_iff.mpr (mem_of_lookup hlookup))
    obtain ⟨-, -, m2, hfirst⟩ := h.pending key val m hlookup
    rw [jsonDoc, jsonDoc, hlast, hfirst]
    rfl
  · have hclean : ¬(kc' = kc ∧ key ∈ (order dirtyKeys).map Prod.fst) := by
      rintro ⟨hkc, hmem⟩
      obtain ⟨entry, hentry, rfl⟩ := List.mem_map.mp hmem
      refine hdirty ⟨hkc, ?_⟩
      rw [lookup_of_mem h.nodup (hperm.mem_iff.mp hentry)]
      rfl
    have hsame : readJsonMetaAndVal codec last.store kc' nowMs key =
        readJsonMetaAndVal codec e'.store kc' nowMs key :=
      readJsonMetaAndVal_congr fun slot hslot =>
        (hothers kc' key hclean slot hslot).trans (h.others kc' key hdirty slot hslot).symm
    rw [jsonDoc, jsonDoc, hsame]

end

/-! ## A reader of null -/

section
variable {api : ValueApi} {fuel : ℕ}

def nullCodec : JsonCodec where
  parse text := if text = [110, 117, 108, 108] then .ok .null else .error "expected value"
  print _ := .ok [110, 117, 108, 108]

theorem mutateRecursive_null {val : Json} {n : ℕ} {segments : List PathSegment}
    (h : Json.mutateRecursive api (fun _ => .null) fuel .null segments = some (val, n)) :
    val = .null := by
  induction fuel generalizing segments val n with
  | zero => cases h
  | succ fuel ih =>
    cases segments with
    | nil =>
      cases h
      rfl
    | cons segment tail =>
      cases segment with
      | root => exact ih h
      | recursive target =>
        rw [Json.mutateRecursive, Option.bind_eq_some_iff] at h
        obtain ⟨⟨node, m⟩, hnode, hrest⟩ := h
        rw [ih hnode] at hrest
        cases hrest
        rfl
      | _ =>
        cases h
        rfl

theorem insertBelow_null {parents : List PathSegment} {last : PathSegment}
    {val : Json} : Json.insertBelow .null parents last .null ≠ .ok (some val) := by
  intro h
  cases parents with
  | nil => cases last <;> cases h
  | cons parent parents => cases parent <;> cases h

theorem mutatePathValues_null {val : Json} {n : ℕ} {path : Text}
    (h : Json.mutatePathValues api (fun _ => .null) fuel .null path = .ok (some (val, n))) :
    val = .null := by
  rw [Json.mutatePathValues] at h
  split_ifs at h with hroot
  · cases h
    rfl
  · cases hsimple : JsonPath.extractSimpleField (JsonPath.trim path) with
    | some name =>
      rw [hsimple] at h
      cases h
      rfl
    | none =>
      rw [hsimple] at h
      obtain ⟨segments, -, hsegments⟩ := JsonPath.exists_ok_of_map h
      exact mutateRecursive_null hsegments

theorem jsonSetPath_null {val : Json} {path : Text}
    (h : Json.jsonSetPath api fuel .null path .null = .ok (some val)) : val = .null := by
  rw [Json.jsonSetPath] at h
  split_ifs at h
  · cases h
    rfl
  · obtain ⟨result, hmutated, h⟩ := bind_eq_ok h
    cases result with
    | none => cases h
    | some pair =>
      obtain ⟨node, n⟩ := pair
      obtain rfl := mutatePathValues_null hmutated
      simp only [Except.bind] at h
      split_ifs at h
      · cases h
        rfl
      · cases hsimple : JsonPath.extractSimpleField (JsonPath.trim path) with
        | some name =>
          rw [hsimple] at h
          cases h
        | none =>
          simp only [hsimple] at h
          cases hparse : JsonPath.parseJsonPath api (JsonPath.trim path) with
          | error err =>
            rw [hparse] at h
            cases h
          | ok segments =>
            simp only [hparse] at h
            cases hlast : (segments.filter fun seg => !Json.isRootSegment seg).reverse with
            | nil =>
              simp only [hlast] at h
              cases h
              rfl
            | cons last parents =>
              simp only [hlast] at h
              exact absurd h insertBelow_null

theorem composed_null {val : Json} (h : Composed nullCodec api fuel val) : val = .null := by
  induction h with
  | parsed h =>
    rw [nullCodec] at h
    simp only at h
    split_ifs at h
    cases h
    rfl
  | set hroot hnew h hrootVal hnewVal =>
    rw [hrootVal, hnewVal] at h
    exact jsonSetPath_null h

theorem readsBack_null : ReadsBack nullCodec api fuel := by
  intro val hval
  rw [composed_null hval]
  exact ⟨_, rfl, rfl⟩

end

/-- Setting many paths leaves the documents that setting one after the other leaves, and it
changes nothing where one of the single sets fails. -/
theorem jsonMset_refines (codec : JsonCodec) (api : ValueApi) (fuel : ℕ) (kc : KeyComposer)
    (nowMs : UInt64) (order : DirtyKeys → DirtyKeys) (e : Engine)
    (steps steps' : List (UInt64 × JsonTriplet)) (hread : ReadsBack codec api fuel)
    (horder : ∀ dirtyKeys, (order dirtyKeys).Perm dirtyKeys)
    (hsame : steps.map Prod.snd = steps'.map Prod.snd) :
    (∀ e', setEach codec api fuel kc nowMs e steps = .ok (some e') →
      ∃ last, jsonMset codec api fuel kc nowMs order e steps' = some (.ok (), last) ∧ ∀ kc' key,
        jsonDoc codec last.store kc' nowMs key = jsonDoc codec e'.store kc' nowMs key) ∧
    ∀ before step after e' err, steps = before ++ step :: after →
      setEach codec api fuel kc nowMs e before = .ok (some e') →
        jsonSet codec api fuel kc nowMs e'.store step.1 step.2 [] = .error err →
          jsonMset codec api fuel kc nowMs order e steps' = some (.error err, e) := by
  have hstart := shadows_start codec api fuel kc nowMs e.store
  constructor
  · intro e' hrun
    obtain ⟨dirtyKeys, hdirty, hshadows⟩ := hstart.setEach hread hsame hrun
    obtain ⟨last, hwrite, hdocs⟩ := hshadows.writeDirty hread horder
    exact ⟨last, by rw [jsonMset, hdirty]; simp only [hwrite], hdocs⟩
  · intro before step after e' err hsteps hrun hfail
    rw [hsteps, List.map_append, List.map_cons, eq_comm, List.map_eq_append_iff] at hsame
    obtain ⟨before', rest, rfl, hbefore, hrest⟩ := hsame
    rw [List.map_eq_cons_iff] at hrest
    obtain ⟨step', after', rfl, hstep, -⟩ := hrest
    obtain ⟨dirtyKeys, hdirty, hshadows⟩ := hstart.setEach hread hbefore.symm hrun
    have hmset : msetStep codec api fuel kc nowMs e.store dirtyKeys step' = .error err := by
      rcases hshadows.single hread hstep.symm with ⟨err', hx, hy⟩ | hx | ⟨ops, next, hx, hy, -⟩
      · rw [hx] at hfail
        cases hfail
        exact hy
      · rw [hx] at hfail
        cases hfail
      · rw [hx] at hfail
        cases hfail
    rw [jsonMset, msetDirty_append, hdirty]
    simp only [Except.bind, msetDirty, hmset]

def nullTriplet (path : Text) : JsonTriplet := ⟨sampleKey, path, [110, 117, 108, 108]⟩

/-- A new document is set at its root, and below null nothing is set. -/
theorem jsonMset_refines_null :
    let api : ValueApi :=
      ⟨fun _ => none, fun _ _ => false, fun _ => .null, fun _ => .null, fun _ => none⟩
    (∃ last, jsonMset nullCodec api 0 ⟨0, 0⟩ 1 id .empty [(3, nullTriplet ['$'])] =
        some (.ok (), last) ∧
      jsonDoc nullCodec last.store ⟨0, 0⟩ 1 sampleKey = .ok (some .null)) ∧
    jsonMset nullCodec api 0 ⟨0, 0⟩ 1 id .empty [(3, nullTriplet ['$']), (4, nullTriplet ['a'])] =
      some (.error Json.errTargetParentNotObject, .empty) := by
  intro api
  have hread : ReadsBack nullCodec api 0 := readsBack_null
  have horder : ∀ dirtyKeys : DirtyKeys, (id dirtyKeys).Perm dirtyKeys := List.Perm.refl
  obtain ⟨e', hrun⟩ : ∃ e', setEach nullCodec api 0 ⟨0, 0⟩ 1 .empty [(1, nullTriplet ['$'])] =
      .ok (some e') := ⟨_, rfl⟩
  have hdoc : jsonDoc nullCodec e'.store ⟨0, 0⟩ 1 sampleKey = .ok (some .null) := by
    cases hrun
    rfl
  constructor
  · obtain ⟨last, hlast, hsame⟩ := (jsonMset_refines nullCodec api 0 ⟨0, 0⟩ 1 id .empty
      [(1, nullTriplet ['$'])] [(3, nullTriplet ['$'])] hread horder rfl).1 e' hrun
    exact ⟨last, hlast, (hsame _ _).trans hdoc⟩
  · refine (jsonMset_refines nullCodec api 0 ⟨0, 0⟩ 1 id .empty
      [(1, nullTriplet ['$']), (2, nullTriplet ['a'])] _ hread horder rfl).2
      [(1, nullTriplet ['$'])] _ [] e' _ rfl hrun ?_
    cases hrun
    rfl

end Wedb
