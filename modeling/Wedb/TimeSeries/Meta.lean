import Wedb.Key.Family
import Wedb.Ordered.Float64

/-!
# Time series metadata

A series records how it stores its samples, what a repeated timestamp does, the series it
is compacted from, its labels, and how many samples it holds between which times. Names
of varying length are framed by four bytes of length.
-/

namespace Wedb

inductive ChunkType
  | uncompressed
  | compressed
  deriving DecidableEq, Repr

namespace ChunkType

def asU8 : ChunkType → UInt8
  | uncompressed => 0
  | compressed => 1

def fromRepr (val : UInt8) : Option ChunkType :=
  [uncompressed, compressed].find? fun t => t.asU8 == val

@[simp] theorem fromRepr_asU8 (t : ChunkType) : fromRepr t.asU8 = some t := by
  cases t <;> decide

end ChunkType

inductive DuplicatePolicy
  | block
  | first
  | last
  | min
  | max
  | sum
  deriving DecidableEq, Repr

namespace DuplicatePolicy

def asU8 : DuplicatePolicy → UInt8
  | block => 0
  | first => 1
  | last => 2
  | min => 3
  | max => 4
  | sum => 5

def fromRepr (val : UInt8) : Option DuplicatePolicy :=
  [block, first, last, min, max, sum].find? fun p => p.asU8 == val

@[simp] theorem fromRepr_asU8 (p : DuplicatePolicy) : fromRepr p.asU8 = some p := by
  cases p <;> decide

end DuplicatePolicy

structure TimeSeriesMeta where
  base : KeyMeta
  retentionTime : UInt64
  chunkSize : UInt64
  chunkType : ChunkType
  duplicatePolicy : DuplicatePolicy
  sourceKey : Bytes
  totalSamples : UInt64
  firstTime : UInt64
  lastTime : UInt64
  labels : List (String × String)
  deriving DecidableEq, Repr

namespace TimeSeriesMeta

def isExpired (m : TimeSeriesMeta) (nowMs : UInt64) : Bool := m.base.isExpired nowMs

def encodeLabels (labels : List (String × String)) : Bytes :=
  labels.flatMap fun l => encodeFramed (textBytes l.1) ++ encodeFramed (textBytes l.2)

def encode (m : TimeSeriesMeta) : Bytes :=
  m.base.encode ++ (m.retentionTime.toBeBytes ++ (m.chunkSize.toBeBytes ++
    (m.chunkType.asU8 :: m.duplicatePolicy.asU8 :: (encodeFramed m.sourceKey ++
      (m.totalSamples.toBeBytes ++ (m.firstTime.toBeBytes ++ (m.lastTime.toBeBytes ++
        ((UInt32.ofNat m.labels.length).toBeBytes ++ encodeLabels m.labels))))))))

def takeU64 (bytes : Bytes) : UInt64 × Bytes :=
  if 8 ≤ bytes.length then (readU64 bytes 0, bytes.drop 8) else (0, bytes)

def decodeTypes (bytes : Bytes) : ChunkType × DuplicatePolicy × Bytes :=
  if 2 ≤ bytes.length then
    ((ChunkType.fromRepr (bytes.getD 0 0)).getD .uncompressed,
      (DuplicatePolicy.fromRepr (bytes.getD 1 0)).getD .block, bytes.drop 2)
  else
    (.uncompressed, (DuplicatePolicy.fromRepr (bytes.getD 0 0)).getD .block, bytes.drop 1)

def decodeSourceKey (bytes : Bytes) : Option (Bytes × Bytes) :=
  if 4 ≤ bytes.length then takeFramed bytes else some ([], bytes)

def decodeLabels : ℕ → Bytes → Option (List (String × String))
  | 0, _ => some []
  | n + 1, bytes =>
    match takeFramed bytes with
    | none => some []
    | some (k, bytes) =>
      match fromUtf8 k with
      | none => none
      | some k =>
        match takeFramed bytes with
        | none => some []
        | some (v, bytes) =>
          match fromUtf8 v with
          | none => none
          | some v => (decodeLabels n bytes).map fun labels => (k, v) :: labels

def decodeCountedLabels (bytes : Bytes) : Option (List (String × String)) :=
  if 4 ≤ bytes.length then decodeLabels (beNat (bytes.take 4)) (bytes.drop 4) else some []

def decode (bytes : Bytes) : Option TimeSeriesMeta :=
  if bytes.length < KeyMeta.encodedSize + 8 + 8 + 1 then none
  else
    (KeyMeta.decode (bytes.take KeyMeta.encodedSize)).bind fun base =>
      let retentionTime := readU64 bytes 26
      let chunkSize := readU64 bytes 34
      let (chunkType, duplicatePolicy, rest) := decodeTypes (bytes.drop 42)
      (decodeSourceKey rest).bind fun (sourceKey, rest) =>
        let (totalSamples, rest) := takeU64 rest
        let (firstTime, rest) := takeU64 rest
        let (lastTime, rest) := takeU64 rest
        (decodeCountedLabels rest).map fun labels =>
          { base, retentionTime, chunkSize, chunkType, duplicatePolicy, sourceKey, totalSamples,
            firstTime, lastTime, labels }

/-! ## What is read back -/

def LabelFramed (label : String × String) : Prop :=
  (textBytes label.1).length < 2 ^ 32 ∧ (textBytes label.2).length < 2 ^ 32

/-- The parts of varying length fit their length fields. -/
structure Framable (m : TimeSeriesMeta) : Prop where
  source : m.sourceKey.length < 2 ^ 32
  count : m.labels.length < 2 ^ 32
  texts : ∀ label ∈ m.labels, LabelFramed label

theorem takeU64_append (x : UInt64) (rest : Bytes) : takeU64 (x.toBeBytes ++ rest) = (x, rest) := by
  have hlen : x.toBeBytes.length = 8 := UInt64.toBeBytes_length x
  have hread : readU64 ([] ++ (x.toBeBytes ++ rest)) 0 = x := KeyMeta.readU64_append x rfl
  rw [List.nil_append] at hread
  rw [takeU64, if_pos (by simp), hread, ← hlen, List.drop_left]

theorem encodeLabels_cons (label : String × String) (labels : List (String × String)) :
    encodeLabels (label :: labels) = encodeFramed (textBytes label.1) ++
      (encodeFramed (textBytes label.2) ++ encodeLabels labels) := by
  rw [encodeLabels, List.flatMap_cons, List.append_assoc]
  rfl

theorem decodeLabels_succ {bytes kbytes rest vbytes rest' : Bytes} {k v : String} (n : ℕ)
    (hk : takeFramed bytes = some (kbytes, rest)) (hktext : fromUtf8 kbytes = some k)
    (hv : takeFramed rest = some (vbytes, rest')) (hvtext : fromUtf8 vbytes = some v) :
    decodeLabels (n + 1) bytes = (decodeLabels n rest').map fun labels => (k, v) :: labels := by
  simp only [decodeLabels, hk, hktext, hv, hvtext]

theorem decodeLabels_encodeLabels {labels : List (String × String)}
    (h : ∀ label ∈ labels, LabelFramed label) :
    decodeLabels labels.length (encodeLabels labels) = some labels := by
  induction labels with
  | nil => rfl
  | cons label labels ih =>
    obtain ⟨hk, hv⟩ := h label (by simp)
    have hrest := ih fun x hx => h x (List.mem_cons_of_mem _ hx)
    rw [List.length_cons, encodeLabels_cons,
      decodeLabels_succ _ (takeFramed_encodeFramed hk _) (fromUtf8_textBytes _)
        (takeFramed_encodeFramed hv _) (fromUtf8_textBytes _), hrest]
    rfl

theorem decodeSourceKey_encodeFramed {sourceKey : Bytes} (h : sourceKey.length < 2 ^ 32)
    (rest : Bytes) : decodeSourceKey (encodeFramed sourceKey ++ rest) = some (sourceKey, rest) := by
  have hfour : 4 ≤ (encodeFramed sourceKey ++ rest).length := by
    rw [encodeFramed, List.append_assoc, List.length_append, UInt32.toBeBytes_length]
    exact Nat.le_add_right 4 _
  rw [decodeSourceKey, if_pos hfour, takeFramed_encodeFramed h]

theorem decodeCountedLabels_encode {labels : List (String × String)} (hcount : labels.length < 2 ^ 32)
    (h : ∀ label ∈ labels, LabelFramed label) :
    decodeCountedLabels ((UInt32.ofNat labels.length).toBeBytes ++ encodeLabels labels) =
      some labels := by
  have hlen : (UInt32.ofNat labels.length).toBeBytes.length = 4 := UInt32.toBeBytes_length _
  have htake : ((UInt32.ofNat labels.length).toBeBytes ++ encodeLabels labels).take 4 =
      (UInt32.ofNat labels.length).toBeBytes := List.take_left' hlen
  have hdrop : ((UInt32.ofNat labels.length).toBeBytes ++ encodeLabels labels).drop 4 =
      encodeLabels labels := List.drop_left' hlen
  rw [decodeCountedLabels, if_pos (by simp), htake, hdrop, beNat_ofNat_u32 hcount,
    decodeLabels_encodeLabels h]

theorem decodeTypes_encode (t : ChunkType) (p : DuplicatePolicy) (rest : Bytes) :
    decodeTypes (t.asU8 :: p.asU8 :: rest) = (t, p, rest) := by
  rw [decodeTypes, if_pos (by simp)]
  simp

variable {m : TimeSeriesMeta}

def encodeRest (m : TimeSeriesMeta) : Bytes :=
  encodeFramed m.sourceKey ++ (m.totalSamples.toBeBytes ++ (m.firstTime.toBeBytes ++
    (m.lastTime.toBeBytes ++ ((UInt32.ofNat m.labels.length).toBeBytes ++ encodeLabels m.labels))))

def encodeFront (m : TimeSeriesMeta) : Bytes :=
  m.base.encode ++ (m.retentionTime.toBeBytes ++ m.chunkSize.toBeBytes)

theorem encode_eq (m : TimeSeriesMeta) :
    m.encode = m.encodeFront ++ (m.chunkType.asU8 :: m.duplicatePolicy.asU8 :: m.encodeRest) := by
  simp [encode, encodeFront, encodeRest]

@[simp] theorem encodeFront_length (m : TimeSeriesMeta) : m.encodeFront.length = 42 := by
  simp [encodeFront, KeyMeta.encodedSize]

theorem decode_of_parts {bytes rest rest₁ rest₂ rest₃ rest₄ : Bytes}
    (hlen : ¬bytes.length < KeyMeta.encodedSize + 8 + 8 + 1)
    (hbase : KeyMeta.decode (bytes.take KeyMeta.encodedSize) = some m.base)
    (hretention : readU64 bytes 26 = m.retentionTime) (hsize : readU64 bytes 34 = m.chunkSize)
    (htypes : decodeTypes (bytes.drop 42) = (m.chunkType, m.duplicatePolicy, rest))
    (hsource : decodeSourceKey rest = some (m.sourceKey, rest₁))
    (htotal : takeU64 rest₁ = (m.totalSamples, rest₂)) (hfirst : takeU64 rest₂ = (m.firstTime, rest₃))
    (hlast : takeU64 rest₃ = (m.lastTime, rest₄)) (hlabels : decodeCountedLabels rest₄ = some m.labels) :
    decode bytes = some m := by
  rw [decode, if_neg hlen, hbase, Option.bind_some, hretention, hsize, htypes]
  simp only [hsource, Option.bind_some, htotal, hfirst, hlast, hlabels, Option.map_some]

theorem decode_encode (h : m.Framable) : decode m.encode = some m := by
  have h26 : m.base.encode.length = 26 := m.base.encode_length
  have hmin : ¬m.encode.length < KeyMeta.encodedSize + 8 + 8 + 1 := by
    simp only [encode_eq, List.length_append, List.length_cons, encodeFront_length,
      KeyMeta.encodedSize]
    omega
  have hbase : KeyMeta.decode (m.encode.take KeyMeta.encodedSize) = some m.base := by
    rw [encode, ← KeyMeta.encode_length m.base, List.take_left, KeyMeta.decode_encode]
  have hretention : readU64 m.encode 26 = m.retentionTime := KeyMeta.readU64_append _ h26
  have hsize : readU64 m.encode 34 = m.chunkSize := by
    rw [encode, ← List.append_assoc]
    exact KeyMeta.readU64_append _ (by simp [h26])
  have hdrop : m.encode.drop 42 = m.chunkType.asU8 :: m.duplicatePolicy.asU8 :: m.encodeRest := by
    rw [encode_eq, List.drop_left' m.encodeFront_length]
  have htypes : decodeTypes (m.encode.drop 42) = (m.chunkType, m.duplicatePolicy, m.encodeRest) := by
    rw [hdrop, decodeTypes_encode]
  exact decode_of_parts hmin hbase hretention hsize htypes
    (decodeSourceKey_encodeFramed h.source _) (takeU64_append _ _) (takeU64_append _ _)
    (takeU64_append _ _) (decodeCountedLabels_encode h.count h.texts)

/-! ## What is read fits its length fields -/

theorem takeFramed_length_lt {bytes field rest : Bytes} (h : takeFramed bytes = some (field, rest)) :
    field.length < 2 ^ 32 := by
  simp only [takeFramed] at h
  split_ifs at h with hfour hfit
  obtain ⟨rfl, -⟩ := Prod.mk.inj (Option.some.inj h)
  have hlt := beNat_lt (bytes.take 4)
  rw [List.length_take_of_le (not_lt.mp hfour)] at hlt
  exact (List.length_take_le _ _).trans_lt hlt

theorem decodeLabels_spec {n : ℕ} {bytes : Bytes} {labels : List (String × String)}
    (h : decodeLabels n bytes = some labels) :
    labels.length ≤ n ∧ ∀ label ∈ labels, LabelFramed label := by
  induction n generalizing bytes labels with
  | zero =>
    obtain rfl := Option.some.inj h
    simp
  | succ n ih =>
    rw [decodeLabels] at h
    cases hk : takeFramed bytes with
    | none =>
      simp only [hk, Option.some.injEq] at h
      simp [← h]
    | some x =>
      obtain ⟨kbytes, rest⟩ := x
      simp only [hk] at h
      cases hktext : fromUtf8 kbytes with
      | none => simp [hktext] at h
      | some k =>
        simp only [hktext] at h
        cases hv : takeFramed rest with
        | none =>
          simp only [hv, Option.some.injEq] at h
          simp [← h]
        | some y =>
          obtain ⟨vbytes, rest'⟩ := y
          simp only [hv] at h
          cases hvtext : fromUtf8 vbytes with
          | none => simp [hvtext] at h
          | some v =>
            simp only [hvtext, Option.map_eq_some_iff] at h
            obtain ⟨labels', hrest, rfl⟩ := h
            obtain ⟨hlen, hframed⟩ := ih hrest
            refine ⟨Nat.succ_le_succ hlen, List.forall_mem_cons.mpr ⟨?_, hframed⟩⟩
            rw [LabelFramed, textBytes_fromUtf8 hktext, textBytes_fromUtf8 hvtext]
            exact ⟨takeFramed_length_lt hk, takeFramed_length_lt hv⟩

theorem decodeCountedLabels_spec {bytes : Bytes} {labels : List (String × String)}
    (h : decodeCountedLabels bytes = some labels) :
    labels.length < 2 ^ 32 ∧ ∀ label ∈ labels, LabelFramed label := by
  rw [decodeCountedLabels] at h
  split_ifs at h with hfour
  · obtain ⟨hlen, hframed⟩ := decodeLabels_spec h
    have hlt := beNat_lt (bytes.take 4)
    rw [List.length_take_of_le hfour] at hlt
    exact ⟨hlen.trans_lt hlt, hframed⟩
  · obtain rfl := Option.some.inj h
    simp

theorem decodeSourceKey_length_lt {bytes sourceKey rest : Bytes}
    (h : decodeSourceKey bytes = some (sourceKey, rest)) : sourceKey.length < 2 ^ 32 := by
  rw [decodeSourceKey] at h
  split_ifs at h
  · exact takeFramed_length_lt h
  · obtain ⟨rfl, -⟩ := Prod.mk.inj (Option.some.inj h)
    simp

theorem framable_of_decode {bytes : Bytes} (h : decode bytes = some m) : m.Framable := by
  rw [decode] at h
  split_ifs at h
  obtain ⟨base, -, h⟩ := Option.bind_eq_some_iff.mp h
  obtain ⟨⟨sourceKey, rest⟩, hsource, h⟩ := Option.bind_eq_some_iff.mp h
  obtain ⟨labels, hlabels, rfl⟩ := Option.map_eq_some_iff.mp h
  obtain ⟨hcount, hframed⟩ := decodeCountedLabels_spec hlabels
  exact ⟨decodeSourceKey_length_lt hsource, hcount, hframed⟩

end TimeSeriesMeta

end Wedb
