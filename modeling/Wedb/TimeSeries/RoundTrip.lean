import Wedb.TimeSeries.Chunk

/-!
# Chunks read back

A chunk of samples as they are is read back wherever the number of samples fits its four
bytes. A compressed chunk also needs its timestamps to be restored and the length of their
stream to fit four bytes: a stream cut short is never read to its end.
-/

namespace Wedb

open MsbBits (bits ofBytes takeBits)

/-! ## The width of the code -/

def dodWidth (dod : Int64) : ℕ :=
  if dod = 0 then 1
  else if -63 ≤ dod ∧ dod ≤ 64 then 9
  else if -255 ≤ dod ∧ dod ≤ 256 then 12
  else if -2047 ≤ dod ∧ dod ≤ 2048 then 16
  else 36

/-- The bits that timestamps take: the first one, the first gap and the change of each later one. -/
def codeWidth : List UInt64 → ℕ
  | [] => 0
  | [_] => 64
  | t0 :: t1 :: rest => 64 + (32 + ((dodsOf t1 (t1.satSub t0) rest).map dodWidth).sum)

theorem dodBits_length (dod : Int64) : (dodBits dod).length = dodWidth dod := by
  rw [dodBits, dodWidth]
  split_ifs <;> simp

theorem timestampBits_length (ts : List UInt64) : (timestampBits ts).length = codeWidth ts := by
  match ts with
  | [] => rfl
  | [t0] => simp [timestampBits, codeWidth]
  | t0 :: t1 :: rest =>
    simp [timestampBits, codeWidth, List.length_flatMap, dodBits_length]

theorem restoreTs_length (prevTs prevDelta : UInt64) (dods : List Int64) :
    (restoreTs prevTs prevDelta dods).length = dods.length := by
  induction dods generalizing prevTs prevDelta with
  | nil => rfl
  | cons dod dods ih => rw [restoreTs, List.length_cons, ih, List.length_cons]

theorem restoredTimestamps_length (ts : List UInt64) : (restoredTimestamps ts).length = ts.length := by
  match ts with
  | [] => rfl
  | [t0] => rfl
  | t0 :: t1 :: rest => simp [restoredTimestamps, restoreTs_length, dodsOf_length]

variable {codec : ValueCodec} {ts : List UInt64} {samples : List TSSample} {n : ℕ}

theorem compressTimestamps_length (hts : ts ≠ []) :
    codeWidth ts ≤ 8 * (compressTimestamps ts).length ∧
      8 * (compressTimestamps ts).length < codeWidth ts + 8 := by
  obtain ⟨pad, hpad, hbits⟩ := compressTimestamps_spec hts
  have hlen := congrArg List.length hbits
  rw [MsbBits.ofBytes_length, List.length_append, timestampBits_length] at hlen
  omega

theorem compressTimestamps_ne_nil (hts : ts ≠ []) : compressTimestamps ts ≠ [] := by
  intro hnil
  have hwidth := (compressTimestamps_length hts).1
  rw [hnil] at hwidth
  match ts, hts with
  | [t0], _ => simp [codeWidth] at hwidth
  | t0 :: t1 :: rest, _ => simp [codeWidth] at hwidth

theorem takeStream_compress (hts : ts ≠ []) : ∃ pad : List Bool, pad.length < 8 ∧
    takeStream ts.length (ofBytes (compressTimestamps ts)) = some (restoredTimestamps ts, pad) := by
  obtain ⟨pad, hpad, hbits⟩ := compressTimestamps_spec hts
  exact ⟨pad, hpad, by rw [hbits, takeStream_timestampBits hts]⟩

theorem decompress_compress (hts : ts ≠ []) :
    decompressTimestampsInto (compressTimestamps ts) ts.length [] = .ok (restoredTimestamps ts) := by
  obtain ⟨pad, -, htake⟩ := takeStream_compress hts
  have hspec := decompressTimestampsInto_spec (compressTimestamps_ne_nil hts)
    (List.length_pos_of_ne_nil hts).ne' []
  rw [htake] at hspec
  cases hrun : decompressTimestampsInto (compressTimestamps ts) ts.length [] with
  | error e =>
    rw [hrun] at hspec
    cases hspec
  | ok xs =>
    rw [hrun] at hspec
    exact congrArg Except.ok (Option.some.inj hspec)

theorem decompress_cut (hts : ts ≠ []) (hn : n < (compressTimestamps ts).length) {xs : List UInt64}
    (hrun : decompressTimestampsInto ((compressTimestamps ts).take n) ts.length [] = .ok xs) :
    xs.length ≠ ts.length := by
  have hpos : ts.length ≠ 0 := (List.length_pos_of_ne_nil hts).ne'
  by_cases hnil : (compressTimestamps ts).take n = []
  · rw [decompressTimestampsInto, if_pos (.inr hnil)] at hrun
    cases hrun
    exact hpos.symm
  · have hspec := decompressTimestampsInto_spec hnil hpos []
    rw [hrun] at hspec
    obtain ⟨⟨ys, rest⟩, hys, -⟩ := Option.map_eq_some_iff.mp hspec.symm
    obtain ⟨pad, hpad, htake⟩ := takeStream_compress hts
    have hextend := takeStream_extend hys (ofBytes ((compressTimestamps ts).drop n))
    rw [← MsbBits.ofBytes_append, List.take_append_drop, htake] at hextend
    have hrest := congrArg List.length (Prod.mk.inj (Option.some.inj hextend)).2
    rw [List.length_append, MsbBits.ofBytes_length, List.length_drop] at hrest
    omega

theorem decompressLast_compress (hts : ts ≠ []) :
    decompressLastTimestamp (compressTimestamps ts) ts.length =
      some ((restoredTimestamps ts).getLastD 0) := by
  obtain ⟨pad, -, htake⟩ := takeStream_compress hts
  rw [decompressLastTimestamp_spec (compressTimestamps_ne_nil hts)
    (List.length_pos_of_ne_nil hts).ne', htake]
  rfl

/-! ## Headers -/

theorem ChunkHeader.encode_length (h : ChunkHeader) : h.encode.length = 8 := by
  rw [ChunkHeader.encode, List.length_append, UInt32.toBeBytes_length, UInt32.toBeBytes_length]

theorem ChunkHeader.decode_encode (h : ChunkHeader) (rest : Bytes) :
    ChunkHeader.decode (h.encode ++ rest) = some h := by
  have hlen : ¬(h.encode ++ rest).length < 8 := by
    rw [List.length_append, h.encode_length]
    omega
  have hflag : readU32 (h.encode ++ rest) 0 = if h.isCompressed then 1 else 0 := by
    have hread := KeyMeta.readU32_append (a := []) (b := h.count.toBeBytes ++ rest)
      (if h.isCompressed then 1 else 0) rfl
    rw [encode, List.append_assoc]
    exact hread
  have hcount : readU32 (h.encode ++ rest) 4 = h.count := by
    rw [encode, List.append_assoc]
    exact KeyMeta.readU32_append _ (UInt32.toBeBytes_length _)
  rw [decode, if_neg hlen, hflag, hcount]
  obtain ⟨isCompressed, count⟩ := h
  cases isCompressed <;> rfl

namespace TSChunk

theorem openChunk_append {h : ChunkHeader} (hcount : h.count ≠ 0) (payload : Bytes) :
    openChunk (h.encode ++ payload) = some (h, payload) := by
  have hlen : ¬(h.encode ++ payload).length < ChunkHeader.encodedSize := by
    rw [List.length_append, h.encode_length, ChunkHeader.encodedSize]
    omega
  rw [openChunk, if_neg hlen, h.decode_encode, Option.bind_some, if_neg hcount,
    ChunkHeader.encodedSize, List.drop_left' h.encode_length]

def decodePayload (codec : ValueCodec) (h : ChunkHeader) (payload : Bytes) :
    Except Error (List TSSample) :=
  if h.isCompressed then decodeCompressed codec h.count.toNat payload
  else if payload.length < h.count.toNat * 16 then .error errUncompressedShort
  else .ok (readSamples h.count.toNat payload)

theorem decodeSamples_append {h : ChunkHeader} (hcount : h.count ≠ 0) (payload : Bytes) :
    decodeSamples codec (h.encode ++ payload) = decodePayload codec h payload := by
  have hlen : (h.encode ++ payload).length = 8 + payload.length := by
    rw [List.length_append, h.encode_length]
  have hnil : h.encode ++ payload ≠ [] := by
    intro hnil
    rw [hnil] at hlen
    simp at hlen
    omega
  have hshort : ¬(h.encode ++ payload).length < ChunkHeader.encodedSize := by
    rw [hlen, ChunkHeader.encodedSize]
    omega
  rw [decodeSamples, decodeSamplesInto, if_neg hnil, if_neg hshort, h.decode_encode]
  dsimp only
  rw [if_neg hcount, decodePayload, ChunkHeader.encodedSize, List.drop_left' h.encode_length]
  split_ifs with hcompressed
  · cases decodeCompressed codec h.count.toNat payload <;> rfl
  · rfl
  · rfl

theorem readSamples_length (n : ℕ) (payload : Bytes) : (readSamples n payload).length = n := by
  induction n generalizing payload with
  | zero => rfl
  | succ n ih => rw [readSamples, List.length_cons, ih]

theorem decodeCompressed_length {count : ℕ} {payload : Bytes}
    (h : decodeCompressed codec count payload = .ok samples) : samples.length = count := by
  simp only [decodeCompressed] at h
  split_ifs at h
  cases hts : decompressTimestampsInto (slice payload 4 (readU32 payload 0).toNat) count [] with
  | error e => simp [hts] at h
  | ok timestamps =>
    cases hvalues : codec.decompress (payload.drop (4 + (readU32 payload 0).toNat)) with
    | error e => simp [hts, hvalues] at h
    | ok values =>
      simp only [hts, hvalues] at h
      split_ifs at h with hmismatch
      cases h
      rw [not_or, not_not, not_not] at hmismatch
      rw [List.length_zipWith, hmismatch.1, hmismatch.2, min_self]

theorem decodeSamples_length_lt {chunkData : Bytes} (h : decodeSamples codec chunkData = .ok samples) :
    samples.length < 2 ^ 32 := by
  rw [decodeSamples, decodeSamplesInto] at h
  split_ifs at h with hnil hshort height
  · cases h
    exact Nat.two_pow_pos _
  · cases h
    simp
  · cases hheader : ChunkHeader.decode chunkData with
    | none => simp [hheader] at h
    | some header =>
      have hlt := header.count.toNat_lt
      simp only [hheader] at h
      split_ifs at h with hzero hcompressed hfits
      · cases h
        exact Nat.two_pow_pos _
      · obtain ⟨decoded, hrun, h⟩ := bind_eq_ok h
        cases h
        exact (decodeCompressed_length hrun).trans_lt hlt
      · cases h
        rw [List.nil_append, readSamples_length]
        exact hlt

/-! ## Samples as they are -/

theorem encodeSample_length (s : TSSample) : (encodeSample s).length = 16 := by
  rw [encodeSample, List.length_append, UInt64.toBeBytes_length, UInt64.toBeBytes_length]

theorem flatMap_encodeSample_length (samples : List TSSample) :
    (samples.flatMap encodeSample).length = samples.length * 16 := by
  induction samples with
  | nil => rfl
  | cons s samples ih =>
    rw [List.flatMap_cons, List.length_append, ih, encodeSample_length, List.length_cons]
    ring

theorem readU64_encodeSample (front : Bytes) (s : TSSample) (rest : Bytes) (h : front.length = n) :
    readU64 (front ++ (encodeSample s ++ rest)) n = s.ts ∧
      readU64 (front ++ (encodeSample s ++ rest)) (n + 8) = s.v.bits := by
  rw [encodeSample, List.append_assoc]
  refine ⟨KeyMeta.readU64_append _ h, ?_⟩
  rw [← List.append_assoc]
  exact KeyMeta.readU64_append _ (by rw [List.length_append, h, UInt64.toBeBytes_length])

theorem readSamples_flatMap (samples : List TSSample) :
    readSamples samples.length (samples.flatMap encodeSample) = samples := by
  induction samples with
  | nil => rfl
  | cons s samples ih =>
    obtain ⟨hts, hv⟩ := readU64_encodeSample (n := 0) [] s (samples.flatMap encodeSample) List.length_nil
    rw [List.nil_append] at hts hv
    rw [List.length_cons, List.flatMap_cons, readSamples, hts, hv,
      List.drop_left' (encodeSample_length s), ih]

theorem ofNat_ne_zero (hpos : 0 < n) (hlt : n < 2 ^ 32) : UInt32.ofNat n ≠ 0 := by
  intro hzero
  have hnat := congrArg UInt32.toNat hzero
  rw [UInt32.toNat_ofNat', Nat.mod_eq_of_lt hlt] at hnat
  exact hpos.ne' hnat

/-- What a chunk answers about its samples. -/
structure ReadersAgree (codec : ValueCodec) (chunkData : Bytes) (samples : List TSSample) : Prop where
  decoded : decodeSamples codec chunkData = .ok samples
  count : (getCount chunkData).toNat = samples.length
  first : getFirstTimestamp chunkData = samples.head?.map TSSample.ts
  last : getLastTimestamp chunkData = samples.getLast?.map TSSample.ts
  boundary : getBoundaryTimestamps chunkData = samples.head?.bind fun a =>
    samples.getLast?.map fun b => (a.ts, b.ts)
  latest : getLatestSample codec chunkData = .ok (samples.getLast?.map fun s => (s.ts, s.v))

theorem getCount_append (h : ChunkHeader) (payload : Bytes) : getCount (h.encode ++ payload) = h.count := by
  have hlen : ¬(h.encode ++ payload).length < ChunkHeader.encodedSize := by
    rw [List.length_append, h.encode_length, ChunkHeader.encodedSize]
    omega
  rw [getCount, if_neg hlen, h.decode_encode]
  rfl

theorem head_last (hne : samples ≠ []) : ∃ (first last : TSSample) (rest front : List TSSample),
    samples = first :: rest ∧ samples = front ++ [last] := by
  obtain ⟨first, rest, hfirst⟩ := List.exists_cons_of_ne_nil hne
  exact ⟨first, samples.getLast hne, rest, samples.dropLast, hfirst,
    (List.dropLast_append_getLast hne).symm⟩

theorem readersAgree_uncompressed (hne : samples ≠ []) (hlen : samples.length < 2 ^ 32) :
    ReadersAgree codec (encodeUncompressed samples) samples := by
  have hpos : 0 < samples.length := List.length_pos_of_ne_nil hne
  have hcount : (⟨false, UInt32.ofNat samples.length⟩ : ChunkHeader).count ≠ 0 :=
    ofNat_ne_zero hpos hlen
  have hnat : (UInt32.ofNat samples.length).toNat = samples.length := by
    rw [UInt32.toNat_ofNat', Nat.mod_eq_of_lt hlen]
  have hpayload := flatMap_encodeSample_length samples
  have hopen := openChunk_append hcount (samples.flatMap encodeSample)
  rw [← encodeUncompressed] at hopen
  obtain ⟨first, last, rest, front, hfirst, hlast⟩ := head_last hne
  have hfirstTs : readU64 (samples.flatMap encodeSample) 0 = first.ts := by
    rw [hfirst, List.flatMap_cons]
    exact (readU64_encodeSample [] first _ rfl).1
  have hfront : (front.flatMap encodeSample).length = (samples.length - 1) * 16 := by
    rw [flatMap_encodeSample_length, hlast]
    simp
  have hlastBytes : samples.flatMap encodeSample =
      front.flatMap encodeSample ++ (encodeSample last ++ []) := by
    rw [hlast, List.flatMap_append, List.flatMap_cons, List.flatMap_nil]
  have hlastRead := readU64_encodeSample _ last [] hfront
  rw [← hlastBytes] at hlastRead
  have hhead : samples.head? = some first := by rw [hfirst]; rfl
  have hend : samples.getLast? = some last := by rw [hlast]; simp
  constructor
  · rw [encodeUncompressed, decodeSamples_append hcount, decodePayload, if_neg Bool.false_ne_true]
    dsimp only
    rw [hnat, if_neg (by omega), readSamples_flatMap]
  · rw [encodeUncompressed, getCount_append, hnat]
  · rw [getFirstTimestamp, hopen, hhead]
    simp only [Option.bind_some, Bool.false_eq_true, if_false, hfirstTs, Option.map_some]
    rw [if_neg (by omega)]
  · rw [getLastTimestamp, hopen, hend]
    simp only [Option.bind_some, Bool.false_eq_true, if_false, hnat, hlastRead.1, Option.map_some]
    rw [if_pos (by omega)]
  · rw [getBoundaryTimestamps, hopen, hhead, hend]
    simp only [Option.bind_some, Bool.false_eq_true, if_false, hfirstTs, hnat, hlastRead.1,
      Option.map_some]
    rw [if_neg (by omega)]
    split_ifs with hone hend'
    · have hlength : samples.length = 1 := by rw [← hnat, hone]; rfl
      obtain ⟨x, hx⟩ := List.length_eq_one_iff.mp hlength
      have hxfirst : x = first := by simpa [hx] using hhead
      have hxlast : x = last := by simpa [hx] using hend
      rw [← hxfirst, ← hxlast]
    · rfl
    · omega
  · rw [getLatestSample, hopen, hend]
    simp only [Bool.not_false, if_true, hnat, hlastRead.1, hlastRead.2, Option.map_some]
    rw [if_pos (by omega)]

/-! ## Compressed chunks -/

theorem zipWith_mk (samples : List TSSample) :
    List.zipWith TSSample.mk (samples.map TSSample.ts) (samples.map TSSample.v) = samples := by
  induction samples with
  | nil => rfl
  | cons s samples ih => rw [List.map_cons, List.map_cons, List.zipWith_cons_cons, ih]

theorem map_ts_zipWith {timestamps : List UInt64} {values : List F64}
    (h : timestamps.length = values.length) :
    (List.zipWith TSSample.mk timestamps values).map TSSample.ts = timestamps := by
  induction timestamps generalizing values with
  | nil => rfl
  | cons t timestamps ih =>
    cases values with
    | nil => simp at h
    | cons v values =>
      rw [List.zipWith_cons_cons, List.map_cons, ih (by simpa using h)]

def compressedPayload (codec : ValueCodec) (samples : List TSSample) : Bytes :=
  (UInt32.ofNat (compressTimestamps (samples.map TSSample.ts)).length).toBeBytes ++
    (compressTimestamps (samples.map TSSample.ts) ++ codec.compress (samples.map TSSample.v))

theorem encodeCompressed_eq (hne : samples ≠ []) : encodeCompressed codec samples =
    (ChunkHeader.encode ⟨true, UInt32.ofNat samples.length⟩) ++ compressedPayload codec samples := by
  rw [encodeCompressed, if_neg hne]
  rfl

variable (codec samples) in
theorem readU32_compressedPayload : (readU32 (compressedPayload codec samples) 0).toNat =
    (compressTimestamps (samples.map TSSample.ts)).length % 2 ^ 32 := by
  have hread := KeyMeta.readU32_append (a := []) (n := 0)
    (b := compressTimestamps (samples.map TSSample.ts) ++ codec.compress (samples.map TSSample.v))
    (UInt32.ofNat (compressTimestamps (samples.map TSSample.ts)).length) rfl
  rw [List.nil_append, ← compressedPayload] at hread
  rw [hread, UInt32.toNat_ofNat']

variable (codec samples) in
theorem compressedPayload_length : (compressedPayload codec samples).length =
    4 + ((compressTimestamps (samples.map TSSample.ts)).length +
      (codec.compress (samples.map TSSample.v)).length) := by
  rw [compressedPayload, List.length_append, List.length_append, UInt32.toBeBytes_length]

variable (codec) in
theorem slice_compressedPayload (hn : n ≤ (compressTimestamps (samples.map TSSample.ts)).length) :
    slice (compressedPayload codec samples) 4 n = (compressTimestamps (samples.map TSSample.ts)).take n := by
  rw [compressedPayload, KeyMeta.slice_append_right (UInt32.toBeBytes_length _),
    List.take_append_of_le_length hn]

theorem decodeCompressed_payload (hne : samples ≠ [])
    (hstream : (compressTimestamps (samples.map TSSample.ts)).length < 2 ^ 32) :
    decodeCompressed codec samples.length (compressedPayload codec samples) =
      .ok (List.zipWith TSSample.mk (restoredTimestamps (samples.map TSSample.ts))
        (samples.map TSSample.v)) := by
  have hts : samples.map TSSample.ts ≠ [] := by simpa using hne
  have htsLen := readU32_compressedPayload codec samples
  rw [Nat.mod_eq_of_lt hstream] at htsLen
  have hlen := compressedPayload_length codec samples
  have hslice := slice_compressedPayload codec (n := (compressTimestamps (samples.map TSSample.ts)).length) le_rfl
  rw [List.take_length] at hslice
  have hdrop : (compressedPayload codec samples).drop
      (4 + (compressTimestamps (samples.map TSSample.ts)).length) =
      codec.compress (samples.map TSSample.v) := by
    rw [compressedPayload, ← List.append_assoc]
    exact List.drop_left' (by rw [List.length_append, UInt32.toBeBytes_length])
  have hdecompress := decompress_compress hts
  rw [List.length_map] at hdecompress
  have hlengths : ¬((restoredTimestamps (samples.map TSSample.ts)).length ≠ samples.length ∨
      (samples.map TSSample.v).length ≠ samples.length) := by
    simp [restoredTimestamps_length]
  rw [decodeCompressed, if_neg (by omega)]
  dsimp only
  rw [htsLen, if_neg (by omega), hslice, hdecompress]
  dsimp only
  rw [hdrop, codec.exact]
  dsimp only
  rw [if_neg hlengths]

theorem decodeCompressed_payload_cut (hne : samples ≠ [])
    (hstream : 2 ^ 32 ≤ (compressTimestamps (samples.map TSSample.ts)).length) {xs : List TSSample} :
    decodeCompressed codec samples.length (compressedPayload codec samples) ≠ .ok xs := by
  have hts : samples.map TSSample.ts ≠ [] := by simpa using hne
  have htsLen := readU32_compressedPayload codec samples
  have hcut : (compressTimestamps (samples.map TSSample.ts)).length % 2 ^ 32 <
      (compressTimestamps (samples.map TSSample.ts)).length :=
    (Nat.mod_lt _ (Nat.two_pow_pos 32)).trans_le hstream
  have hslice := slice_compressedPayload codec hcut.le
  intro hrun
  simp only [decodeCompressed] at hrun
  split_ifs at hrun
  rw [htsLen, hslice] at hrun
  cases hdecompress : decompressTimestampsInto ((compressTimestamps (samples.map TSSample.ts)).take
      ((compressTimestamps (samples.map TSSample.ts)).length % 2 ^ 32)) samples.length [] with
  | error e =>
    rw [hdecompress] at hrun
    cases hrun
  | ok timestamps =>
    have hwhole := hdecompress
    rw [← samples.length_map TSSample.ts] at hwhole
    have hcutLength := decompress_cut hts hcut hwhole
    rw [List.length_map] at hcutLength
    rw [hdecompress] at hrun
    dsimp only at hrun
    split at hrun
    · cases hrun
    · rw [if_pos (.inl hcutLength)] at hrun
      cases hrun

theorem timestampBits_cons (t0 : UInt64) (rest : List UInt64) :
    ∃ more, timestampBits (t0 :: rest) = bits 64 t0.toNat ++ more := by
  cases rest with
  | nil => exact ⟨[], (List.append_nil _).symm⟩
  | cons t1 rest => exact ⟨_, rfl⟩

theorem fromBeBytes_take (t0 : UInt64) (rest : List UInt64) :
    8 ≤ (compressTimestamps (t0 :: rest)).length ∧
      UInt64.fromBeBytes ((compressTimestamps (t0 :: rest)).take 8) = t0 := by
  obtain ⟨pad, -, hbits⟩ := compressTimestamps_spec (List.cons_ne_nil t0 rest)
  obtain ⟨more, hmore⟩ := timestampBits_cons t0 rest
  rw [hmore, List.append_assoc] at hbits
  have hlen := congrArg List.length hbits
  rw [MsbBits.ofBytes_length, List.length_append, MsbBits.bits_length] at hlen
  have height : 8 ≤ (compressTimestamps (t0 :: rest)).length := by omega
  refine ⟨height, ?_⟩
  rw [← List.take_append_drop 8 (compressTimestamps (t0 :: rest)), MsbBits.ofBytes_append] at hbits
  have hfirst : (ofBytes ((compressTimestamps (t0 :: rest)).take 8)).length =
      (bits 64 t0.toNat).length := by
    rw [MsbBits.ofBytes_length, MsbBits.bits_length, List.length_take_of_le height]
  have heq := (List.append_inj hbits hfirst).1
  rw [UInt64.fromBeBytes, ← MsbBits.value_ofBytes, heq, MsbBits.value_bits,
    Nat.mod_eq_of_lt t0.toNat_lt, UInt64.ofNat_toNat]

theorem tsStream_compressedPayload
    (hstream : (compressTimestamps (samples.map TSSample.ts)).length < 2 ^ 32) :
    tsStream (compressedPayload codec samples) = some (compressTimestamps (samples.map TSSample.ts)) := by
  have htsLen := readU32_compressedPayload codec samples
  rw [Nat.mod_eq_of_lt hstream] at htsLen
  have hlen := compressedPayload_length codec samples
  rw [tsStream, htsLen, if_neg (by omega), slice_compressedPayload _ le_rfl, List.take_length]

theorem getLastTimestamp_of_stream {chunkData payload tsPayload : Bytes} {header : ChunkHeader}
    (hopen : openChunk chunkData = some (header, payload)) (hcompressed : header.isCompressed = true)
    (hfour : ¬payload.length < 4) (hstream : tsStream payload = some tsPayload) :
    getLastTimestamp chunkData = decompressLastTimestamp tsPayload header.count.toNat := by
  rw [getLastTimestamp, hopen, Option.bind_some]
  dsimp only
  rw [if_pos hcompressed, if_neg hfour, hstream, Option.bind_some]

theorem readersAgree_compressed (hne : samples ≠ []) (hlen : samples.length < 2 ^ 32)
    (hstream : (compressTimestamps (samples.map TSSample.ts)).length < 2 ^ 32)
    (hkept : restoredTimestamps (samples.map TSSample.ts) = samples.map TSSample.ts) :
    ReadersAgree codec (encodeCompressed codec samples) samples := by
  have hpos : 0 < samples.length := List.length_pos_of_ne_nil hne
  have hts : samples.map TSSample.ts ≠ [] := by simpa using hne
  have hcount : (⟨true, UInt32.ofNat samples.length⟩ : ChunkHeader).count ≠ 0 :=
    ofNat_ne_zero hpos hlen
  have hnat : (UInt32.ofNat samples.length).toNat = samples.length := by
    rw [UInt32.toNat_ofNat', Nat.mod_eq_of_lt hlen]
  have hopen := openChunk_append hcount (compressedPayload codec samples)
  rw [← encodeCompressed_eq hne] at hopen
  obtain ⟨first, last, rest, front, hfirst, hlast⟩ := head_last hne
  have hhead : samples.head? = some first := by rw [hfirst]; rfl
  have hend : samples.getLast? = some last := by rw [hlast]; simp
  obtain ⟨height, hbytes⟩ := fromBeBytes_take first.ts (rest.map TSSample.ts)
  rw [← List.map_cons, ← hfirst] at height hbytes
  have hpayload := compressedPayload_length codec samples
  have hfirstTs : readU64 (compressedPayload codec samples) 4 = first.ts := by
    rw [readU64, slice_compressedPayload _ height, hbytes]
  have hlastTs := decompressLast_compress hts
  have hgetLast : (samples.map TSSample.ts).getLastD 0 = last.ts := by
    rw [hlast, List.map_append]
    simp
  rw [hkept, hgetLast, List.length_map] at hlastTs
  have hfour : ¬(compressedPayload codec samples).length < 4 := by
    rw [hpayload]
    exact not_lt.mpr (Nat.le_add_right 4 _)
  have hdecoded : decodeSamples codec (encodeCompressed codec samples) = .ok samples := by
    rw [encodeCompressed_eq hne, decodeSamples_append hcount, decodePayload, if_pos rfl]
    dsimp only
    rw [hnat, decodeCompressed_payload hne hstream, hkept, zipWith_mk]
  constructor
  · exact hdecoded
  · rw [encodeCompressed_eq hne, getCount_append, hnat]
  · rw [getFirstTimestamp, hopen, hhead]
    simp only [Option.bind_some, if_true, hfirstTs, Option.map_some]
    rw [if_neg (by omega)]
  · rw [getLastTimestamp_of_stream hopen rfl hfour (tsStream_compressedPayload hstream), hend]
    dsimp only
    rw [hnat, hlastTs, Option.map_some]
  · rw [getBoundaryTimestamps, hopen, hhead, hend]
    simp only [Option.bind_some, if_true, hfirstTs, tsStream_compressedPayload hstream, hnat, hlastTs,
      Option.map_some]
    rw [if_neg (by omega)]
    split_ifs with hone
    · have hlength : samples.length = 1 := by rw [← hnat, hone]; rfl
      obtain ⟨x, hx⟩ := List.length_eq_one_iff.mp hlength
      have hxfirst : x = first := by simpa [hx] using hhead
      have hxlast : x = last := by simpa [hx] using hend
      rw [← hxfirst, ← hxlast]
    · rfl
  · rw [getLatestSample, hopen, hend]
    simp only [Bool.not_true, Bool.false_eq_true, if_false]
    rw [hdecoded, Except.map, hend]

/-! ## The round trip -/

/-- Both encodings of samples are read back, in full and at their boundary. -/
structure ChunkRoundTrip (codec : ValueCodec) (samples : List TSSample) : Prop where
  compressed : ReadersAgree codec (encodeCompressed codec samples) samples
  uncompressed : ReadersAgree codec (encodeUncompressed samples) samples

/-- The samples and the code of their timestamps can be counted in four bytes, and the gaps
are kept. -/
structure ChunkFits (samples : List TSSample) : Prop where
  count : samples.length < 2 ^ 32
  stream : codeWidth (samples.map TSSample.ts) ≤ 8 * (2 ^ 32 - 1)
  gaps : TimestampsKept (samples.map TSSample.ts)

theorem stream_lt_iff (hts : ts ≠ []) :
    (compressTimestamps ts).length < 2 ^ 32 ↔ codeWidth ts ≤ 8 * (2 ^ 32 - 1) := by
  have hlen := compressTimestamps_length hts
  omega

theorem ChunkRoundTrip.fits (h : ChunkRoundTrip codec samples) (hne : samples ≠ [])
    (hsorted : (samples.map TSSample.ts).Pairwise (· < ·)) : ChunkFits samples := by
  have hts : samples.map TSSample.ts ≠ [] := by simpa using hne
  have hcount := decodeSamples_length_lt h.uncompressed.decoded
  have hnat : (UInt32.ofNat samples.length).toNat = samples.length := by
    rw [UInt32.toNat_ofNat', Nat.mod_eq_of_lt hcount]
  have hheader : (⟨true, UInt32.ofNat samples.length⟩ : ChunkHeader).count ≠ 0 :=
    ofNat_ne_zero (List.length_pos_of_ne_nil hne) hcount
  have hrun := h.compressed.decoded
  rw [encodeCompressed_eq hne, decodeSamples_append hheader, decodePayload, if_pos rfl] at hrun
  dsimp only at hrun
  rw [hnat] at hrun
  have hstream : (compressTimestamps (samples.map TSSample.ts)).length < 2 ^ 32 := by
    by_contra hlarge
    exact decodeCompressed_payload_cut hne (not_lt.mp hlarge) hrun
  refine ⟨hcount, (stream_lt_iff hts).mp hstream, (restoredTimestamps_eq_iff hsorted).mp ?_⟩
  rw [decodeCompressed_payload hne hstream] at hrun
  have hlengths : (restoredTimestamps (samples.map TSSample.ts)).length =
      (samples.map TSSample.v).length := by
    simp [restoredTimestamps_length]
  rw [← map_ts_zipWith hlengths, Except.ok.inj hrun]

/-- A chunk of increasing timestamps is read back exactly where it fits. -/
theorem chunkRoundTrip_iff (codec : ValueCodec) (hne : samples ≠ [])
    (hsorted : (samples.map TSSample.ts).Pairwise (· < ·)) :
    ChunkRoundTrip codec samples ↔ ChunkFits samples := by
  have hts : samples.map TSSample.ts ≠ [] := by simpa using hne
  refine ⟨fun h => h.fits hne hsorted, fun h => ?_⟩
  have hkept := (restoredTimestamps_eq_iff hsorted).mpr h.gaps
  exact ⟨readersAgree_compressed hne h.count ((stream_lt_iff hts).mpr h.stream) hkept,
    readersAgree_uncompressed hne h.count⟩

/-! ## Samples -/

def readValues : ℕ → Bytes → List F64
  | 0, _ => []
  | n + 1, bytes => ⟨readU64 bytes 0⟩ :: readValues n (bytes.drop 8)

theorem readValues_flatMap (values : List F64) :
    readValues values.length (values.flatMap fun v => v.bits.toBeBytes) = values := by
  induction values with
  | nil => rfl
  | cons v values ih =>
    have hread := KeyMeta.readU64_append (a := []) (n := 0)
      (b := values.flatMap fun v => v.bits.toBeBytes) v.bits rfl
    rw [List.nil_append] at hread
    rw [List.length_cons, List.flatMap_cons, readValues, hread,
      List.drop_left' (UInt64.toBeBytes_length _), ih]

def sampleOnes : List F64 := [⟨0x3FF0000000000000⟩, ⟨0x3FF0000000000000⟩, ⟨0x3FF0000000000000⟩]

/-- A codec that writes three ones as their header and their base, and other values as they are. -/
def sampleCodec : ValueCodec where
  compress values :=
    if values = sampleOnes then [1, 3, 0, 0, 1, 0, 0, 0, 0, 0, 0, 0]
    else 3 :: values.flatMap fun v => v.bits.toBeBytes
  decompress bytes :=
    match bytes with
    | 1 :: _ => .ok sampleOnes
    | 3 :: rest => .ok (readValues (rest.length / 8) rest)
    | _ => .error "invalid header"
  exact values := by
    by_cases hones : values = sampleOnes
    · rw [if_pos hones, hones]
      rfl
    · have hlen : (values.flatMap fun v => v.bits.toBeBytes).length / 8 = values.length := by
        rw [List.length_flatMap]
        simp
      rw [if_neg hones]
      change Except.ok (readValues ((values.flatMap fun v => v.bits.toBeBytes).length / 8)
        (values.flatMap fun v => v.bits.toBeBytes)) = Except.ok values
      rw [hlen, readValues_flatMap]

def sampleSamples : List TSSample :=
  [⟨1000, ⟨0x3FF0000000000000⟩⟩, ⟨1060, ⟨0x3FF0000000000000⟩⟩, ⟨1125, ⟨0x3FF0000000000000⟩⟩]

theorem chunkRoundTrip_iff_sample :
    ChunkRoundTrip sampleCodec sampleSamples ∧
      (ChunkRoundTrip sampleCodec sampleSamples ↔ ChunkFits sampleSamples) := by
  have hiff := @chunkRoundTrip_iff sampleSamples sampleCodec (by decide) (by decide)
  have hfits : ChunkFits sampleSamples :=
    ⟨by decide, by decide, by decide, .inl ⟨by decide, by decide⟩, trivial⟩
  exact ⟨hiff.mpr hfits, hiff⟩

/-- A first gap of more than thirty-two bits is lost. -/
theorem chunkRoundTrip_gap_lost : ¬∀ (codec : ValueCodec) (samples : List TSSample), samples ≠ [] →
    (samples.map TSSample.ts).Pairwise (· < ·) → ChunkRoundTrip codec samples := by
  intro hclaim
  have hne : [TSSample.mk 0 ⟨0⟩, ⟨0x100000000, ⟨0⟩⟩] ≠ [] := by simp
  have hsorted : ([TSSample.mk 0 ⟨0⟩, ⟨0x100000000, ⟨0⟩⟩].map TSSample.ts).Pairwise (· < ·) := by decide
  have hfits := (hclaim sampleCodec _ hne hsorted).fits hne hsorted
  exact absurd hfits.gaps.1 (by decide)

end TSChunk

end Wedb
