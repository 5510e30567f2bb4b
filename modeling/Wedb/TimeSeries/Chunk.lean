import Wedb.TimeSeries.Gorilla
import Wedb.TimeSeries.Meta

/-!
# Which timestamps are restored

A change of a gap is kept modulo thirty-two bits. A gap follows from the one before where
its change fits them, and the greatest timestamp of all is also reached by a gap that is
too large, since timestamps saturate. The gaps of a list that is restored stay far below
the sign bit.
-/

namespace Wedb

section

variable {prevTs prevDelta ts cur : UInt64}

def gapChange (prevTs prevDelta ts : UInt64) : ℤ := ((ts - prevTs).toNat : ℤ) - prevDelta.toNat

/-- The change of a gap fits thirty-two bits, or the greatest timestamp is reached by it. -/
def GapKept (prevTs prevDelta ts : UInt64) : Prop :=
  (-2 ^ 31 ≤ gapChange prevTs prevDelta ts ∧ gapChange prevTs prevDelta ts < 2 ^ 31) ∨
    (ts = UInt64.maxVal ∧
      ((ts - prevTs).toNat : ℤ) ≤ prevDelta.toNat + (gapChange prevTs prevDelta ts).bmod (2 ^ 32))

def GapsKept (prevTs prevDelta : UInt64) : List UInt64 → Prop
  | [] => True
  | ts :: rest => GapKept prevTs prevDelta ts ∧ GapsKept ts (ts - prevTs) rest

/-- The first gap fits thirty-two bits, and every later one is kept. -/
def TimestampsKept : List UInt64 → Prop
  | t0 :: t1 :: rest => (t1 - t0).toNat < 2 ^ 32 ∧ GapsKept t1 (t1 - t0) rest
  | _ => True

theorem codedDod_toInt (dod : Int64) : (codedDod dod).toInt = dod.toInt.bmod (2 ^ 32) := by
  rw [codedDod]
  split_ifs with hsmall
  · rw [Int64.le_iff_toInt_le, Int64.le_iff_toInt_le] at hsmall
    have hrange : -2047 ≤ dod.toInt ∧ dod.toInt ≤ 2048 := hsmall
    exact (Int.bmod_eq_of_le (by omega) (by omega)).symm
  · have hlow : dod.toUInt64.toUInt32.toInt32 = dod.toInt32 := by
      refine Int32.toBitVec_inj.mp ?_
      simp [BitVec.signExtend_eq_setWidth_of_le]
    rw [hlow, Int32.toInt_toInt64, Int64.toInt_toInt32]

theorem dod_toInt (cur prev : UInt64) :
    (cur.toInt64 - prev.toInt64).toInt = ((cur.toNat : ℤ) - prev.toNat).bmod (2 ^ 64) := by
  have hint : ∀ x : UInt64, x.toInt64.toInt = (x.toNat : ℤ).bmod (2 ^ 64) := fun x => by
    rw [← UInt64.ofNat_toNat (x := x), UInt64.toInt64_ofNat', Int64.toInt_ofNat',
      UInt64.ofNat_toNat]
    rfl
  rw [Int64.toInt_sub, hint, hint, Int.sub_bmod_bmod, Int.bmod_sub_bmod]

theorem bmod_range (x : ℤ) : -2 ^ 31 ≤ x.bmod (2 ^ 32) ∧ x.bmod (2 ^ 32) < 2 ^ 31 := by
  have hge := Int.le_bmod (x := x) (m := 2 ^ 32) (by omega)
  have hlt := Int.bmod_lt (x := x) (m := 2 ^ 32) (by omega)
  omega

theorem codedDod_gap (cur prev : UInt64) : (codedDod (cur.toInt64 - prev.toInt64)).toInt =
    ((cur.toNat : ℤ) - prev.toNat).bmod (2 ^ 32) := by
  rw [codedDod_toInt, dod_toInt]
  exact Int.bmod_bmod_of_dvd (by norm_num)

variable (prevTs) in
theorem nextTs_delta {dod : Int64} (hsmall : prevDelta.toNat < 2 ^ 63 - 2 ^ 31)
    (hlow : -2 ^ 31 ≤ dod.toInt) (hhigh : dod.toInt < 2 ^ 31) :
    ((nextTs prevTs prevDelta dod).2.toNat : ℤ) = max (prevDelta.toNat + dod.toInt) 0 := by
  have hprev : prevDelta.toInt64.toInt = prevDelta.toNat := by
    rw [← UInt64.ofNat_toNat (x := prevDelta), UInt64.toInt64_ofNat', UInt64.ofNat_toNat]
    exact Int64.toInt_ofNat_of_lt (by omega)
  have hsum : (prevDelta.toInt64 + dod).toInt = prevDelta.toNat + dod.toInt := by
    rw [Int64.toInt_add, hprev]
    exact Int.bmod_eq_of_le (by omega) (by omega)
  have hmax : (max (prevDelta.toInt64 + dod) 0).toInt = max (prevDelta.toNat + dod.toInt) 0 := by
    have hif : max (prevDelta.toInt64 + dod) 0 =
        if prevDelta.toInt64 + dod ≤ 0 then 0 else prevDelta.toInt64 + dod := rfl
    rw [hif]
    split_ifs with hle
    · rw [Int64.le_iff_toInt_le, hsum] at hle
      exact (max_eq_right hle).symm
    · rw [Int64.le_iff_toInt_le, hsum, not_le] at hle
      rw [hsum]
      exact (max_eq_left hle.le).symm
  have hpos : (0 : Int64) ≤ max (prevDelta.toInt64 + dod) 0 := by
    rw [Int64.le_iff_toInt_le, hmax]
    exact le_max_right _ _
  rw [nextTs, Int64.toNat_toUInt64_of_le hpos, Int64.toNatClampNeg, hmax]
  exact Int.toNat_of_nonneg (le_max_right _ _)

theorem nextTs_eq_iff (hlt : prevTs < ts) (hsmall : prevDelta.toNat < 2 ^ 63 - 2 ^ 31) :
    (nextTs prevTs prevDelta (codedDod ((ts - prevTs).toInt64 - prevDelta.toInt64))).1 = ts ↔
      GapKept prevTs prevDelta ts := by
  have hcoded := codedDod_gap (ts - prevTs) prevDelta
  have hrange := bmod_range (gapChange prevTs prevDelta ts)
  have hdelta := nextTs_delta prevTs hsmall
    (by rw [hcoded]; exact hrange.1) (by rw [hcoded]; exact hrange.2)
  rw [hcoded] at hdelta
  have hsub : (ts - prevTs).toNat = ts.toNat - prevTs.toNat := UInt64.toNat_sub_of_le _ _ hlt.le
  have hlt' : prevTs.toNat < ts.toNat := hlt
  have hts := ts.toNat_lt
  have hmax : ts = UInt64.maxVal ↔ ts.toNat = 2 ^ 64 - 1 := by
    rw [← UInt64.toNat_inj]
    rfl
  have hself : -2 ^ 31 ≤ gapChange prevTs prevDelta ts → gapChange prevTs prevDelta ts < 2 ^ 31 →
      (gapChange prevTs prevDelta ts).bmod (2 ^ 32) = gapChange prevTs prevDelta ts := fun h1 h2 =>
    Int.bmod_eq_of_le (by omega) (by omega)
  change _ = max (prevDelta.toNat + (gapChange prevTs prevDelta ts).bmod (2 ^ 32)) 0 at hdelta
  rw [GapKept, hmax, ← UInt64.toNat_inj, nextTs, UInt64.toNat_satAdd_eq_min]
  change min (prevTs.toNat + (nextTs prevTs prevDelta _).2.toNat) _ = _ ↔ _
  have hchange : gapChange prevTs prevDelta ts = ((ts - prevTs).toNat : ℤ) - prevDelta.toNat := rfl
  generalize (nextTs prevTs prevDelta _).2.toNat = cur' at hdelta ⊢
  generalize (gapChange prevTs prevDelta ts).bmod (2 ^ 32) = b at hdelta hrange hself ⊢
  generalize gapChange prevTs prevDelta ts = change at hchange hself ⊢
  generalize (ts - prevTs).toNat = d at hsub hchange ⊢
  constructor
  · intro heq
    by_cases hrep : -2 ^ 31 ≤ change ∧ change < 2 ^ 31
    · exact .inl hrep
    · exact .inr (by omega)
  · rintro (⟨h1, h2⟩ | ⟨h1, h2⟩)
    · have := hself h1 h2
      omega
    · omega

theorem nextTs_snd (hsmall : prevDelta.toNat < 2 ^ 63 - 2 ^ 31)
    (hlow : -2 ^ 31 ≤ gapChange prevTs prevDelta ts) (hhigh : gapChange prevTs prevDelta ts < 2 ^ 31) :
    (nextTs prevTs prevDelta (codedDod ((ts - prevTs).toInt64 - prevDelta.toInt64))).2 =
      ts - prevTs := by
  have hcoded := codedDod_gap (ts - prevTs) prevDelta
  have hself : (gapChange prevTs prevDelta ts).bmod (2 ^ 32) = gapChange prevTs prevDelta ts :=
    Int.bmod_eq_of_le (by omega) (by omega)
  change (codedDod _).toInt = (gapChange prevTs prevDelta ts).bmod (2 ^ 32) at hcoded
  rw [hself] at hcoded
  have hdelta := nextTs_delta prevTs hsmall (by rw [hcoded]; exact hlow)
    (by rw [hcoded]; exact hhigh)
  rw [hcoded, gapChange] at hdelta
  rw [← UInt64.toNat_inj]
  omega

theorem restoreTs_eq_iff {l : List UInt64} (hsorted : (prevTs :: l).Pairwise (· < ·))
    (hgap : 3 * prevDelta.toNat ≤ prevTs.toNat + 3 * 2 ^ 33) :
    restoreTs prevTs prevDelta ((dodsOf prevTs prevDelta l).map codedDod) = l ↔
      GapsKept prevTs prevDelta l := by
  induction l generalizing prevTs prevDelta with
  | nil => exact iff_of_true rfl trivial
  | cons ts rest ih =>
    have hsorted' := (List.pairwise_cons.mp hsorted).2
    have hlt : prevTs < ts := (List.pairwise_cons.mp hsorted).1 ts (by simp)
    have hlt' : prevTs.toNat < ts.toNat := hlt
    have hprev := prevTs.toNat_lt
    have hsmall : prevDelta.toNat < 2 ^ 63 - 2 ^ 31 := by omega
    have hsub : ts.satSub prevTs = ts - prevTs := if_pos hlt.le
    have hsubNat : (ts - prevTs).toNat = ts.toNat - prevTs.toNat := UInt64.toNat_sub_of_le _ _ hlt.le
    rw [dodsOf, hsub, List.map_cons, restoreTs, List.cons_eq_cons, nextTs_eq_iff hlt hsmall, GapsKept]
    refine and_congr_right fun hkept => ?_
    by_cases hrange : -2 ^ 31 ≤ gapChange prevTs prevDelta ts ∧ gapChange prevTs prevDelta ts < 2 ^ 31
    · have hnext := (nextTs_eq_iff hlt hsmall).mpr hkept
      rw [nextTs_snd hsmall hrange.1 hrange.2, hnext]
      have hchange : gapChange prevTs prevDelta ts = ((ts - prevTs).toNat : ℤ) - prevDelta.toNat := rfl
      exact ih hsorted' (by omega)
    · -- the greatest timestamp is the last one
      obtain ⟨hmax, -⟩ := hkept.resolve_left hrange
      cases rest with
      | nil => exact iff_of_true rfl trivial
      | cons next rest =>
        have hnext : ts.toNat < next.toNat := (List.pairwise_cons.mp hsorted').1 next (by simp)
        have hmaxNat : ts.toNat = 2 ^ 64 - 1 := by
          rw [hmax]
          rfl
        have := next.toNat_lt
        omega

theorem restoredTimestamps_eq_iff {l : List UInt64} (hsorted : l.Pairwise (· < ·)) :
    restoredTimestamps l = l ↔ TimestampsKept l := by
  match l, hsorted with
  | [], _ => exact iff_of_true rfl trivial
  | [t0], _ => exact iff_of_true rfl trivial
  | t0 :: t1 :: rest, hsorted =>
    have hsorted' := (List.pairwise_cons.mp hsorted).2
    have hlt : t0 < t1 := (List.pairwise_cons.mp hsorted).1 t1 (by simp)
    have hlt' : t0.toNat < t1.toNat := hlt
    have hsub : t1.satSub t0 = t1 - t0 := if_pos hlt.le
    have hsubNat : (t1 - t0).toNat = t1.toNat - t0.toNat := UInt64.toNat_sub_of_le _ _ hlt.le
    have ht1 := t1.toNat_lt
    simp only [restoredTimestamps, TimestampsKept, hsub, List.cons_eq_cons, true_and]
    by_cases hfits : (t1 - t0).toNat < 2 ^ 32
    · have hdelta : UInt64.ofNat ((t1 - t0).toNat % 2 ^ 32) = t1 - t0 := by
        rw [Nat.mod_eq_of_lt hfits, UInt64.ofNat_toNat]
      have hfirst : t0.satAdd (t1 - t0) = t1 := by
        rw [← UInt64.toNat_inj, UInt64.toNat_satAdd_eq_min]
        omega
      rw [hdelta, hfirst, restoreTs_eq_iff hsorted' (by omega)]
      exact and_congr_left fun _ => iff_of_true rfl hfits
    · refine iff_of_false (fun h => ?_) (fun h => hfits h.1)
      have hmod : (UInt64.ofNat ((t1 - t0).toNat % 2 ^ 32)).toNat = (t1 - t0).toNat % 2 ^ 32 := by
        rw [UInt64.toNat_ofNat', Nat.mod_eq_of_lt (by omega)]
      have hfirst := congrArg UInt64.toNat h.1
      rw [UInt64.toNat_satAdd_eq_min, hmod] at hfirst
      omega

end

/-!
## Chunks of samples

A chunk is eight bytes of header, with a flag and a count, and either the samples as they
are or the timestamps by the change of their gaps and the values by a codec of their own.
Readers of the boundary take what they need without the rest.
-/

structure TSSample where
  ts : UInt64
  v : F64
  deriving DecidableEq, Repr

/-- The codec of values, which restores them exactly. -/
structure ValueCodec where
  compress : List F64 → Bytes
  decompress : Bytes → Except String (List F64)
  exact : ∀ values, decompress (compress values) = .ok values

structure ChunkHeader where
  isCompressed : Bool
  count : UInt32
  deriving DecidableEq, Repr

namespace ChunkHeader

def encodedSize : ℕ := 8

def encode (h : ChunkHeader) : Bytes :=
  (if h.isCompressed then 1 else 0 : UInt32).toBeBytes ++ h.count.toBeBytes

def decode (bytes : Bytes) : Option ChunkHeader :=
  if bytes.length < 8 then none else some ⟨decide (readU32 bytes 0 ≠ 0), readU32 bytes 4⟩

end ChunkHeader

namespace TSChunk

def encodeSample (s : TSSample) : Bytes := s.ts.toBeBytes ++ s.v.bits.toBeBytes

def encodeUncompressed (samples : List TSSample) : Bytes :=
  (ChunkHeader.encode ⟨false, UInt32.ofNat samples.length⟩) ++ samples.flatMap encodeSample

def encodeSingleUncompressed (sample : TSSample) : Bytes :=
  (0 : UInt32).toBeBytes ++ ((1 : UInt32).toBeBytes ++ encodeSample sample)

def encodeCompressed (codec : ValueCodec) (samples : List TSSample) : Bytes :=
  if samples = [] then encodeUncompressed samples
  else
    let tsPayload := compressTimestamps (samples.map TSSample.ts)
    (ChunkHeader.encode ⟨true, UInt32.ofNat samples.length⟩) ++
      ((UInt32.ofNat tsPayload.length).toBeBytes ++
        (tsPayload ++ codec.compress (samples.map TSSample.v)))

def encodeWithType (codec : ValueCodec) (samples : List TSSample) : ChunkType → Bytes
  | .compressed => encodeCompressed codec samples
  | .uncompressed => encodeUncompressed samples

/-! ## Decoding -/

def errTooShort : Error := .invalidData "ERR TSDB: TSChunk payload data too short"
def errInvalidHeader : Error := .invalidData "ERR TSDB: invalid TSChunk header"
def errCompressedPayload : Error := .invalidData "ERR TSDB: corrupted compressed chunk payload"
def errTsStream : Error := .invalidData "ERR TSDB: corrupted compressed chunk ts stream"
def errLengthMismatch : Error := .invalidData "ERR TSDB: compressed chunk length mismatch"
def errUncompressedShort : Error := .invalidData "ERR TSDB: uncompressed TSChunk payload too short"
def errAlpDecode (e : String) : Error := .invalidData s!"ERR TSDB: ALP decode error: {e}"

def readSamples : ℕ → Bytes → List TSSample
  | 0, _ => []
  | n + 1, bytes => ⟨readU64 bytes 0, ⟨readU64 bytes 8⟩⟩ :: readSamples n (bytes.drop 16)

def decodeCompressed (codec : ValueCodec) (count : ℕ) (payload : Bytes) : Except Error (List TSSample) :=
  if payload.length < 4 then .error errCompressedPayload
  else
    let tsLen := (readU32 payload 0).toNat
    if payload.length < 4 + tsLen then .error errTsStream
    else
      match decompressTimestampsInto (slice payload 4 tsLen) count [] with
      | .error e => .error e
      | .ok timestamps =>
        match codec.decompress (payload.drop (4 + tsLen)) with
        | .error e => .error (errAlpDecode e)
        | .ok values =>
          if timestamps.length ≠ count ∨ values.length ≠ count then .error errLengthMismatch
          else .ok (List.zipWith TSSample.mk timestamps values)

def decodeSamplesInto (codec : ValueCodec) (chunkData : Bytes) (samples : List TSSample) :
    Except Error (List TSSample) :=
  if chunkData = [] then .ok samples
  else if chunkData.length < ChunkHeader.encodedSize then
    if chunkData.length = 8 then .ok (samples ++ [⟨0, ⟨readU64 chunkData 0⟩⟩]) else .error errTooShort
  else
    match ChunkHeader.decode chunkData with
    | none => .error errInvalidHeader
    | some header =>
      if header.count = 0 then .ok samples
      else
        let payload := chunkData.drop ChunkHeader.encodedSize
        if header.isCompressed then
          (decodeCompressed codec header.count.toNat payload).map fun decoded => samples ++ decoded
        else if payload.length < header.count.toNat * 16 then .error errUncompressedShort
        else .ok (samples ++ readSamples header.count.toNat payload)

def decodeSamples (codec : ValueCodec) (chunkData : Bytes) : Except Error (List TSSample) :=
  decodeSamplesInto codec chunkData []

/-! ## Readers of the boundary -/

def openChunk (chunkData : Bytes) : Option (ChunkHeader × Bytes) :=
  if chunkData.length < ChunkHeader.encodedSize then none
  else
    (ChunkHeader.decode chunkData).bind fun header =>
      if header.count = 0 then none else some (header, chunkData.drop ChunkHeader.encodedSize)

def tsStream (payload : Bytes) : Option Bytes :=
  let tsLen := (readU32 payload 0).toNat
  if payload.length < 4 + tsLen then none else some (slice payload 4 tsLen)

def getFirstTimestamp (chunkData : Bytes) : Option UInt64 :=
  (openChunk chunkData).bind fun (header, payload) =>
    if header.isCompressed then if payload.length < 4 + 8 then none else some (readU64 payload 4)
    else if payload.length < 8 then none else some (readU64 payload 0)

def getBoundaryTimestamps (chunkData : Bytes) : Option (UInt64 × UInt64) :=
  (openChunk chunkData).bind fun (header, payload) =>
    if header.isCompressed then
      if payload.length < 4 + 8 then none
      else
        let firstTs := readU64 payload 4
        if header.count = 1 then some (firstTs, firstTs)
        else
          (tsStream payload).bind fun tsPayload =>
            (decompressLastTimestamp tsPayload header.count.toNat).map fun lastTs => (firstTs, lastTs)
    else if payload.length < 8 then none
    else
      let firstTs := readU64 payload 0
      if header.count = 1 then some (firstTs, firstTs)
      else
        let offset := (header.count.toNat - 1) * 16
        if payload.length ≥ offset + 8 then some (firstTs, readU64 payload offset) else none

def getLastTimestamp (chunkData : Bytes) : Option UInt64 :=
  (openChunk chunkData).bind fun (header, payload) =>
    if header.isCompressed then
      if payload.length < 4 then none
      else (tsStream payload).bind fun tsPayload => decompressLastTimestamp tsPayload header.count.toNat
    else
      let offset := (header.count.toNat - 1) * 16
      if payload.length ≥ offset + 8 then some (readU64 payload offset) else none

def getLatestSample (codec : ValueCodec) (chunkData : Bytes) : Except Error (Option (UInt64 × F64)) :=
  match openChunk chunkData with
  | none => .ok none
  | some (header, payload) =>
    if !header.isCompressed then
      let offset := (header.count.toNat - 1) * 16
      if offset + 16 ≤ payload.length then
        .ok (some (readU64 payload offset, ⟨readU64 payload (offset + 8)⟩))
      else .ok none
    else (decodeSamples codec chunkData).map fun samples => samples.getLast?.map fun s => (s.ts, s.v)

def getCount (chunkData : Bytes) : UInt32 :=
  if chunkData.length < ChunkHeader.encodedSize then 0
  else ((ChunkHeader.decode chunkData).map ChunkHeader.count).getD 0

end TSChunk

end Wedb
