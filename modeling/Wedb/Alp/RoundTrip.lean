import Mathlib.Data.List.GetD
import Wedb.Alp.Appended
import Wedb.Alp.Unpacked

/-!
# Packing and unpacking

The packed bytes are the integers as fields of one little-endian number, in as many bytes as
the fields need, and the kernels read the integers back out of any memory that begins with
these bytes. The consumer of differences adds them up to the integers that they came from.
-/

namespace Wedb.Alp

variable {mem mem' : Memory} {w count total : ℕ} {o : ℕ → ℕ}

/-! ## Unpacking -/

inductive UnpackError where
  | unsupportedParams (exp fac bitWidth : ℕ)
  | unexpectedEof (needed available : ℕ)
  deriving DecidableEq, Repr

def rawU64Consumer : Consumer := ⟨false, false, true⟩

def bitunpackU64Raw (mem : Memory) (srcLen count bitWidth : ℕ) : Except UnpackError (List ℕ) :=
  if count = 0 then .ok []
  else if 64 < bitWidth then .error (.unsupportedParams 0 0 bitWidth)
  else if srcLen < packedByteSize count bitWidth then
    .error (.unexpectedEof (packedByteSize count bitWidth) srcLen)
  else .ok (handed (bitunpackCoreConsumer mem bitWidth count srcLen rawU64Consumer))

def bitunpackU64 (mem : Memory) (srcLen count bitWidth : ℕ) (dst : List ℕ) :
    Except UnpackError (List ℕ) :=
  if count = 0 then .ok dst
  else (bitunpackU64Raw mem srcLen count bitWidth).map (dst ++ ·)

section Delta

variable {m : ℕ}

/-- Eight differences at once, added up as a tree that needs the last integer only once. -/
def consume8 (minDelta curr : BitVec m) (c0 c1 c2 c3 c4 c5 c6 c7 : ℕ) : List (BitVec m) :=
  let d0 := u64ToIntAdd c0 minDelta
  let d1 := u64ToIntAdd c1 minDelta
  let d2 := u64ToIntAdd c2 minDelta
  let d3 := u64ToIntAdd c3 minDelta
  let d4 := u64ToIntAdd c4 minDelta
  let d5 := u64ToIntAdd c5 minDelta
  let d6 := u64ToIntAdd c6 minDelta
  let d7 := u64ToIntAdd c7 minDelta
  let s01 := d0 + d1
  let s23 := d2 + d3
  let s45 := d4 + d5
  let s67 := d6 + d7
  let s0123 := s01 + s23
  let s4567 := s45 + s67
  let deltaTotal := s0123 + s4567
  let next := curr + deltaTotal
  let i1 := curr + s01
  let i3 := curr + s0123
  let i5 := i3 + s45
  [curr + d0, i1, i1 + d2, i3, i3 + d4, i5, i5 + d6, next]

def consume1 (minDelta curr : BitVec m) (off : ℕ) : BitVec m := curr + u64ToIntAdd off minDelta

def prefixSums (minDelta : BitVec m) : BitVec m → List ℕ → List (BitVec m)
  | _, [] => []
  | curr, off :: offs =>
    consume1 minDelta curr off :: prefixSums minDelta (consume1 minDelta curr off) offs

def consumeOffs (minDelta curr : BitVec m) (offs : List ℕ) : List (BitVec m) :=
  match offs with
  | [c0, c1, c2, c3, c4, c5, c6, c7] => consume8 minDelta curr c0 c1 c2 c3 c4 c5 c6 c7
  | offs => prefixSums minDelta curr offs

def consumeDelta (minDelta : BitVec m) : BitVec m → List Consumed → List (BitVec m)
  | _, [] => []
  | curr, step :: out =>
    let ints := consumeOffs minDelta curr step.offs
    ints ++ consumeDelta minDelta (ints.getLastD curr) out

def alpDeltaConsumer : Consumer := ⟨false, false, false⟩

theorem consume8_eq (minDelta curr : BitVec m) (c0 c1 c2 c3 c4 c5 c6 c7 : ℕ) :
    consume8 minDelta curr c0 c1 c2 c3 c4 c5 c6 c7 =
      prefixSums minDelta curr [c0, c1, c2, c3, c4, c5, c6, c7] := by
  simp only [consume8, prefixSums, consume1, BitVec.add_assoc]

theorem consumeOffs_eq (minDelta curr : BitVec m) (offs : List ℕ) :
    consumeOffs minDelta curr offs = prefixSums minDelta curr offs := by
  unfold consumeOffs
  split
  · exact consume8_eq ..
  · rfl

theorem prefixSums_append (minDelta curr : BitVec m) (offs offs' : List ℕ) :
    prefixSums minDelta curr (offs ++ offs') = prefixSums minDelta curr offs ++
      prefixSums minDelta ((prefixSums minDelta curr offs).getLastD curr) offs' := by
  induction offs generalizing curr with
  | nil => rfl
  | cons off offs ih =>
    rw [List.cons_append, prefixSums, prefixSums, ih, List.cons_append, List.getLastD_cons]

theorem consumeDelta_eq (minDelta curr : BitVec m) (out : List Consumed) :
    consumeDelta minDelta curr out = prefixSums minDelta curr (handed out) := by
  induction out generalizing curr with
  | nil => rfl
  | cons step out ih => rw [consumeDelta, consumeOffs_eq, ih, handed_cons, prefixSums_append]

theorem u64ToIntAdd_intDiffToU64 (val base : BitVec m) :
    u64ToIntAdd (intDiffToU64 val base) base = val := by
  rw [u64ToIntAdd, intDiffToU64, BitVec.ofNat_toNat, BitVec.setWidth_eq, BitVec.sub_add_cancel]

theorem consume1_delta (minDelta curr next : BitVec m) :
    consume1 minDelta curr (intDiffToU64 (next - curr) minDelta) = next := by
  rw [consume1, u64ToIntAdd_intDiffToU64, BitVec.add_comm, BitVec.sub_add_cancel]

theorem prefixSums_deltas (minDelta : BitVec m) (rawInts : List (BitVec m)) :
    prefixSums minDelta (rawInts.getD 0 0)
      ((List.range (rawInts.length - 1)).map (deltaOffset rawInts minDelta)) = rawInts.tail := by
  induction rawInts with
  | nil => rfl
  | cons first rest ih =>
    cases rest with
    | nil => rfl
    | cons second rest =>
      have htail : ((List.range rest.length).map
          (deltaOffset (first :: second :: rest) minDelta ∘ Nat.succ)) =
          (List.range rest.length).map (deltaOffset (second :: rest) minDelta) := rfl
      have hlen : (first :: second :: rest).length - 1 = rest.length + 1 := rfl
      have hfirst : deltaOffset (first :: second :: rest) minDelta 0 =
          intDiffToU64 (second - first) minDelta := rfl
      rw [hlen, List.range_succ_eq_map, List.map_cons, List.map_map, htail, hfirst, prefixSums]
      have hcurr : (first :: second :: rest).getD 0 0 = first := rfl
      rw [hcurr, consume1_delta, List.tail_cons]
      exact congrArg (second :: ·) ih

end Delta

/-! ## The packed bytes -/

def streamField (bytes : List UInt8) (w i : ℕ) : ℕ :=
  fromLe (fun k => bytes.getD k 0) 0 bytes.length >>> (i * w) % 2 ^ w

/-- The memory begins with the bytes of a slice. -/
def Begins (mem : Memory) (bytes : List UInt8) : Prop :=
  ∀ i (hi : i < bytes.length), mem i = bytes[i]

theorem begins_getD (bytes : List UInt8) : Begins (fun k => bytes.getD k 0) bytes :=
  fun _ hi => List.getD_eq_getElem bytes 0 hi

def written (mem : Memory) (total : ℕ) : List UInt8 := (List.range total).map mem

theorem length_written : (written mem total).length = total := by simp [written]

theorem HoldsFields.of_begins (hheld : HoldsFields mem 0 w count o)
    (hbegins : Begins mem' (written mem (packedByteSize count w))) :
    HoldsFields mem' 0 w count o := by
  intro k hk b hb
  have hnext : (k + 1) * w ≤ count * w := Nat.mul_le_mul_right w hk
  rw [add_one_mul] at hnext
  have hbyte : (0 + k * w + b) / 8 < (written mem (packedByteSize count w)).length := by
    rw [length_written, packedByteSize]
    omega
  have hsame := hbegins _ hbyte
  simp only [written, List.getElem_map, List.getElem_range] at hsame
  rw [bitAt, hsame]
  exact hheld k hk b hb

theorem streamField_written (hheld : HoldsFields mem 0 w count o)
    (hfits : ∀ k < count, o k < 2 ^ w) {i : ℕ} (hi : i < count) :
    streamField (written mem (packedByteSize count w)) w i = o i := by
  have hnext : (i + 1) * w ≤ count * w := Nat.mul_le_mul_right w hi
  rw [add_one_mul] at hnext
  have hfields := hheld.of_begins (begins_getD _)
  have hfield := load_field_narrow hfields hi (hfits i hi) (by ring : 8 * 0 + i * w = i * w)
    (by rw [length_written, packedByteSize]; omega :
      i * w + w ≤ 8 * (written mem (packedByteSize count w)).length)
  rw [bitMask, Nat.and_two_pow_sub_one_eq_mod] at hfield
  exact hfield

/-- Bytes that are the fields of some integers, and out of which the kernels read these. -/
structure Encodes (bytes : List UInt8) (w count : ℕ) (o : ℕ → ℕ) : Prop where
  length : bytes.length = (count * w + 7) / 8
  fields : ∀ i < count, streamField bytes w i = o i
  handed : ∀ (mem : Memory) (consumer : Consumer), Begins mem bytes →
    handed (bitunpackCoreConsumer mem w count bytes.length consumer) = (List.range count).map o

theorem encodes_written (hheld : HoldsFields mem 0 w count o) (hfits : ∀ k < count, o k < 2 ^ w)
    (hw : 1 ≤ w ∧ w ≤ 64) : Encodes (written mem (packedByteSize count w)) w count o := by
  refine ⟨length_written, fun i hi => streamField_written hheld hfits hi, ?_⟩
  intro mem' consumer hbegins
  exact handed_bitunpackCoreConsumer (hheld.of_begins hbegins) hfits consumer hw length_written.ge

theorem encodes_nil : Encodes [] w 0 o :=
  ⟨by simp, fun i hi => by omega, fun _ _ _ => rfl⟩

/-- What all packers share: the widths that have a loop of their own, and the accumulator. -/
theorem encodes_packed {packed : Memory} (hw : 1 ≤ w ∧ w ≤ 64) (hfits : ∀ k < count, o k < 2 ^ w)
    (hpacked : HoldsFields packed 0 w count o) (dst : List UInt8) :
    ∃ bytes, setLen dst packed (packedByteSize count w) = dst ++ bytes ∧
      Encodes bytes w count o :=
  ⟨_, rfl, encodes_written hpacked hfits hw⟩

theorem packStream_fields (hw : w ≤ 64) (hfits : ∀ k < count, o k < 2 ^ w) :
    HoldsFields (packStream w o mem count).flush 0 w count o :=
  (packStream_stream hw hfits).flush_fields.2

theorem bitpackU64_encodes (spare : Memory) (values : List ℕ) (dst : List UInt8)
    (hw : 1 ≤ w ∧ w ≤ 64) (hfits : ∀ v ∈ values, v < 2 ^ w) :
    ∃ bytes, bitpackU64 spare values w dst = dst ++ bytes ∧
      Encodes bytes w values.length fun i => values.getD i 0 := by
  have hvalue : ∀ k < values.length, values.getD k 0 < 2 ^ w := by
    intro k hk
    rw [List.getD_eq_getElem _ _ hk]
    exact hfits _ (List.getElem_mem hk)
  have hmasked : ∀ k < values.length, values.getD k 0 &&& bitMask w = values.getD k 0 :=
    fun k hk => masked_eq (hvalue k hk)
  rw [bitpackU64]
  by_cases hnone : values.length = 0
  · rw [if_pos (.inl hnone), hnone]
    exact ⟨[], (List.append_nil dst).symm, encodes_nil⟩
  · rw [if_neg (by omega)]
    refine encodes_packed hw hvalue ?_ dst
    split_ifs with hnarrow h56 h52 h64
    · exact packNarrow_fields hmasked hvalue hw.1 hnarrow
    · exact packStrided_fields (by omega) (by omega)
    · subst h52
      exact pack52_fields hvalue
    · exact packStrided_fields (by omega) (by omega)
    · have hstream := @packStream_fields spare w values.length
        (fun i => values.getD i 0 &&& bitMask w) hw.2
        (fun k hk => by rw [hmasked k hk]; exact hvalue k hk)
      intro k hk
      have hfield := hstream k hk
      simp only [hmasked k hk] at hfield
      exact hfield

section Ints

variable {m : ℕ}

theorem bitpackEncoded_encodes (spare : Memory) (encodedInts : List (BitVec m)) (base : BitVec m)
    (dst : List UInt8) (hw : 1 ≤ w ∧ w ≤ 64)
    (hfits : ∀ v ∈ encodedInts, intDiffToU64 v base < 2 ^ w) :
    ∃ bytes, bitpackEncoded spare encodedInts base w dst = dst ++ bytes ∧
      Encodes bytes w encodedInts.length fun i => intDiffToU64 (encodedInts.getD i 0) base := by
  have hoffset : ∀ k < encodedInts.length, intDiffToU64 (encodedInts.getD k 0) base < 2 ^ w := by
    intro k hk
    rw [List.getD_eq_getElem _ _ hk]
    exact hfits _ (List.getElem_mem hk)
  rw [bitpackEncoded]
  by_cases hnone : encodedInts.length = 0
  · rw [if_pos (.inl hnone), hnone]
    exact ⟨[], (List.append_nil dst).symm, encodes_nil⟩
  · rw [if_neg (by omega)]
    refine encodes_packed hw hoffset ?_ dst
    split_ifs with hnarrow h56 h52 h64
    · exact packNarrow_fields (fun _ _ => rfl) hoffset hw.1 hnarrow
    · exact packStrided_fields (by omega) (by omega)
    · subst h52
      exact pack52_fields hoffset
    · exact packStrided_fields (by omega) (by omega)
    · exact packStream_fields hw.2 hoffset

theorem bitpackFusedDelta_encodes (spare : Memory) (rawInts : List (BitVec m))
    (minDelta : BitVec m) (dst : List UInt8) (hw : 1 ≤ w ∧ w ≤ 64)
    (hfits : ∀ i < rawInts.length - 1, deltaOffset rawInts minDelta i < 2 ^ w) :
    ∃ bytes, bitpackFusedDelta spare rawInts minDelta w dst = dst ++ bytes ∧
      Encodes bytes w (rawInts.length - 1) (deltaOffset rawInts minDelta) := by
  rw [bitpackFusedDelta]
  by_cases hnone : rawInts.length ≤ 1
  · have hzero : rawInts.length - 1 = 0 := by omega
    rw [if_pos (.inl hnone), hzero]
    exact ⟨[], (List.append_nil dst).symm, encodes_nil⟩
  · rw [if_neg (by omega)]
    refine encodes_packed hw hfits ?_ dst
    split_ifs with hnarrow h64
    · exact packNarrow_fields (fun _ _ => rfl) hfits hw.1 hnarrow
    · exact packStrided_fields (by omega) (by omega)
    · exact packStream_fields hw.2 hfits

end Ints

theorem map_getD_range {α β : Type} (l : List α) (default : α) (f : α → β) :
    (List.range l.length).map (fun i => f (l.getD i default)) = l.map f := by
  apply List.ext_getElem
  · simp
  · intro i hi hi'
    rw [List.length_map] at hi'
    rw [List.getElem_map, List.getElem_range, List.getElem_map, List.getD_eq_getElem _ _ hi']

theorem bitunpackU64_of_encodes {bytes : List UInt8} {values : List ℕ} (out : List ℕ)
    (hw : 1 ≤ w ∧ w ≤ 64) (hencodes : Encodes bytes w values.length fun i => values.getD i 0)
    (hbegins : Begins mem bytes) :
    bitunpackU64 mem bytes.length values.length w out = .ok (out ++ values) := by
  have hlen := hencodes.length
  rw [bitunpackU64, bitunpackU64Raw, packedByteSize]
  by_cases hnone : values.length = 0
  · rw [if_pos hnone, List.eq_nil_of_length_eq_zero hnone, List.append_nil]
  · rw [if_neg hnone, if_neg hnone, if_neg (by omega), if_neg (by omega),
      hencodes.handed mem rawU64Consumer hbegins]
    have hvalues : (List.range values.length).map (fun i => values.getD i 0) = values := by
      simpa using map_getD_range values 0 id
    rw [hvalues]
    rfl

/-- Every packer appends the fields of its integers in exactly the bytes that they need, and
unpacking returns the integers: as they are, above their base, or as sums of differences. -/
theorem bitpack_roundTrip (w : ℕ) (hw : 1 ≤ w ∧ w ≤ 64) :
    (∀ (spare : Memory) (values : List ℕ) (dst : List UInt8), (∀ v ∈ values, v < 2 ^ w) →
      ∃ bytes, bitpackU64 spare values w dst = dst ++ bytes ∧
        bytes.length = (values.length * w + 7) / 8 ∧
        (∀ i (hi : i < values.length), streamField bytes w i = values[i]) ∧
        ∀ (mem : Memory) (out : List ℕ), Begins mem bytes →
          bitunpackU64 mem bytes.length values.length w out = .ok (out ++ values)) ∧
    (∀ (m : ℕ) (spare : Memory) (encodedInts : List (BitVec m)) (base : BitVec m)
      (dst : List UInt8), (∀ v ∈ encodedInts, intDiffToU64 v base < 2 ^ w) →
      ∃ bytes, bitpackEncoded spare encodedInts base w dst = dst ++ bytes ∧
        bytes.length = (encodedInts.length * w + 7) / 8 ∧
        (∀ i (hi : i < encodedInts.length),
          streamField bytes w i = intDiffToU64 encodedInts[i] base) ∧
        ∀ (mem : Memory) (consumer : Consumer), Begins mem bytes →
          (handed (bitunpackCoreConsumer mem w encodedInts.length bytes.length consumer)).map
            (fun offset => u64ToIntAdd offset base) = encodedInts) ∧
    ∀ (m : ℕ) (spare : Memory) (rawInts : List (BitVec m)) (minDelta : BitVec m)
      (dst : List UInt8), (∀ i < rawInts.length - 1, deltaOffset rawInts minDelta i < 2 ^ w) →
      ∃ bytes, bitpackFusedDelta spare rawInts minDelta w dst = dst ++ bytes ∧
        bytes.length = ((rawInts.length - 1) * w + 7) / 8 ∧
        (∀ i < rawInts.length - 1, streamField bytes w i = deltaOffset rawInts minDelta i) ∧
        ∀ mem : Memory, Begins mem bytes →
          consumeDelta minDelta (rawInts.getD 0 0) (bitunpackCoreConsumer mem w
            (rawInts.length - 1) bytes.length alpDeltaConsumer) = rawInts.tail := by
  refine ⟨?_, ?_, ?_⟩
  · intro spare values dst hfits
    obtain ⟨bytes, hbytes, hencodes⟩ := bitpackU64_encodes spare values dst hw hfits
    refine ⟨bytes, hbytes, hencodes.length, ?_, ?_⟩
    · intro i hi
      rw [hencodes.fields i hi, List.getD_eq_getElem _ _ hi]
    · intro mem out hbegins
      exact bitunpackU64_of_encodes out hw hencodes hbegins
  · intro m spare encodedInts base dst hfits
    obtain ⟨bytes, hbytes, hencodes⟩ := bitpackEncoded_encodes spare encodedInts base dst hw hfits
    refine ⟨bytes, hbytes, hencodes.length, ?_, ?_⟩
    · intro i hi
      rw [hencodes.fields i hi, List.getD_eq_getElem _ _ hi]
    · intro mem consumer hbegins
      rw [hencodes.handed mem consumer hbegins, List.map_map]
      have hints := map_getD_range encodedInts 0
        fun v => u64ToIntAdd (intDiffToU64 v base) base
      simp only [u64ToIntAdd_intDiffToU64, List.map_id'] at hints
      simp only [Function.comp_def, u64ToIntAdd_intDiffToU64]
      exact hints
  · intro m spare rawInts minDelta dst hfits
    obtain ⟨bytes, hbytes, hencodes⟩ :=
      bitpackFusedDelta_encodes spare rawInts minDelta dst hw hfits
    refine ⟨bytes, hbytes, hencodes.length, hencodes.fields, ?_⟩
    intro mem hbegins
    rw [consumeDelta_eq, hencodes.handed mem alpDeltaConsumer hbegins, prefixSums_deltas]

theorem bitpack_roundTrip_three : ∃ bytes,
    bitpackU64 (fun _ => 255) [5, 2, 7] 3 [1] = [1] ++ bytes ∧ bytes.length = 2 ∧
      ∀ (mem : Memory) (out : List ℕ), Begins mem bytes →
        bitunpackU64 mem bytes.length 3 3 out = .ok (out ++ [5, 2, 7]) := by
  obtain ⟨bytes, hbytes, hlen, -, hunpack⟩ :=
    (bitpack_roundTrip 3 (by decide)).1 (fun _ => 255) [5, 2, 7] [1] (by decide)
  exact ⟨bytes, hbytes, hlen, hunpack⟩

end Wedb.Alp
