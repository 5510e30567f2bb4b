import Wedb.Ordered.Binary64
import Wedb.Key.Family
import Wedb.Ordered.Saturating

/-!
# Cuckoo filter helper

Fingerprints, the two buckets of an item and the number of buckets a capacity
needs. The alternate bucket is taken by an exclusive or under the mask of the
bucket count, so it is an involution, and the buckets of a smaller count are
those of a larger one under its mask.
-/

namespace Wedb

section

namespace CuckooFilterHelper

open Rounding

def altHashMultiplier : UInt64 := 0x5bd1e995
def fingerprintModulus : UInt64 := 255
def defaultPageSize : UInt32 := 2048
def maxExpansion : UInt16 := 32768

def loadFactor : ℚ := roundDouble (955 / 1000)

def generateFingerprint (hash : UInt64) : UInt8 := (hash % fingerprintModulus + 1).toUInt8

def getAltHash (fingerprint : UInt8) (hash : UInt64) : UInt64 :=
  hash ^^^ (fingerprint.toUInt64 * altHashMultiplier)

def getAltBucketIndex (bucketIdx : UInt32) (fingerprint : UInt8) (numBuckets : UInt32) : UInt32 :=
  (getAltHash fingerprint bucketIdx.toUInt64).toUInt32 &&& (numBuckets - 1)

def firstBucket (hash : UInt64) (numBuckets : UInt32) : UInt32 :=
  hash.toUInt32 &&& (numBuckets - 1)

def nextPowerOfTwo (n : ℕ) : ℕ := 2 ^ Nat.clog 2 n

def normalizeExpansion (expansion : UInt16) : UInt16 :=
  if expansion ≤ 1 then expansion
  else UInt16.ofNat (min (nextPowerOfTwo expansion.toNat) 32768)

def maxSupportedCapacity (bucketSize : UInt8) : ℕ :=
  ⌊roundDouble (roundDouble (2 ^ 31 * bucketSize.toNat) * loadFactor)⌋₊

/-- Capacity over bucket size over load factor, each step rounded to a double. -/
def exactBuckets (capacity : UInt64) (bucketSize : UInt8) : ℚ :=
  roundDouble (roundDouble (roundDouble capacity.toNat / bucketSize.toNat) / loadFactor)

def calculateRequiredBuckets (capacity : UInt64) (bucketSize : UInt8) : Except Error UInt32 :=
  if bucketSize = 0 then .error (.invalidData "bucket_size must be larger than 0")
  else if capacity.toNat > maxSupportedCapacity bucketSize then
    .error (.invalidData "capacity is too large")
  else
    let reqBuckets := max ⌈exactBuckets capacity bucketSize⌉₊ 1
    let numBuckets := nextPowerOfTwo reqBuckets
    if numBuckets > 2 ^ 31 then .error (.invalidData "capacity is too large")
    else .ok (UInt32.ofNat numBuckets)

/-! ## Bucket counts -/

theorem calculateRequiredBuckets_eq_ok {capacity : UInt64} {bucketSize : UInt8} {nb : UInt32}
    (h : calculateRequiredBuckets capacity bucketSize = .ok nb) :
    nb.toNat = nextPowerOfTwo (max ⌈exactBuckets capacity bucketSize⌉₊ 1) ∧ nb.toNat ≤ 2 ^ 31 := by
  unfold calculateRequiredBuckets at h
  dsimp only at h
  split_ifs at h with h0 hcap hlarge
  cases h
  have hle := not_lt.mp hlarge
  rw [UInt32.toNat_ofNat_of_lt' (lt_of_le_of_lt hle (by decide))]
  exact ⟨rfl, hle⟩

theorem exactBuckets_mono {a b : UInt64} (h : a ≤ b) (bucketSize : UInt8) :
    exactBuckets a bucketSize ≤ exactBuckets b bucketSize := by
  have hcap : (a.toNat : ℚ) ≤ b.toNat := by exact_mod_cast UInt64.le_iff_toNat_le.mp h
  have hbs : (0 : ℚ) ≤ bucketSize.toNat := Nat.cast_nonneg _
  have hlf : 0 ≤ loadFactor := roundDouble_nonneg _
  exact roundDouble_mono (div_le_div_of_nonneg_right
    (roundDouble_mono (div_le_div_of_nonneg_right (roundDouble_mono hcap) hbs)) hlf)

theorem calculateRequiredBuckets_pow {capacity : UInt64} {bucketSize : UInt8} {nb : UInt32}
    (h : calculateRequiredBuckets capacity bucketSize = .ok nb) :
    ∃ k ≤ 31, nb.toNat = 2 ^ k := by
  obtain ⟨heq, hle⟩ := calculateRequiredBuckets_eq_ok h
  refine ⟨_, ?_, heq⟩
  rw [heq, nextPowerOfTwo] at hle
  exact (Nat.pow_le_pow_iff_right (by decide)).mp hle

theorem calculateRequiredBuckets_mono {a b : UInt64} {bucketSize : UInt8} {na nb : UInt32}
    (hab : a ≤ b) (ha : calculateRequiredBuckets a bucketSize = .ok na)
    (hb : calculateRequiredBuckets b bucketSize = .ok nb) : na.toNat ≤ nb.toNat := by
  rw [(calculateRequiredBuckets_eq_ok ha).1, (calculateRequiredBuckets_eq_ok hb).1]
  refine Nat.pow_le_pow_right (by decide) (Nat.clog_mono_right 2 (max_le_max ?_ le_rfl))
  exact Nat.ceil_mono (exactBuckets_mono hab bucketSize)

/-! ## Buckets under masks -/

theorem generateFingerprint_ne_zero (hash : UInt64) : generateFingerprint hash ≠ 0 := by
  intro h
  have hmod : (hash % fingerprintModulus).toNat < 255 := by
    rw [UInt64.toNat_mod]
    exact Nat.mod_lt _ (by decide)
  have hnat := congrArg UInt8.toNat h
  rw [generateFingerprint, UInt64.toNat_toUInt8, UInt64.toNat_add] at hnat
  have h1 : (1 : UInt64).toNat = 1 := rfl
  have h0 : (0 : UInt8).toNat = 0 := rfl
  omega

theorem getAltBucketIndex_eq (b : UInt32) (fp : UInt8) (nb : UInt32) :
    getAltBucketIndex b fp nb =
      (b ^^^ (fp.toUInt64 * altHashMultiplier).toUInt32) &&& (nb - 1) := by
  rw [getAltBucketIndex, getAltHash, UInt64.toUInt32_xor, UInt32.toUInt32_toUInt64]

theorem and_and_of_subset {x m m' : UInt32} (h : m' &&& m = m') : (x &&& m) &&& m' = x &&& m' := by
  rw [UInt32.and_assoc, UInt32.and_comm m, h]

theorem xor_and_of_subset {x k m m' : UInt32} (h : m' &&& m = m') :
    ((x ^^^ k) &&& m) &&& m' = ((x &&& m') ^^^ k) &&& m' := by
  rw [and_and_of_subset h]
  refine UInt32.toBitVec_inj.mp ?_
  ext i hi
  simp only [UInt32.toBitVec_and, UInt32.toBitVec_xor, BitVec.getElem_and, BitVec.getElem_xor]
  cases x.toBitVec[i] <;> cases k.toBitVec[i] <;> cases m'.toBitVec[i] <;> rfl

theorem getAltBucketIndex_involutive {b : UInt32} {nb : UInt32} (fp : UInt8)
    (hb : b &&& (nb - 1) = b) :
    getAltBucketIndex (getAltBucketIndex b fp nb) fp nb = b := by
  rw [getAltBucketIndex_eq, getAltBucketIndex_eq]
  generalize (fp.toUInt64 * altHashMultiplier).toUInt32 = k
  generalize nb - 1 = m at hb ⊢
  refine (?_ : _ = b &&& m).trans hb
  refine UInt32.toBitVec_inj.mp ?_
  ext i hi
  simp only [UInt32.toBitVec_and, UInt32.toBitVec_xor, BitVec.getElem_and, BitVec.getElem_xor]
  cases b.toBitVec[i] <;> cases k.toBitVec[i] <;> cases m.toBitVec[i] <;> rfl

section
variable {nb nb' : UInt32} {k k' : ℕ}

theorem toNat_mask (h : nb.toNat = 2 ^ k) : (nb - 1).toNat = 2 ^ k - 1 := by
  have hle : (1 : UInt32) ≤ nb := by
    rw [UInt32.le_iff_toNat_le, h]
    exact Nat.one_le_two_pow
  rw [UInt32.toNat_sub_of_le _ _ hle, h]
  rfl

theorem toNat_and_mask (h : nb.toNat = 2 ^ k) (x : UInt32) :
    (x &&& (nb - 1)).toNat = x.toNat % 2 ^ k := by
  rw [UInt32.toNat_and, toNat_mask h, Nat.and_two_pow_sub_one_eq_mod]

theorem and_mask_lt (h : nb.toNat = 2 ^ k) (x : UInt32) : x &&& (nb - 1) < nb := by
  rw [UInt32.lt_iff_toNat_lt, toNat_and_mask h, h]
  exact Nat.mod_lt _ (Nat.two_pow_pos k)

theorem and_mask_of_lt (h : nb.toNat = 2 ^ k) {x : UInt32} (hx : x < nb) :
    x &&& (nb - 1) = x := by
  refine UInt32.toNat_inj.mp ?_
  rw [toNat_and_mask h, Nat.mod_eq_of_lt]
  rw [← h]
  exact UInt32.lt_iff_toNat_lt.mp hx

theorem mask_subset (h : nb.toNat = 2 ^ k) (h' : nb'.toNat = 2 ^ k') (hle : nb'.toNat ≤ nb.toNat) :
    (nb' - 1) &&& (nb - 1) = nb' - 1 := by
  refine UInt32.toNat_inj.mp ?_
  rw [toNat_and_mask h, toNat_mask h', Nat.mod_eq_of_lt]
  rw [h, h'] at hle
  have hpos := Nat.two_pow_pos k'
  omega

end

end CuckooFilterHelper

end

/-!
## Cuckoo filter metadata

The chain metadata holds the shape of the sub-filters: each has the capacity of
the first one times a power of the expansion, and a power of two of buckets.
Later sub-filters have at least as many buckets as earlier ones.
-/

structure CuckooChainMeta where
  base : KeyMeta
  nFilters : UInt16
  expansion : UInt16
  baseCapacity : UInt64
  bucketSize : UInt8
  maxIterations : UInt16
  numDeletedItems : UInt64
  pageSize : UInt32
  deriving DecidableEq, Repr

namespace CuckooChainMeta

def encodedSize : ℕ := KeyMeta.encodedSize + 2 + 2 + 8 + 1 + 2 + 8 + 4

/-- The metadata of a fresh filter; `version` is the next generated version. -/
def new (baseCapacity : UInt64) (bucketSize : UInt8) (maxIterations expansion : UInt16)
    (pageSize : UInt32) (version expireAt : UInt64) : CuckooChainMeta where
  base := ⟨.cuckooFilter, 0, expireAt, version, 0⟩
  nFilters := 1
  expansion := CuckooFilterHelper.normalizeExpansion expansion
  baseCapacity
  bucketSize
  maxIterations
  numDeletedItems := 0
  pageSize

def isScaling (m : CuckooChainMeta) : Bool := decide (m.expansion > 0)

def isExpired (m : CuckooChainMeta) (nowMs : UInt64) : Bool := m.base.isExpired nowMs

def setSize (m : CuckooChainMeta) (size : UInt64) : CuckooChainMeta :=
  { m with base := { m.base with size } }

def subFilterCapacity (m : CuckooChainMeta) (filterIndex : UInt16) : Option UInt64 :=
  if m.expansion = 0 then if filterIndex = 0 then some m.baseCapacity else none
  else if m.expansion = 1 ∨ filterIndex = 0 then some m.baseCapacity
  else
    let exp := m.expansion.toNat ^ filterIndex.toNat
    if exp < 2 ^ 64 ∧ m.baseCapacity.toNat * exp < 2 ^ 64 then
      some (UInt64.ofNat (m.baseCapacity.toNat * exp))
    else none

def subFilterNumBuckets (m : CuckooChainMeta) (filterIndex : UInt16) : Except Error UInt32 :=
  match m.subFilterCapacity filterIndex with
  | some cap => CuckooFilterHelper.calculateRequiredBuckets cap m.bucketSize
  | none => .error (.invalidData "filter capacity overflow")

def encode (m : CuckooChainMeta) : Bytes :=
  m.base.encode ++ (m.nFilters.toBeBytes ++ (m.expansion.toBeBytes ++
    (m.baseCapacity.toBeBytes ++ (m.bucketSize :: (m.maxIterations.toBeBytes ++
      (m.numDeletedItems.toBeBytes ++ (m.pageSize.toBeBytes ++ [])))))))

def decode (bytes : Bytes) : Option CuckooChainMeta :=
  if bytes.length < encodedSize then none
  else
    (KeyMeta.decode (bytes.take KeyMeta.encodedSize)).map fun base =>
      { base
        nFilters := readU16 bytes 26
        expansion := readU16 bytes 28
        baseCapacity := readU64 bytes 30
        bucketSize := bytes.getD 38 0
        maxIterations := readU16 bytes 39
        numDeletedItems := readU64 bytes 41
        pageSize := readU32 bytes 49 }

theorem decode_encode (m : CuckooChainMeta) : decode m.encode = some m := by
  have hlen : ¬m.encode.length < encodedSize := by
    simp [encode, encodedSize]
  have hbase : m.encode.take KeyMeta.encodedSize = m.base.encode := by
    rw [encode, ← KeyMeta.encode_length m.base, List.take_left]
  have h26 : m.base.encode.length = 26 := m.base.encode_length
  have hn : readU16 m.encode 26 = m.nFilters := KeyMeta.readU16_append m.nFilters h26
  have hexp : readU16 m.encode 28 = m.expansion := by
    have h := KeyMeta.readU16_append (a := m.base.encode ++ m.nFilters.toBeBytes)
      (b := m.baseCapacity.toBeBytes ++ (m.bucketSize :: (m.maxIterations.toBeBytes ++
        (m.numDeletedItems.toBeBytes ++ (m.pageSize.toBeBytes ++ []))))) m.expansion
      (n := 28) (by simp [h26])
    simpa only [encode, List.append_assoc] using h
  have hcap : readU64 m.encode 30 = m.baseCapacity := by
    have h := KeyMeta.readU64_append
      (a := m.base.encode ++ (m.nFilters.toBeBytes ++ m.expansion.toBeBytes))
      (b := m.bucketSize :: (m.maxIterations.toBeBytes ++
        (m.numDeletedItems.toBeBytes ++ (m.pageSize.toBeBytes ++ [])))) m.baseCapacity
      (n := 30) (by simp [h26])
    simpa only [encode, List.append_assoc] using h
  have hbs : m.encode.getD 38 0 = m.bucketSize := by
    rw [List.getD_eq_getElem?_getD, encode, List.getElem?_append_right (by simp [h26]),
      List.getElem?_append_right (by simp [h26]),
      List.getElem?_append_right (by simp [h26]),
      List.getElem?_append_right (by simp [h26])]
    simp [h26]
  have hit : readU16 m.encode 39 = m.maxIterations := by
    have h := KeyMeta.readU16_append (a := m.base.encode ++ (m.nFilters.toBeBytes ++
        (m.expansion.toBeBytes ++ (m.baseCapacity.toBeBytes ++ [m.bucketSize]))))
      (b := m.numDeletedItems.toBeBytes ++ (m.pageSize.toBeBytes ++ [])) m.maxIterations
      (n := 39) (by simp [h26])
    simpa only [encode, List.append_assoc, List.singleton_append] using h
  have hdel : readU64 m.encode 41 = m.numDeletedItems := by
    have h := KeyMeta.readU64_append (a := m.base.encode ++ (m.nFilters.toBeBytes ++
        (m.expansion.toBeBytes ++ (m.baseCapacity.toBeBytes ++ (m.bucketSize ::
          m.maxIterations.toBeBytes)))))
      (b := m.pageSize.toBeBytes ++ []) m.numDeletedItems
      (n := 41) (by simp [h26])
    simpa only [encode, List.append_assoc, List.cons_append] using h
  have hpage : readU32 m.encode 49 = m.pageSize := by
    have h := KeyMeta.readU32_append (a := m.base.encode ++ (m.nFilters.toBeBytes ++
        (m.expansion.toBeBytes ++ (m.baseCapacity.toBeBytes ++ (m.bucketSize ::
          (m.maxIterations.toBeBytes ++ m.numDeletedItems.toBeBytes))))))
      (b := []) m.pageSize (n := 49) (by simp [h26])
    simpa only [encode, List.append_assoc, List.cons_append] using h
  rw [decode, if_neg hlen, hbase, KeyMeta.decode_encode, Option.map_some, hn, hexp, hcap, hbs, hit,
    hdel, hpage]

/-! ## The shape of the chain -/

theorem subFilterCapacity_mono {m : CuckooChainMeta} {f g : UInt16} {a b : UInt64} (hfg : f ≤ g)
    (ha : m.subFilterCapacity f = some a) (hb : m.subFilterCapacity g = some b) : a ≤ b := by
  have hpos : m.expansion ≠ 0 → 0 < m.expansion.toNat := fun h =>
    Nat.pos_of_ne_zero fun h0 => h (UInt16.toNat_inj.mp h0)
  have hge : ∀ n, m.expansion ≠ 0 → m.baseCapacity.toNat ≤
      m.baseCapacity.toNat * m.expansion.toNat ^ n := fun n h =>
    Nat.le_mul_of_pos_right _ (Nat.pow_pos (hpos h))
  unfold subFilterCapacity at ha hb
  dsimp only at ha hb
  rw [UInt64.le_iff_toNat_le]
  by_cases h0 : m.expansion = 0
  · rw [if_pos h0] at ha hb
    split_ifs at ha hb
    cases ha
    cases hb
    exact le_rfl
  · rw [if_neg h0] at ha hb
    by_cases hone : m.expansion = 1 ∨ f = 0
    · rw [if_pos hone] at ha
      cases ha
      split_ifs at hb with h1 hfit
      · cases hb
        exact le_rfl
      · cases hb
        rw [UInt64.toNat_ofNat_of_lt' hfit.2]
        exact hge _ h0
    · have hg0 : ¬(m.expansion = 1 ∨ g = 0) := by
        rintro (h | rfl)
        · exact hone (Or.inl h)
        · refine hone (Or.inr (UInt16.toNat_inj.mp ?_))
          simpa using UInt16.le_iff_toNat_le.mp hfg
      rw [if_neg hone] at ha
      rw [if_neg hg0] at hb
      split_ifs at ha hb with hfa hfb
      cases ha
      cases hb
      rw [UInt64.toNat_ofNat_of_lt' hfa.2, UInt64.toNat_ofNat_of_lt' hfb.2]
      exact Nat.mul_le_mul_left _ (Nat.pow_le_pow_right (hpos h0) (UInt16.le_iff_toNat_le.mp hfg))

theorem subFilterNumBuckets_mono {m : CuckooChainMeta} {f g : UInt16} {nf ng : UInt32}
    (hfg : f ≤ g) (hf : m.subFilterNumBuckets f = .ok nf) (hg : m.subFilterNumBuckets g = .ok ng) :
    nf.toNat ≤ ng.toNat := by
  unfold subFilterNumBuckets at hf hg
  cases ha : m.subFilterCapacity f with
  | none => simp [ha] at hf
  | some a =>
    cases hb : m.subFilterCapacity g with
    | none => simp [hb] at hg
    | some b =>
      simp only [ha] at hf
      simp only [hb] at hg
      exact CuckooFilterHelper.calculateRequiredBuckets_mono (subFilterCapacity_mono hfg ha hb) hf hg

theorem subFilterNumBuckets_pow {m : CuckooChainMeta} {f : UInt16} {nb : UInt32}
    (h : m.subFilterNumBuckets f = .ok nb) : ∃ k ≤ 31, nb.toNat = 2 ^ k := by
  unfold subFilterNumBuckets at h
  cases ha : m.subFilterCapacity f with
  | none => simp [ha] at h
  | some a =>
    simp only [ha] at h
    exact CuckooFilterHelper.calculateRequiredBuckets_pow h

end CuckooChainMeta

instance : MetaOps CuckooChainMeta where
  tag := .cuckooMeta
  decode := CuckooChainMeta.decode
  base := CuckooChainMeta.base
  isExpired := CuckooChainMeta.isExpired
  encodeBytes := CuckooChainMeta.encode

end Wedb
