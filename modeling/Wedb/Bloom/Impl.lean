import Wedb.Bloom.Filter
import Wedb.Key.Family
import Wedb.Ordered.Saturating

/-!
# Bloom filter metadata

The chain metadata holds the number of sub-filters and what their sizes are computed from.
Capacities are computed in 64 and 128 bits and cut to 32 bits.
-/

namespace Wedb

structure BloomChainMeta where
  base : KeyMeta
  nFilters : UInt16
  expansion : UInt16
  baseCapacity : UInt32
  errorRate : F64
  bloomBytes : UInt32
  deriving DecidableEq, Repr

def geometricSum (r : ℕ) : ℕ → ℕ → ℕ → ℕ
  | 0, total, _ => total
  | n + 1, total, cur =>
      let total := min (total + cur) (2 ^ 64 - 1)
      let cur := min (cur * r) (2 ^ 64 - 1)
      if total = 2 ^ 64 - 1 then 2 ^ 64 - 1 else geometricSum r n total cur

def calculateGeometricCapacity (baseCapacity : ℕ) (expansion nFilters : UInt16) : ℕ :=
  if expansion = 0 ∨ nFilters ≤ 1 then baseCapacity
  else if expansion = 1 then min (baseCapacity * nFilters.toNat) (2 ^ 64 - 1)
  else
    let r := expansion.toNat
    let rPowN := r ^ nFilters.toNat
    if rPowN < 2 ^ 64 then
      min (min (baseCapacity * (rPowN - 1)) (2 ^ 128 - 1) / (r - 1)) (2 ^ 64 - 1)
    else geometricSum r nFilters.toNat 0 baseCapacity

namespace BloomChainMeta

def encodedSize : ℕ := KeyMeta.encodedSize + 2 + 2 + 4 + 8 + 4

/-- The metadata of a fresh filter; `version` is the next generated version. -/
def new (baseCapacity : UInt32) (errorRate : F64) (expansion : UInt16) (version expireAt : UInt64)
    (bloomBytes : UInt32) : BloomChainMeta where
  base := ⟨.bloom, 0, expireAt, version, 0⟩
  nFilters := 1
  expansion
  baseCapacity
  errorRate
  bloomBytes

def isScaling (m : BloomChainMeta) : Bool := decide (m.expansion ≠ 0)

def isExpired (m : BloomChainMeta) (nowMs : UInt64) : Bool := m.base.isExpired nowMs

def getCapacity (m : BloomChainMeta) : UInt32 :=
  UInt32.ofNat (min (calculateGeometricCapacity m.baseCapacity.toNat m.expansion m.nFilters)
    (2 ^ 32 - 1))

def subFilterCapacity (m : BloomChainMeta) (filterIndex : UInt16) : UInt32 :=
  if m.expansion ≤ 1 ∨ filterIndex = 0 then m.baseCapacity
  else
    let exp := min (m.expansion.toNat ^ filterIndex.toNat) (2 ^ 64 - 1)
    UInt32.ofNat (min (min (m.baseCapacity.toNat * exp) (2 ^ 64 - 1)) (2 ^ 32 - 1))

def encode (m : BloomChainMeta) : Bytes :=
  m.base.encode ++ (m.nFilters.toBeBytes ++ (m.expansion.toBeBytes ++
    (m.baseCapacity.toBeBytes ++ (m.errorRate.bits.toBeBytes ++ (m.bloomBytes.toBeBytes ++ [])))))

def decode (bytes : Bytes) : Option BloomChainMeta :=
  if bytes.length < encodedSize then none
  else
    (KeyMeta.decode (bytes.take KeyMeta.encodedSize)).map fun base =>
      { base
        nFilters := readU16 bytes 26
        expansion := readU16 bytes 28
        baseCapacity := readU32 bytes 30
        errorRate := ⟨readU64 bytes 34⟩
        bloomBytes := readU32 bytes 42 }

theorem decode_encode (m : BloomChainMeta) : decode m.encode = some m := by
  have hlen : ¬m.encode.length < encodedSize := by
    simp [encode, encodedSize]
  have hbase : m.encode.take KeyMeta.encodedSize = m.base.encode := by
    rw [encode, ← KeyMeta.encode_length m.base, List.take_left]
  have h26 : m.base.encode.length = 26 := m.base.encode_length
  have hn : readU16 m.encode 26 = m.nFilters := KeyMeta.readU16_append m.nFilters h26
  have hexp : readU16 m.encode 28 = m.expansion := by
    have h := @KeyMeta.readU16_append (m.base.encode ++ m.nFilters.toBeBytes)
      (m.baseCapacity.toBeBytes ++ (m.errorRate.bits.toBeBytes ++ (m.bloomBytes.toBeBytes ++ [])))
      28 m.expansion (by simp [h26])
    simpa only [encode, List.append_assoc] using h
  have hcap : readU32 m.encode 30 = m.baseCapacity := by
    have h := @KeyMeta.readU32_append
      (m.base.encode ++ (m.nFilters.toBeBytes ++ m.expansion.toBeBytes))
      (m.errorRate.bits.toBeBytes ++ (m.bloomBytes.toBeBytes ++ [])) 30 m.baseCapacity
      (by simp [h26])
    simpa only [encode, List.append_assoc] using h
  have hrate : readU64 m.encode 34 = m.errorRate.bits := by
    have h := @KeyMeta.readU64_append (m.base.encode ++ (m.nFilters.toBeBytes ++
        (m.expansion.toBeBytes ++ m.baseCapacity.toBeBytes)))
      (m.bloomBytes.toBeBytes ++ []) 34 m.errorRate.bits (by simp [h26])
    simpa only [encode, List.append_assoc] using h
  have hbytes : readU32 m.encode 42 = m.bloomBytes := by
    have h := @KeyMeta.readU32_append (m.base.encode ++ (m.nFilters.toBeBytes ++
        (m.expansion.toBeBytes ++ (m.baseCapacity.toBeBytes ++ m.errorRate.bits.toBeBytes))))
      [] 42 m.bloomBytes (by simp [h26])
    simpa only [encode, List.append_assoc] using h
  rw [decode, if_neg hlen, hbase, KeyMeta.decode_encode, Option.map_some, hn, hexp, hcap, hrate,
    hbytes]

end BloomChainMeta

instance : MetaOps BloomChainMeta where
  tag := .bloomMeta
  decode := BloomChainMeta.decode
  base := BloomChainMeta.base
  isExpired := BloomChainMeta.isExpired
  encodeBytes := BloomChainMeta.encode

/-!
## Bloom filter commands

An insertion loads the blocks of all sub-filters, adds the items one after the other, opening
new sub-filters where the chain is full, and writes back the blocks from the one that was last
at the start. `hash` is the item hash and `estimate` the formula of sizes.
-/

section

open BlockSplitBloomFilter

inductive BfInsert
  | capacity (c : UInt32)
  | errorRate (e : F64)
  | expansion (exp : UInt16)
  | noCreate
  | nonScaling
  deriving DecidableEq, Repr

inductive BfReserve
  | expansion (exp : UInt16)
  | nonScaling
  deriving DecidableEq, Repr

inductive BloomFilterAddResult
  | ok
  | exist
  | full
  deriving DecidableEq, Repr

/-- The default error rate is the number nearest to a hundredth. -/
structure BloomFilterInsert where
  capacity : UInt32 := 100
  errorRate : F64 := ⟨0x3F847AE147AE147B⟩
  expansion : UInt16 := 2
  autoCreate : Bool := true
  deriving DecidableEq, Repr

def BloomFilterInsert.apply (opt : BloomFilterInsert) : BfInsert → BloomFilterInsert
  | .capacity c => { opt with capacity := c }
  | .errorRate e => { opt with errorRate := e }
  | .expansion exp => { opt with expansion := exp }
  | .noCreate => { opt with autoCreate := false }
  | .nonScaling => { opt with expansion := 0 }

def BloomFilterInsert.fromOptions (options : List BfInsert) : BloomFilterInsert :=
  options.foldl .apply {}

def reserveExpansion (options : List BfReserve) : UInt16 :=
  options.foldl (fun expansion opt =>
    match opt with
    | .expansion exp => exp
    | .nonScaling => 0) 2

def unitRate : F64 := ⟨0x3FF0000000000000⟩

def checkBloomShape (capacity : UInt32) (errorRate : F64) : Except Error Unit :=
  if capacity = 0 then .error (.invalidData "capacity must be larger than 0")
  else if errorRate.le F64.zero ∨ unitRate.le errorRate then
    .error (.invalidData "error_rate must be between 0 and 1")
  else .ok ()

def bloomMetaKey (kc : KeyComposer) (key : Key) : Bytes :=
  kc.composeMetaKeyStack KeyTag.bloomMeta.asSlice key.bytes

def bloomItem (kc : KeyComposer) (key : Key) (filterIdx : UInt16) : Bytes :=
  kc.composeSubkeyStack KeyTag.bloomData.asSlice key.bytes filterIdx.toBeBytes

/-- The chain that an insertion works on. -/
structure BloomWork where
  chain : BloomChainMeta
  blocks : List Bytes

namespace BloomWork

variable (estimate : UInt32 → F64 → Option ℕ)

def opened (w : BloomWork) : BloomWork :=
  let newCap := w.chain.subFilterCapacity w.chain.nFilters
  let newBytes := optimalNumOfBytes estimate newCap w.chain.errorRate
  { chain := { w.chain with
      nFilters := w.chain.nFilters + 1
      bloomBytes := w.chain.bloomBytes + UInt32.ofNat newBytes }
    blocks := w.blocks ++ [List.replicate newBytes 0] }

def put (w : BloomWork) (h : UInt64) : BloomWork :=
  let curIdx := (w.chain.nFilters - 1).toNat
  { chain := { w.chain with base := { w.chain.base with size := w.chain.base.size + 1 } }
    blocks := w.blocks.modify curIdx fun b => (insertHash b h).1 }

def add (w : BloomWork) (h : UInt64) : BloomFilterAddResult × BloomWork :=
  if w.blocks.reverse.any fun blk => findHash blk h then (.exist, w)
  else if w.chain.base.size + 1 > w.chain.getCapacity.toUInt64 then
    if w.chain.isScaling ∧ w.chain.nFilters < 65535 then (.ok, (w.opened estimate).put h)
    else (.full, w)
  else (.ok, w.put h)

def addAll (hash : Bytes → UInt64) : List Bytes → BloomWork → List BloomFilterAddResult × BloomWork
  | [], w => ([], w)
  | item :: items, w =>
      let (result, w) := w.add estimate (hash item)
      let (results, w) := addAll hash items w
      (result :: results, w)

end BloomWork

section

variable (hash : Bytes → UInt64) (estimate : UInt32 → F64 → Option ℕ) (s : Store)
  (kc : KeyComposer) (key : Key) (nowMs : UInt64)

def getBfMetaChecked : Except Error (Option BloomChainMeta) :=
  getMetaChecked BloomChainMeta s kc key (bloomMetaKey kc key) nowMs

def bfReserve (version : UInt64) (errorRate : F64) (capacity : UInt32) (options : List BfReserve) :
    Except Error (Unit × Batch) := do
  checkBloomShape capacity errorRate
  match ← getBfMetaChecked s kc key nowMs with
  | some _ => .error (.invalidData "ERR item exists")
  | none =>
    let bloomBytes := optimalNumOfBytes estimate capacity errorRate
    let m := BloomChainMeta.new capacity errorRate (reserveExpansion options) version 0
      (UInt32.ofNat bloomBytes)
    return ((), [.insertMeta (bloomMetaKey kc key) m.encode,
      .insertData (bloomItem kc key 0) (List.replicate bloomBytes 0)])

def bfMetaForInsert (version : UInt64) (opt : BloomFilterInsert) : Except Error BloomChainMeta := do
  match ← getBfMetaChecked s kc key nowMs with
  | some m => return m
  | none =>
    if !opt.autoCreate then .error (.invalidData "ERR not found")
    else
      (checkBloomShape opt.capacity opt.errorRate).map fun _ =>
        .new opt.capacity opt.errorRate opt.expansion version 0
          (UInt32.ofNat (optimalNumOfBytes estimate opt.capacity opt.errorRate))

def loadBlock (m : BloomChainMeta) (idx : UInt16) : Bytes :=
  let expectedBytes := optimalNumOfBytes estimate (m.subFilterCapacity idx) m.errorRate
  match s.data.get (bloomItem kc key idx) with
  | some b => b ++ List.replicate (expectedBytes - b.length) 0
  | none => List.replicate expectedBytes 0

def loadWork (m : BloomChainMeta) : BloomWork where
  chain := m
  blocks := (List.range m.nFilters.toNat).map fun idx =>
    loadBlock estimate s kc key m (UInt16.ofNat idx)

def bloomBatch (w : BloomWork) (writeStartIdx : ℕ) : Batch :=
  .insertMeta (bloomMetaKey kc key) w.chain.encode ::
    ((w.blocks.zipIdx.drop writeStartIdx).map fun x =>
      .insertData (bloomItem kc key (UInt16.ofNat x.2)) x.1)

def bfInsert (version : UInt64) (items : List Bytes) (options : List BfInsert) :
    Except Error (List BloomFilterAddResult × Batch) :=
  if items.isEmpty then .ok ([], [])
  else do
    let m ← bfMetaForInsert estimate s kc key nowMs version (.fromOptions options)
    let (results, w) := BloomWork.addAll estimate hash items (loadWork estimate s kc key m)
    if results.contains .ok then
      return (results, bloomBatch kc key w (m.nFilters.toNat - 1))
    else return (results, [])

def bfExistsLoop (h : UInt64) : ℕ → Bool
  | 0 => false
  | n + 1 =>
      if (s.data.get (bloomItem kc key (UInt16.ofNat n))).any fun b => findHash b h then true
      else bfExistsLoop h n

def bfExists (item : Bytes) : Except Error Bool := do
  match ← getBfMetaChecked s kc key nowMs with
  | none => return false
  | some m => return bfExistsLoop s kc key (hash item) m.nFilters.toNat

def bfMexists (items : List Bytes) : Except Error (List Bool) :=
  match items with
  | [] => .ok []
  | [item] => (bfExists hash s kc key nowMs item).map fun found => [found]
  | items => do
    match ← getBfMetaChecked s kc key nowMs with
    | none => return List.replicate items.length false
    | some m =>
      let blocks := (List.range m.nFilters.toNat).filterMap fun idx =>
        s.data.get (bloomItem kc key (UInt16.ofNat idx))
      return items.map fun item => blocks.reverse.any fun blk => findHash blk (hash item)

end

end

end Wedb
