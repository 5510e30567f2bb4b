import Mathlib.Data.Nat.Log
import Wedb.Ordered.Float64

/-!
# Block split filters

A hash picks a block of 32 bytes by its upper half and a bit in each of the block's eight
words by its lower half. Bits are only ever set, so a hash once inserted is found from then
on. `estimate` is the number of bits that the formula over logarithms gives, where it is a
number within the maximum.
-/

namespace Wedb

namespace BlockSplitBloomFilter

def minBytes : ℕ := 32
def maxBytes : ℕ := 128 * 1024 * 1024
def bytesPerFilterBlock : ℕ := 32

def salt : List UInt32 :=
  [0x47b6137b, 0x44974d91, 0x8824ad5b, 0xa2b7289d, 0x705495c7, 0x2df1424b, 0x9efc4947, 0x5c6bfb31]

section size

variable (estimate : UInt32 → F64 → Option ℕ)

def optimalNumOfBits (ndv : UInt32) (fpp : F64) : ℕ :=
  let maxBits := maxBytes * 8
  let numBits := (estimate ndv fpp).getD maxBits
  let minBits := minBytes * 8
  let numBits := if numBits < minBits then minBits else numBits
  let numBits := 2 ^ Nat.clog 2 numBits
  if numBits > maxBits then maxBits else numBits

def optimalNumOfBytes (ndv : UInt32) (fpp : F64) : ℕ := optimalNumOfBits estimate ndv fpp / 8

theorem optimalNumOfBytes_range (ndv : UInt32) (fpp : F64) :
    32 ≤ optimalNumOfBytes estimate ndv fpp ∧ optimalNumOfBytes estimate ndv fpp ≤ 2 ^ 27 := by
  have hbits : 256 ≤ optimalNumOfBits estimate ndv fpp ∧
      optimalNumOfBits estimate ndv fpp ≤ 2 ^ 30 := by
    unfold optimalNumOfBits maxBytes minBytes
    dsimp only
    generalize (estimate ndv fpp).getD (128 * 1024 * 1024 * 8) = n
    have hle := Nat.le_pow_clog (b := 2) (by decide) (if n < 32 * 8 then 32 * 8 else n)
    split_ifs at hle ⊢ <;> omega
  unfold optimalNumOfBytes
  omega

end size

/-! ## Words -/

def fromLeBytes (chunk : Bytes) : UInt32 := UInt32.ofNat (beNat chunk.reverse)

def toLeBytes (word : UInt32) : Bytes := word.toBeBytes.reverse

def mask (key salt : UInt32) : UInt32 := (1 : UInt32) <<< ((key * salt) >>> 27)

def findWords (key : UInt32) : List UInt32 → Bytes → Bool
  | [], _ => true
  | salt :: salts, block =>
      if fromLeBytes (block.take 4) &&& mask key salt = 0 then false
      else findWords key salts (block.drop 4)

def insertWords (key : UInt32) : List UInt32 → Bytes → Bytes × Bool
  | [], block => (block, false)
  | salt :: salts, block =>
      let word := fromLeBytes (block.take 4)
      let rest := insertWords key salts (block.drop 4)
      if word &&& mask key salt = 0 then (toLeBytes (word ||| mask key salt) ++ rest.1, true)
      else (block.take 4 ++ rest.1, rest.2)

@[simp] theorem toLeBytes_length (word : UInt32) : (toLeBytes word).length = 4 := by
  simp [toLeBytes]

@[simp] theorem fromLeBytes_toLeBytes (word : UInt32) : fromLeBytes (toLeBytes word) = word := by
  rw [fromLeBytes, toLeBytes, List.reverse_reverse, UInt32.beNat_toBeBytes, UInt32.ofNat_toNat]

theorem mask_ne_zero (key salt : UInt32) : mask key salt ≠ 0 := by
  have hshift : ((key * salt) >>> 27).toNat < 32 := by
    rw [UInt32.toNat_shiftRight, Nat.shiftRight_eq_div_pow]
    have hlt := (key * salt).toNat_lt
    have h27 : (27 : UInt32).toNat % 32 = 27 := rfl
    rw [h27]
    omega
  intro hzero
  have hnat := congrArg UInt32.toNat hzero
  have hone : (1 : UInt32).toNat = 1 := rfl
  rw [mask, UInt32.toNat_shiftLeft, Nat.mod_eq_of_lt hshift, hone, Nat.one_shiftLeft,
    Nat.mod_eq_of_lt (Nat.pow_lt_pow_right one_lt_two hshift)] at hnat
  exact (Nat.two_pow_pos _).ne' hnat

theorem or_and (word other bit : UInt32) :
    ((word ||| other) &&& bit).toNat = (word &&& bit).toNat ||| (other &&& bit).toNat := by
  rw [UInt32.toNat_and, UInt32.toNat_or, UInt32.toNat_and, UInt32.toNat_and, Nat.and_or_distrib_right]

theorem or_and_ne_zero {word other bit : UInt32} (h : word &&& bit ≠ 0) :
    (word ||| other) &&& bit ≠ 0 := by
  intro hzero
  have hnat := or_and word other bit
  rw [hzero] at hnat
  exact h (UInt32.toNat_inj.mp (Nat.or_eq_zero_iff.mp hnat.symm).1)

theorem or_self_and (word : UInt32) {bit : UInt32} (h : bit ≠ 0) : (word ||| bit) &&& bit ≠ 0 := by
  intro hzero
  have hnat := or_and word bit bit
  rw [hzero, UInt32.and_self] at hnat
  exact h (UInt32.toNat_inj.mp (Nat.or_eq_zero_iff.mp hnat.symm).2)

section words

variable {key key' : UInt32} {salts : List UInt32} {block : Bytes}

theorem insertWords_length (h : 4 * salts.length ≤ block.length) :
    (insertWords key salts block).1.length = block.length := by
  induction salts generalizing block with
  | nil => rfl
  | cons salt salts ih =>
    rw [List.length_cons] at h
    have hrest := @ih (block.drop 4) (by rw [List.length_drop]; omega)
    rw [List.length_drop] at hrest
    rw [insertWords]
    split_ifs
    · rw [List.length_append, toLeBytes_length, hrest]
      omega
    · rw [List.length_append, List.length_take, hrest]
      omega

theorem insertWords_cons (salt : UInt32) (h : 4 ≤ block.length) :
    ∃ word, fromLeBytes ((insertWords key (salt :: salts) block).1.take 4) = word ∧
      (word = fromLeBytes (block.take 4) ∨ word = fromLeBytes (block.take 4) ||| mask key salt) ∧
      word &&& mask key salt ≠ 0 ∧
      (insertWords key (salt :: salts) block).1.drop 4 =
        (insertWords key salts (block.drop 4)).1 := by
  have hlen : (block.take 4).length = 4 := List.length_take_of_le h
  rw [insertWords]
  split_ifs with hbit
  · refine ⟨_, rfl, ?_, ?_, ?_⟩
    · rw [List.take_left' (toLeBytes_length _), fromLeBytes_toLeBytes]
      exact .inr rfl
    · rw [List.take_left' (toLeBytes_length _), fromLeBytes_toLeBytes]
      exact or_self_and _ (mask_ne_zero key salt)
    · exact List.drop_left' (toLeBytes_length _)
  · refine ⟨_, rfl, ?_, ?_, ?_⟩
    · rw [List.take_left' hlen]
      exact .inl rfl
    · rw [List.take_left' hlen]
      exact hbit
    · exact List.drop_left' hlen

theorem findWords_insertWords_self (h : 4 * salts.length ≤ block.length) :
    findWords key salts (insertWords key salts block).1 = true := by
  induction salts generalizing block with
  | nil => rfl
  | cons salt salts ih =>
    rw [List.length_cons] at h
    obtain ⟨word, hword, -, hbit, hrest⟩ := @insertWords_cons key salts block salt (by omega)
    rw [findWords, hword, if_neg hbit, hrest]
    exact ih (by rw [List.length_drop]; omega)

theorem findWords_insertWords (h : 4 * salts.length ≤ block.length)
    (hfound : findWords key' salts block = true) :
    findWords key' salts (insertWords key salts block).1 = true := by
  induction salts generalizing block with
  | nil => rfl
  | cons salt salts ih =>
    rw [List.length_cons] at h
    rw [findWords] at hfound
    split_ifs at hfound with hbit
    obtain ⟨word, hword, hcases, -, hrest⟩ := @insertWords_cons key salts block salt (by omega)
    have hstill : word &&& mask key' salt ≠ 0 := by
      rcases hcases with rfl | rfl
      · exact hbit
      · exact or_and_ne_zero hbit
    rw [findWords, hword, if_neg hstill, hrest]
    exact ih (by rw [List.length_drop]; omega) hfound

end words

/-! ## Blocks -/

def blockRange (dataLen : ℕ) (hash : UInt64) : Option ℕ :=
  if dataLen < bytesPerFilterBlock then none
  else
    let numBlocks := UInt64.ofNat (dataLen / bytesPerFilterBlock)
    if numBlocks = 0 then none
    else
      let bucketIndex := (((hash >>> 32) * numBlocks) >>> 32).toNat
      let blockStart := bucketIndex * bytesPerFilterBlock
      if dataLen < blockStart + bytesPerFilterBlock then none else some blockStart

def block (data : Bytes) (blockStart : ℕ) : Bytes :=
  (data.drop blockStart).take bytesPerFilterBlock

def findHash (data : Bytes) (hash : UInt64) : Bool :=
  match blockRange data.length hash with
  | none => false
  | some blockStart => findWords hash.toUInt32 salt (block data blockStart)

def insertHash (data : Bytes) (hash : UInt64) : Bytes × Bool :=
  match blockRange data.length hash with
  | none => (data, false)
  | some blockStart =>
      let words := insertWords hash.toUInt32 salt (block data blockStart)
      (data.take blockStart ++ words.1 ++ data.drop (blockStart + bytesPerFilterBlock), words.2)

theorem blockRange_spec {dataLen : ℕ} {hash : UInt64} {start : ℕ}
    (h : blockRange dataLen hash = some start) : start + 32 ≤ dataLen ∧ 32 ∣ start := by
  unfold blockRange bytesPerFilterBlock at h
  dsimp only at h
  split_ifs at h
  obtain rfl := Option.some.inj h
  exact ⟨by omega, Nat.dvd_mul_left _ _⟩

theorem blockRange_isSome {dataLen : ℕ} (hmin : 32 ≤ dataLen) (hmax : dataLen ≤ 2 ^ 27)
    (hash : UInt64) : ∃ start, blockRange dataLen hash = some start := by
  have hblocks : dataLen / 32 < 2 ^ 64 := by omega
  have hnat : (UInt64.ofNat (dataLen / 32)).toNat = dataLen / 32 :=
    UInt64.toNat_ofNat_of_lt' hblocks
  have hne : UInt64.ofNat (dataLen / 32) ≠ 0 := by
    intro hzero
    have hnum := congrArg UInt64.toNat hzero
    rw [hnat] at hnum
    have h0 : (0 : UInt64).toNat = 0 := rfl
    omega
  have hupper : hash.toNat / 2 ^ 32 < 2 ^ 32 := by
    have hlt := hash.toNat_lt
    omega
  have hle : hash.toNat / 2 ^ 32 * (dataLen / 32) ≤ (2 ^ 32 - 1) * (dataLen / 32) :=
    Nat.mul_le_mul_right _ (Nat.le_pred_of_lt hupper)
  have hindex : (((hash >>> 32) * UInt64.ofNat (dataLen / 32)) >>> 32).toNat < dataLen / 32 := by
    have h32 : (32 : UInt64).toNat % 64 = 32 := rfl
    rw [UInt64.toNat_shiftRight, UInt64.toNat_mul, UInt64.toNat_shiftRight, h32, hnat,
      Nat.shiftRight_eq_div_pow, Nat.shiftRight_eq_div_pow, Nat.mod_eq_of_lt (by omega)]
    omega
  unfold blockRange bytesPerFilterBlock
  dsimp only
  rw [if_neg (by omega), if_neg hne, if_neg (by omega)]
  exact ⟨_, rfl⟩

section blocks

variable {data : Bytes} {hash hash' : UInt64}

theorem insertHash_eq {start : ℕ} (h : blockRange data.length hash = some start) :
    (insertHash data hash).1 = data.take start ++
      (insertWords hash.toUInt32 salt (block data start)).1 ++ data.drop (start + 32) := by
  rw [insertHash, h]
  rfl

theorem block_length {start : ℕ} (h : start + 32 ≤ data.length) : (block data start).length = 32 := by
  unfold block bytesPerFilterBlock
  rw [List.length_take, List.length_drop]
  omega

@[simp] theorem insertHash_length (data : Bytes) (hash : UInt64) :
    (insertHash data hash).1.length = data.length := by
  cases hrange : blockRange data.length hash with
  | none => rw [insertHash, hrange]
  | some start =>
    obtain ⟨hle, -⟩ := blockRange_spec hrange
    have hblock := block_length hle
    have hwords := @insertWords_length hash.toUInt32 salt (block data start) (by rw [hblock]; decide)
    rw [insertHash_eq hrange, List.length_append, List.length_append, hwords, hblock,
      List.length_take, List.length_drop]
    omega

theorem block_insertHash_self {start : ℕ} (h : blockRange data.length hash = some start) :
    block (insertHash data hash).1 start = (insertWords hash.toUInt32 salt (block data start)).1 := by
  obtain ⟨hle, -⟩ := blockRange_spec h
  have hblock := block_length hle
  have hwords := @insertWords_length hash.toUInt32 salt (block data start) (by rw [hblock]; decide)
  have htake : (data.take start).length = start := List.length_take_of_le (by omega)
  rw [insertHash_eq h, block, List.append_assoc, List.drop_left' htake]
  exact List.take_left' (hwords.trans hblock)

theorem block_insertHash_of_ne {start start' : ℕ} (h : blockRange data.length hash = some start)
    (hdvd : 32 ∣ start') (hne : start' ≠ start) :
    block (insertHash data hash).1 start' = block data start' := by
  obtain ⟨hle, hdvd'⟩ := blockRange_spec h
  have hblock := block_length hle
  have hwords := @insertWords_length hash.toUInt32 salt (block data start) (by rw [hblock]; decide)
  have htake : (data.take start).length = start := List.length_take_of_le (by omega)
  rw [insertHash_eq h]
  unfold block bytesPerFilterBlock
  rcases lt_or_gt_of_ne hne with hlt | hgt
  · have hend : start' + 32 ≤ start := by omega
    rw [List.append_assoc, List.drop_append_of_le_length (by omega),
      List.take_append_of_le_length (by rw [List.length_drop]; omega), List.drop_take,
      List.take_take, Nat.min_eq_left (by omega)]
  · have hend : start + 32 ≤ start' := by omega
    have hlen : (data.take start ++ (insertWords hash.toUInt32 salt (block data start)).1).length =
        start + 32 := by
      rw [List.length_append, htake, hwords, hblock]
    unfold block bytesPerFilterBlock at hlen
    rw [List.drop_append, hlen, List.drop_of_length_le (by omega), List.nil_append, List.drop_drop,
      Nat.add_sub_cancel' hend]

theorem findHash_insertHash_self (hmin : 32 ≤ data.length) (hmax : data.length ≤ 2 ^ 27) :
    findHash (insertHash data hash).1 hash = true := by
  obtain ⟨start, hrange⟩ := blockRange_isSome hmin hmax hash
  have hblock := block_length (blockRange_spec hrange).1
  rw [findHash, insertHash_length, hrange]
  dsimp only
  rw [block_insertHash_self hrange]
  exact findWords_insertWords_self (by rw [hblock]; decide)

theorem findHash_insertHash (hfound : findHash data hash' = true) :
    findHash (insertHash data hash).1 hash' = true := by
  cases hrange : blockRange data.length hash with
  | none =>
    rw [insertHash, hrange]
    exact hfound
  | some start =>
    cases hrange' : blockRange data.length hash' with
    | none => simp [findHash, hrange'] at hfound
    | some start' =>
      have hblock := block_length (blockRange_spec hrange').1
      rw [findHash, hrange'] at hfound
      rw [findHash, insertHash_length, hrange']
      dsimp only at hfound ⊢
      by_cases hne : start' = start
      · subst hne
        rw [block_insertHash_self hrange]
        exact findWords_insertWords (by rw [hblock]; decide) hfound
      · rw [block_insertHash_of_ne hrange (blockRange_spec hrange').2 hne]
        exact hfound

theorem findHash_zeros (n : ℕ) (hash : UInt64) : findHash (List.replicate n 0) hash = false := by
  have hzeros : ∀ k, beNat (List.replicate k 0) = 0 := by
    intro k
    induction k with
    | zero => rfl
    | succ k ih =>
      rw [List.replicate_succ, beNat, ih]
      simp
  cases hrange : blockRange (List.replicate n (0 : UInt8)).length hash with
  | none => rw [findHash, hrange]
  | some start =>
    rw [findHash, hrange]
    dsimp only
    rw [salt, findWords, block, List.drop_replicate, List.take_replicate, List.take_replicate,
      fromLeBytes, List.reverse_replicate, hzeros, if_pos]
    exact UInt32.zero_and

end blocks

end BlockSplitBloomFilter

end Wedb
