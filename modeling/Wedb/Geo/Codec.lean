import Mathlib.Data.Int.ModEq
import Mathlib.Tactic.IntervalCases
import Wedb.Ordered.Weave

/-!
# Geohash cells

A cell of a step is a pair of coordinates below `2 ^ step`, latitude and longitude, whose bits
alternate in one word. Neighbours are found by counting one coordinate inside the word.
-/

namespace Wedb

structure GeoHashBits where
  bits : UInt64 := 0
  step : UInt8 := 0
  deriving DecidableEq, Repr

def GeoHashBits.isZero (hash : GeoHashBits) : Bool := hash.bits == 0 && hash.step == 0

def spreadBits (x : UInt64) : UInt64 :=
  let x := (x ||| x <<< 16) &&& 0x0000FFFF0000FFFF
  let x := (x ||| x <<< 8) &&& 0x00FF00FF00FF00FF
  let x := (x ||| x <<< 4) &&& 0x0F0F0F0F0F0F0F0F
  let x := (x ||| x <<< 2) &&& 0x3333333333333333
  (x ||| x <<< 1) &&& 0x5555555555555555

def interleave64 (xlo ylo : UInt32) : UInt64 :=
  spreadBits xlo.toUInt64 ||| spreadBits ylo.toUInt64 <<< 1

def squashBits (x : UInt64) : UInt64 :=
  let x := (x ||| x >>> 0) &&& 0x5555555555555555
  let x := (x ||| x >>> 1) &&& 0x3333333333333333
  let x := (x ||| x >>> 2) &&& 0x0F0F0F0F0F0F0F0F
  let x := (x ||| x >>> 4) &&& 0x00FF00FF00FF00FF
  let x := (x ||| x >>> 8) &&& 0x0000FFFF0000FFFF
  (x ||| x >>> 16) &&& 0x00000000FFFFFFFF

def deinterleave64 (interleaved : UInt64) : UInt32 × UInt32 :=
  ((squashBits interleaved).toUInt32, (squashBits (interleaved >>> 1)).toUInt32)

def align52bits (hash : GeoHashBits) : UInt64 :=
  let shift := 52 - hash.step * 2
  hash.bits <<< shift.toUInt64

def geohashMove (own rest : UInt64) (hash : GeoHashBits) (d : Int8) : GeoHashBits :=
  if d = 0 ∨ hash.step = 0 ∨ 26 < hash.step then hash
  else
    let x := hash.bits &&& own
    let y := hash.bits &&& rest
    let shift := (64 - hash.step * 2).toUInt64
    let zz := rest >>> shift
    let x := if 0 < d then x + (zz + 1) else (x ||| zz) - (zz + 1)
    { hash with bits := x &&& own >>> shift ||| y }

def geohashMoveX : GeoHashBits → Int8 → GeoHashBits :=
  geohashMove 0xaaaaaaaaaaaaaaaa 0x5555555555555555

def geohashMoveY : GeoHashBits → Int8 → GeoHashBits :=
  geohashMove 0x5555555555555555 0xaaaaaaaaaaaaaaaa

structure GeoHashNeighbors where
  north : GeoHashBits
  east : GeoHashBits
  west : GeoHashBits
  south : GeoHashBits
  northEast : GeoHashBits
  southEast : GeoHashBits
  northWest : GeoHashBits
  southWest : GeoHashBits
  deriving DecidableEq, Repr

def geohashNeighbors (hash : GeoHashBits) : GeoHashNeighbors where
  north := geohashMoveY hash 1
  east := geohashMoveX hash 1
  west := geohashMoveX hash (-1)
  south := geohashMoveY hash (-1)
  northWest := geohashMoveY (geohashMoveX hash (-1)) 1
  northEast := geohashMoveY (geohashMoveX hash 1) 1
  southEast := geohashMoveY (geohashMoveX hash 1) (-1)
  southWest := geohashMoveY (geohashMoveX hash (-1)) (-1)

def scoresOfGeohashBox (hash : GeoHashBits) : UInt64 × UInt64 :=
  (align52bits hash, align52bits { hash with bits := hash.bits + 1 })

/-! ## Woven words -/

theorem and_or_distrib (a b c : UInt64) : (a ||| b) &&& c = a &&& c ||| b &&& c := by
  rw [← UInt64.toBitVec_inj]
  exact BitVec.and_or_distrib_right

theorem or_or_or_comm (a b c d : UInt64) : a ||| b ||| (c ||| d) = a ||| c ||| (b ||| d) := by
  rw [UInt64.or_assoc, ← UInt64.or_assoc b, UInt64.or_comm b, UInt64.or_assoc, ← UInt64.or_assoc a]

theorem spreadBits_or (a b : UInt64) : spreadBits (a ||| b) = spreadBits a ||| spreadBits b := by
  have hstage : ∀ (a b mask s : UInt64),
      (a ||| b ||| (a ||| b) <<< s) &&& mask =
        (a ||| a <<< s) &&& mask ||| (b ||| b <<< s) &&& mask := by
    intro a b mask s
    rw [UInt64.shiftLeft_or, or_or_or_comm, and_or_distrib]
  simp only [spreadBits, hstage]

theorem squashBits_or (a b : UInt64) : squashBits (a ||| b) = squashBits a ||| squashBits b := by
  have hstage : ∀ (a b mask s : UInt64),
      (a ||| b ||| (a ||| b) >>> s) &&& mask =
        (a ||| a >>> s) &&& mask ||| (b ||| b >>> s) &&& mask := by
    intro a b mask s
    rw [UInt64.shiftRight_or, or_or_or_comm, and_or_distrib]
  simp only [squashBits, hstage]

theorem ofNat_or (a b : ℕ) : UInt64.ofNat (a ||| b) = UInt64.ofNat a ||| UInt64.ofNat b := by
  rw [← UInt64.toNat_inj, UInt64.toNat_or, UInt64.toNat_ofNat', UInt64.toNat_ofNat',
    UInt64.toNat_ofNat', Nat.or_mod_two_pow]

theorem toNat_spreadBits {x : ℕ} (hx : x < 2 ^ 32) :
    (spreadBits (UInt64.ofNat x)).toNat = spread x := by
  refine eq_of_or_hom (f := fun x => (spreadBits (UInt64.ofNat x)).toNat) (n := 32) (fun a b => ?_)
    spread_or ?_ (fun i hi => ?_) hx
  · simp only [ofNat_or, spreadBits_or, UInt64.toNat_or]
  · rw [spread_zero]
    rfl
  · have hall : ∀ i < 32, (spreadBits (UInt64.ofNat (2 ^ i))).toNat = 4 ^ i := by decide +kernel
    rw [spread_two_pow]
    exact hall i hi

theorem toNat_squashBits {x y : ℕ} (hx : x < 2 ^ 32) (hy : y < 2 ^ 32) :
    (squashBits (UInt64.ofNat (weave x y))).toNat = x := by
  have hor : ∀ a b, (squashBits (UInt64.ofNat (a ||| b))).toNat =
      (squashBits (UInt64.ofNat a)).toNat ||| (squashBits (UInt64.ofNat b)).toNat := by
    intro a b
    rw [ofNat_or, squashBits_or, UInt64.toNat_or]
  have heven : (squashBits (UInt64.ofNat (spread x))).toNat = x := by
    refine eq_of_or_hom (f := fun x => (squashBits (UInt64.ofNat (spread x))).toNat) (g := id)
      (n := 32) (fun a b => ?_) (fun _ _ => rfl) ?_ (fun i hi => ?_) hx
    · rw [spread_or, hor]
    · rw [spread_zero]
      rfl
    · have hall : ∀ i < 32, (squashBits (UInt64.ofNat (4 ^ i))).toNat = 2 ^ i := by decide +kernel
      rw [spread_two_pow]
      exact hall i hi
  have hodd : (squashBits (UInt64.ofNat (2 * spread y))).toNat = 0 := by
    refine eq_of_or_hom (f := fun y => (squashBits (UInt64.ofNat (2 * spread y))).toNat)
      (g := fun _ => 0) (n := 32) (fun a b => ?_) (fun _ _ => rfl) ?_ (fun i hi => ?_) hy
    · have h := weave_or 0 a 0 b
      rw [Nat.or_zero, weave_zero_left, weave_zero_left, weave_zero_left] at h
      rw [← h, hor]
    · rw [spread_zero]
      rfl
    · have hall : ∀ i < 32, (squashBits (UInt64.ofNat (2 * 4 ^ i))).toNat = 0 := by decide +kernel
      rw [spread_two_pow]
      exact hall i hi
  rw [weave_eq_or, hor, heven, hodd, Nat.or_zero]

theorem ofNat_toNat_toUInt64 (x : UInt32) : UInt64.ofNat x.toNat = x.toUInt64 := by
  have hlt := x.toNat_lt
  rw [← UInt64.toNat_inj, UInt64.toNat_ofNat_of_lt' (hlt.trans (by norm_num)),
    UInt32.toNat_toUInt64]

theorem toNat_interleave64 (xlo ylo : UInt32) :
    (interleave64 xlo ylo).toNat = weave xlo.toNat ylo.toNat := by
  have hx := toNat_spreadBits xlo.toNat_lt
  have hy := toNat_spreadBits ylo.toNat_lt
  have hlt : 2 * spread ylo.toNat < 4 ^ 32 := by
    rw [← weave_zero_left]
    exact weave_lt_iff.mpr ⟨by norm_num, ylo.toNat_lt⟩
  rw [ofNat_toNat_toUInt64] at hx hy
  have hone : (1 : UInt64).toNat % 64 = 1 := rfl
  rw [interleave64, UInt64.toNat_or, UInt64.toNat_shiftLeft, hx, hy, hone, Nat.shiftLeft_eq,
    pow_one, mul_comm, Nat.mod_eq_of_lt (hlt.trans_eq (by norm_num)), weave_eq_or]

theorem deinterleave64_of_weave {bits : UInt64} {x y : ℕ} (h : bits.toNat = weave x y) :
    (deinterleave64 bits).1.toNat = x ∧ (deinterleave64 bits).2.toNat = y := by
  have hlt : weave x y < 4 ^ 32 := by
    rw [← h]
    exact bits.toNat_lt.trans_eq (by norm_num)
  obtain ⟨hx, hy⟩ := weave_lt_iff.mp hlt
  have hbits : bits = UInt64.ofNat (weave x y) := by
    rw [← h, UInt64.ofNat_toNat]
  have hshift : bits >>> 1 = UInt64.ofNat (weave y (x / 2)) := by
    have hone : (1 : UInt64).toNat % 64 = 1 := rfl
    rw [← UInt64.toNat_inj, UInt64.toNat_shiftRight, h, hone, Nat.shiftRight_eq_div_pow, pow_one,
      weave_div_two, UInt64.toNat_ofNat_of_lt']
    rw [← weave_div_two]
    exact (Nat.div_le_self _ _).trans_lt (hlt.trans_eq (by norm_num))
  rw [deinterleave64]
  constructor
  · rw [UInt64.toNat_toUInt32, hbits, toNat_squashBits hx hy, Nat.mod_eq_of_lt hx]
  · rw [UInt64.toNat_toUInt32, hshift, toNat_squashBits hy (by omega), Nat.mod_eq_of_lt hy]

theorem deinterleave64_interleave64 (xlo ylo : UInt32) :
    deinterleave64 (interleave64 xlo ylo) = (xlo, ylo) := by
  obtain ⟨hx, hy⟩ := deinterleave64_of_weave (toNat_interleave64 xlo ylo)
  exact Prod.ext (UInt32.toNat_inj.mp hx) (UInt32.toNat_inj.mp hy)

/-! ## Cells -/

namespace GeoHashBits

def lat (hash : GeoHashBits) : ℕ := (deinterleave64 hash.bits).1.toNat

def lon (hash : GeoHashBits) : ℕ := (deinterleave64 hash.bits).2.toNat

/-- A cell of the grid of its step. -/
structure IsCell (hash : GeoHashBits) : Prop where
  one_le : 1 ≤ hash.step.toNat
  le_max : hash.step.toNat ≤ 26
  bits_lt : hash.bits.toNat < 4 ^ hash.step.toNat

theorem toNat_bits (hash : GeoHashBits) : hash.bits.toNat = weave hash.lat hash.lon := by
  obtain ⟨x, y, hxy⟩ := exists_weave hash.bits.toNat
  obtain ⟨hx, hy⟩ := deinterleave64_of_weave hxy.symm
  rw [lat, lon, hx, hy, hxy]

variable {hash : GeoHashBits}

theorem IsCell.lat_lt (h : hash.IsCell) : hash.lat < 2 ^ hash.step.toNat :=
  (weave_lt_iff.mp (hash.toNat_bits ▸ h.bits_lt)).1

theorem IsCell.lon_lt (h : hash.IsCell) : hash.lon < 2 ^ hash.step.toNat :=
  (weave_lt_iff.mp (hash.toNat_bits ▸ h.bits_lt)).2

end GeoHashBits

/-! ## Moves -/

theorem toNat_even : (0x5555555555555555 : UInt64).toNat = evenMask 32 := by
  have h := evenMask_eq 32
  have hval : 3 * (0x5555555555555555 : UInt64).toNat + 1 = 4 ^ 32 := by decide +kernel
  omega

theorem toNat_odd : (0xaaaaaaaaaaaaaaaa : UInt64).toNat = 2 * evenMask 32 := by
  have h := evenMask_eq 32
  have hval : 3 * (0xaaaaaaaaaaaaaaaa : UInt64).toNat + 2 = 2 * 4 ^ 32 := by decide +kernel
  omega

theorem toNat_shifted {step : UInt8} (hpos : 1 ≤ step.toNat) (hmax : step.toNat ≤ 26) :
    ((0x5555555555555555 : UInt64) >>> (64 - step * 2).toUInt64).toNat = evenMask step.toNat ∧
      ((0xaaaaaaaaaaaaaaaa : UInt64) >>> (64 - step * 2).toUInt64).toNat =
        2 * evenMask step.toNat := by
  have hall : ∀ k < 26,
      3 * ((0x5555555555555555 : UInt64) >>> (64 - UInt8.ofNat (k + 1) * 2).toUInt64).toNat + 1 =
          4 ^ (k + 1) ∧
        3 * ((0xaaaaaaaaaaaaaaaa : UInt64) >>> (64 - UInt8.ofNat (k + 1) * 2).toUInt64).toNat + 2 =
          2 * 4 ^ (k + 1) := by
    decide +kernel
  have hk : step.toNat - 1 + 1 = step.toNat := by omega
  have h := hall (step.toNat - 1) (by omega)
  have hmask := evenMask_eq step.toNat
  rw [hk, UInt8.ofNat_toNat] at h
  obtain ⟨heven, hodd⟩ := h
  constructor
  · omega
  · omega

theorem toNat_and_even (hash : GeoHashBits) :
    (hash.bits &&& 0x5555555555555555).toNat = spread hash.lat := by
  have hlt : hash.lat < 2 ^ 32 := (deinterleave64 hash.bits).1.toNat_lt
  have hmask := add_and_evenMask hash.lat hash.lon 0 32
  rw [mul_zero, add_zero, Nat.mod_eq_of_lt hlt] at hmask
  rw [UInt64.toNat_and, hash.toNat_bits, toNat_even, hmask]

theorem toNat_and_odd (hash : GeoHashBits) :
    (hash.bits &&& 0xaaaaaaaaaaaaaaaa).toNat = 2 * spread hash.lon := by
  have hlt : hash.lon < 2 ^ 32 := (deinterleave64 hash.bits).2.toNat_lt
  have hmask := add_and_oddMask hash.lat hash.lon 0 32
  rw [mul_zero, add_zero, Nat.mod_eq_of_lt hlt] at hmask
  rw [UInt64.toNat_and, hash.toNat_bits, toNat_odd, hmask]

namespace GeoHashBits

variable {hash moved : GeoHashBits} {d : Int8}

/-- A cell of the same step at other coordinates. -/
structure At (moved hash : GeoHashBits) (lat lon : ℕ) : Prop where
  step : moved.step = hash.step
  lat : moved.lat = lat
  lon : moved.lon = lon

theorem at_of_bits {lat lon : ℕ} (hstep : moved.step = hash.step)
    (hbits : moved.bits.toNat = weave lat lon) : moved.At hash lat lon := by
  obtain ⟨hlat, hlon⟩ := deinterleave64_of_weave hbits
  exact ⟨hstep, hlat, hlon⟩

theorem At.isCell {lat lon : ℕ} (h : moved.At hash lat lon) (hcell : hash.IsCell)
    (hlat : lat < 2 ^ hash.step.toNat) (hlon : lon < 2 ^ hash.step.toNat) : moved.IsCell where
  one_le := h.step ▸ hcell.one_le
  le_max := h.step ▸ hcell.le_max
  bits_lt := by
    rw [moved.toNat_bits, h.lat, h.lon, h.step]
    exact weave_lt_iff.mpr ⟨hlat, hlon⟩

theorem IsCell.moves (h : hash.IsCell) (hd : d ≠ 0) :
    ¬(d = 0 ∨ hash.step = 0 ∨ 26 < hash.step) := by
  have hone := h.one_le
  have hmax := h.le_max
  rintro (hzero | hzero | hlt)
  · exact hd hzero
  · rw [hzero] at hone
    exact absurd hone (by decide)
  · have hnat : 26 < hash.step.toNat := UInt8.lt_iff_toNat_lt.mp hlt
    omega

theorem IsCell.moveX (h : hash.IsCell) (hd : d ≠ 0) :
    (geohashMoveX hash d).At hash hash.lat (turned hash.step.toNat (decide (0 < d)) hash.lon) := by
  obtain ⟨heven, hodd⟩ := toNat_shifted h.one_le h.le_max
  have hlat := h.lat_lt
  have hlon := h.lon_lt
  have hmask := evenMask_eq hash.step.toNat
  have hpow : (4 : ℕ) ^ hash.step.toNat ≤ 4 ^ 26 := Nat.pow_le_pow_right four_pos h.le_max
  have hzz : ((0x5555555555555555 : UInt64) >>> (64 - hash.step * 2).toUInt64 + 1).toNat =
      evenMask hash.step.toNat + 1 := by
    rw [UInt64.toNat_add, heven, show (1 : UInt64).toNat = 1 by rfl]
    exact Nat.mod_eq_of_lt (by omega)
  have hspread : 2 * spread hash.lon < 4 ^ hash.step.toNat := by
    rw [← weave_zero_left]
    exact weave_lt_iff.mpr ⟨Nat.two_pow_pos _, hlon⟩
  rw [geohashMoveX, geohashMove, if_neg (h.moves hd)]
  refine at_of_bits rfl ?_
  dsimp only
  rw [UInt64.toNat_or, toNat_and_even, UInt64.toNat_and, hodd]
  by_cases hup : 0 < d
  · rw [if_pos hup, decide_eq_true hup, UInt64.toNat_add, toNat_and_odd, hzz,
      Nat.mod_eq_of_lt (by omega), and_oddMask_up hlon, Nat.or_comm, ← weave_eq_or]
  · have hor : (hash.bits &&& 0xaaaaaaaaaaaaaaaa |||
        (0x5555555555555555 : UInt64) >>> (64 - hash.step * 2).toUInt64).toNat =
        2 * spread hash.lon + evenMask hash.step.toNat := by
      rw [UInt64.toNat_or, toNat_and_odd, heven, Nat.or_comm, evenMask, ← weave_eq_or, weave]
      omega
    have hword : (2 : ℕ) ^ 64 = 4 ^ 32 := by norm_num
    rw [if_neg hup, decide_eq_false hup, UInt64.toNat_sub, hzz, hor, hword,
      and_oddMask_down hlon (by have := h.le_max; omega), Nat.or_comm, ← weave_eq_or]

theorem IsCell.moveY (h : hash.IsCell) (hd : d ≠ 0) :
    (geohashMoveY hash d).At hash (turned hash.step.toNat (decide (0 < d)) hash.lat) hash.lon := by
  obtain ⟨heven, hodd⟩ := toNat_shifted h.one_le h.le_max
  have hlat := h.lat_lt
  have hlon := h.lon_lt
  have hmask := evenMask_eq hash.step.toNat
  have hpow : (4 : ℕ) ^ hash.step.toNat ≤ 4 ^ 26 := Nat.pow_le_pow_right four_pos h.le_max
  have hzz : ((0xaaaaaaaaaaaaaaaa : UInt64) >>> (64 - hash.step * 2).toUInt64 + 1).toNat =
      2 * evenMask hash.step.toNat + 1 := by
    rw [UInt64.toNat_add, hodd, show (1 : UInt64).toNat = 1 by rfl]
    exact Nat.mod_eq_of_lt (by omega)
  have hspread : spread hash.lat < 4 ^ hash.step.toNat := by
    rw [← weave_zero_right]
    exact weave_lt_iff.mpr ⟨hlat, Nat.two_pow_pos _⟩
  rw [geohashMoveY, geohashMove, if_neg (h.moves hd)]
  refine at_of_bits rfl ?_
  dsimp only
  rw [UInt64.toNat_or, toNat_and_odd, UInt64.toNat_and, heven]
  by_cases hup : 0 < d
  · rw [if_pos hup, decide_eq_true hup, UInt64.toNat_add, toNat_and_even, hzz,
      Nat.mod_eq_of_lt (by omega), and_evenMask_up hlat, ← weave_eq_or]
  · have hor : (hash.bits &&& 0x5555555555555555 |||
        (0xaaaaaaaaaaaaaaaa : UInt64) >>> (64 - hash.step * 2).toUInt64).toNat =
        spread hash.lat + 2 * evenMask hash.step.toNat := by
      rw [UInt64.toNat_or, toNat_and_even, hodd, evenMask, ← weave_eq_or, weave]
    have hword : (2 : ℕ) ^ 64 = 4 ^ 32 := by norm_num
    rw [if_neg hup, decide_eq_false hup, UInt64.toNat_sub, hzz, hor, hword,
      and_evenMask_down hlat (by have := h.le_max; omega), ← weave_eq_or]

/-- The cell that lies so many rows to the north and columns to the east on the torus. -/
structure IsNeighbor (moved hash : GeoHashBits) (north east : ℤ) : Prop where
  cell : moved.IsCell
  step : moved.step = hash.step
  lat : (moved.lat : ℤ) = (hash.lat + north) % 2 ^ hash.step.toNat
  lon : (moved.lon : ℤ) = (hash.lon + east) % 2 ^ hash.step.toNat

theorem coe_turned (k : ℕ) (up : Bool) (c : ℕ) :
    (turned k up c : ℤ) = (c + if up then 1 else -1) % 2 ^ k := by
  have hpos := Nat.two_pow_pos k
  rw [turned]
  cases up with
  | true =>
    rw [if_pos rfl, if_pos rfl]
    push_cast
    rfl
  | false =>
    rw [if_neg Bool.false_ne_true, if_neg Bool.false_ne_true, ← Int.add_emod_right (c + -1 : ℤ)]
    push_cast [Nat.one_le_two_pow]
    ring_nf

theorem IsNeighbor.self (h : hash.IsCell) : hash.IsNeighbor hash 0 0 where
  cell := h
  step := rfl
  lat := by
    rw [add_zero]
    exact (Int.emod_eq_of_lt (by omega) (by exact_mod_cast h.lat_lt)).symm
  lon := by
    rw [add_zero]
    exact (Int.emod_eq_of_lt (by omega) (by exact_mod_cast h.lon_lt)).symm

variable {north east : ℤ}

theorem IsNeighbor.moveX (h : moved.IsNeighbor hash north east) (hd : d ≠ 0) :
    (geohashMoveX moved d).IsNeighbor hash north (east + if 0 < d then 1 else -1) := by
  have hmove := h.cell.moveX hd
  refine ⟨hmove.isCell h.cell h.cell.lat_lt (turned_lt _ _ _), hmove.step.trans h.step, ?_, ?_⟩
  · rw [hmove.lat, h.lat]
  · rw [hmove.lon, coe_turned, h.step, h.lon, Int.emod_add_emod, add_assoc]
    simp only [decide_eq_true_eq]

theorem IsNeighbor.moveY (h : moved.IsNeighbor hash north east) (hd : d ≠ 0) :
    (geohashMoveY moved d).IsNeighbor hash (north + if 0 < d then 1 else -1) east := by
  have hmove := h.cell.moveY hd
  refine ⟨hmove.isCell h.cell (turned_lt _ _ _) h.cell.lon_lt, hmove.step.trans h.step, ?_, ?_⟩
  · rw [hmove.lat, coe_turned, h.step, h.lat, Int.emod_add_emod, add_assoc]
    simp only [decide_eq_true_eq]
  · rw [hmove.lon, h.lon]

/-- The eight cells around a cell, under their names. -/
structure Surrounds (n : GeoHashNeighbors) (hash : GeoHashBits) : Prop where
  north : n.north.IsNeighbor hash 1 0
  south : n.south.IsNeighbor hash (-1) 0
  east : n.east.IsNeighbor hash 0 1
  west : n.west.IsNeighbor hash 0 (-1)
  northEast : n.northEast.IsNeighbor hash 1 1
  northWest : n.northWest.IsNeighbor hash 1 (-1)
  southEast : n.southEast.IsNeighbor hash (-1) 1
  southWest : n.southWest.IsNeighbor hash (-1) (-1)

theorem geohashNeighbors_surrounds (h : hash.IsCell) : Surrounds (geohashNeighbors hash) hash := by
  have hup : (1 : Int8) ≠ 0 := by decide
  have hdown : (-1 : Int8) ≠ 0 := by decide
  have hself := IsNeighbor.self h
  exact
    { north := hself.moveY hup
      south := hself.moveY hdown
      east := hself.moveX hup
      west := hself.moveX hdown
      northEast := (hself.moveX hup).moveY hup
      northWest := (hself.moveX hdown).moveY hup
      southEast := (hself.moveX hup).moveY hdown
      southWest := (hself.moveX hdown).moveY hdown }

/-! ## Scores -/

theorem toNat_alignShift {step : UInt8} (hone : 1 ≤ step.toNat) (hmax : step.toNat ≤ 26) :
    (52 - step * 2).toUInt64.toNat % 64 = 2 * (26 - step.toNat) := by
  have hall : ∀ k < 26, (52 - UInt8.ofNat (k + 1) * 2).toUInt64.toNat % 64 =
      2 * (26 - (k + 1)) := by
    decide +kernel
  have hk : step.toNat - 1 + 1 = step.toNat := by omega
  have hval := hall (step.toNat - 1) (by omega)
  rwa [hk, UInt8.ofNat_toNat] at hval

theorem toNat_align52bits_of_le {step : UInt8} {bits : UInt64} (hone : 1 ≤ step.toNat)
    (hmax : step.toNat ≤ 26) (hbits : bits.toNat ≤ 4 ^ (step.toNat + 1)) :
    (align52bits { bits := bits, step := step }).toNat = bits.toNat * 4 ^ (26 - step.toNat) := by
  have hle : bits.toNat * 4 ^ (26 - step.toNat) ≤ 4 ^ 27 := by
    calc bits.toNat * 4 ^ (26 - step.toNat)
        ≤ 4 ^ (step.toNat + 1) * 4 ^ (26 - step.toNat) := Nat.mul_le_mul_right _ hbits
      _ = 4 ^ 27 := by
        rw [← pow_add]
        congr 1
        omega
  have hpow : 2 ^ (2 * (26 - step.toNat)) = 4 ^ (26 - step.toNat) := by
    rw [pow_mul]
    norm_num
  rw [align52bits, UInt64.toNat_shiftLeft, toNat_alignShift hone hmax, Nat.shiftLeft_eq, hpow]
  exact Nat.mod_eq_of_lt (hle.trans_lt (by norm_num))

theorem IsCell.toNat_align52bits (h : hash.IsCell) {bits : UInt64}
    (hbits : bits.toNat ≤ 4 ^ hash.step.toNat) :
    (align52bits { hash with bits := bits }).toNat = bits.toNat * 4 ^ (26 - hash.step.toNat) :=
  toNat_align52bits_of_le h.one_le h.le_max
    (hbits.trans (Nat.pow_le_pow_right four_pos (Nat.le_succ _)))

theorem mem_scoresOfGeohashBox (h : hash.IsCell) (score : UInt64) :
    ((scoresOfGeohashBox hash).1 ≤ score ∧ score < (scoresOfGeohashBox hash).2) ↔
      score.toNat < 2 ^ 52 ∧ score.toNat / 2 ^ (52 - 2 * hash.step.toNat) = hash.bits.toNat := by
  have hlt := h.bits_lt
  have hmax := h.le_max
  have hpow : (4 : ℕ) ^ hash.step.toNat ≤ 4 ^ 26 := Nat.pow_le_pow_right four_pos hmax
  have hnext : (hash.bits + 1).toNat = hash.bits.toNat + 1 := by
    rw [UInt64.toNat_add, show (1 : UInt64).toNat = 1 by rfl]
    exact Nat.mod_eq_of_lt (by omega)
  have hmin := @IsCell.toNat_align52bits _ h hash.bits hlt.le
  have hlast := @IsCell.toNat_align52bits _ h (hash.bits + 1) (by omega)
  have hwidth : 2 ^ (52 - 2 * hash.step.toNat) = 4 ^ (26 - hash.step.toNat) := by
    rw [show 52 - 2 * hash.step.toNat = 2 * (26 - hash.step.toNat) by omega, pow_mul]
    norm_num
  have hpos : 0 < 4 ^ (26 - hash.step.toNat) := Nat.pow_pos four_pos
  rw [UInt64.le_iff_toNat_le, UInt64.lt_iff_toNat_lt, scoresOfGeohashBox, hmin, hlast, hnext,
    hwidth,
    Nat.div_eq_iff hpos]
  have htotal : 4 ^ hash.step.toNat * 4 ^ (26 - hash.step.toNat) = 2 ^ 52 := by
    rw [← pow_add, Nat.add_sub_cancel' hmax]
    norm_num
  have hle : (hash.bits.toNat + 1) * 4 ^ (26 - hash.step.toNat) ≤ 2 ^ 52 := by
    rw [← htotal]
    exact Nat.mul_le_mul_right _ hlt
  rw [Nat.add_mul, one_mul] at hle ⊢
  omega

/-! ## Words past the edge -/

/-- A word of a step whose coordinates may lie one past the grid. -/
structure OfStep (hash : GeoHashBits) (step : UInt8) : Prop where
  step_eq : hash.step = step
  one_le : 1 ≤ step.toNat
  le_max : step.toNat ≤ 26
  bits_lt : hash.bits.toNat < 4 ^ (step.toNat + 1)

variable {step : UInt8}

theorem OfStep.of_or (h : hash.OfStep step) {own y : UInt64}
    (hown : (own >>> (64 - hash.step * 2).toUInt64).toNat < 4 ^ (step.toNat + 1)) (x : UInt64) :
    (x &&& own >>> (64 - hash.step * 2).toUInt64 ||| hash.bits &&& y).toNat <
      4 ^ (step.toNat + 1) := by
  have hpow : 4 ^ (step.toNat + 1) = 2 ^ (2 * (step.toNat + 1)) := by
    rw [pow_mul]
    norm_num
  have hbits := h.bits_lt
  rw [hpow] at hbits hown ⊢
  rw [UInt64.toNat_or, UInt64.toNat_and, UInt64.toNat_and]
  exact Nat.or_lt_two_pow (Nat.and_le_right.trans_lt hown) (Nat.and_le_left.trans_lt hbits)

theorem OfStep.geohashMove (h : hash.OfStep step) {own rest : UInt64}
    (hown : (own >>> (64 - hash.step * 2).toUInt64).toNat < 4 ^ (step.toNat + 1)) (d : Int8) :
    (geohashMove own rest hash d).OfStep step := by
  rw [Wedb.geohashMove]
  by_cases hstay : d = 0 ∨ hash.step = 0 ∨ 26 < hash.step
  · rw [if_pos hstay]
    exact h
  · rw [if_neg hstay]
    exact ⟨h.step_eq, h.one_le, h.le_max, h.of_or hown _⟩

theorem OfStep.moveX (h : hash.OfStep step) (d : Int8) : (geohashMoveX hash d).OfStep step := by
  refine h.geohashMove ?_ d
  have hmask := evenMask_eq step.toNat
  have hpow := pow_succ 4 step.toNat
  rw [h.step_eq, (toNat_shifted h.one_le h.le_max).2]
  omega

theorem OfStep.moveY (h : hash.OfStep step) (d : Int8) : (geohashMoveY hash d).OfStep step := by
  refine h.geohashMove ?_ d
  have hmask := evenMask_eq step.toNat
  have hpow := pow_succ 4 step.toNat
  rw [h.step_eq, (toNat_shifted h.one_le h.le_max).1]
  omega

theorem OfStep.scores (h : hash.OfStep step) :
    (scoresOfGeohashBox hash).1.toNat = hash.bits.toNat * 4 ^ (26 - step.toNat) ∧
      (scoresOfGeohashBox hash).2.toNat = (hash.bits.toNat + 1) * 4 ^ (26 - step.toNat) := by
  have hlt := h.bits_lt
  have hone := h.one_le
  have hmax := h.le_max
  have hpow : (4 : ℕ) ^ (step.toNat + 1) ≤ 4 ^ 27 := Nat.pow_le_pow_right four_pos (by omega)
  have hnext : (hash.bits + 1).toNat = hash.bits.toNat + 1 := by
    rw [UInt64.toNat_add, show (1 : UInt64).toNat = 1 by rfl]
    exact Nat.mod_eq_of_lt (by omega)
  rw [← h.step_eq] at hlt hone hmax ⊢
  rw [scoresOfGeohashBox]
  constructor
  · exact toNat_align52bits_of_le hone hmax hlt.le
  · rw [← hnext]
    exact toNat_align52bits_of_le hone hmax (by omega)

end GeoHashBits

end Wedb
