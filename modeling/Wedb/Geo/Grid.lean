import Mathlib.Tactic.Linarith
import Mathlib.Tactic.Positivity
import Mathlib.Data.Rat.Floor
import Wedb.Engine.Error
import Wedb.Geo.Codec
import Wedb.Ordered.Binary64

/-!
# Positions and cells

A position is stored as its cell of the finest step, and a search of any step reads the scores of
a cell. Literals and the results of operations are rounded by `rd`: exact arithmetic rounds by
the identity, doubles to the nearest number.
-/

namespace Wedb

structure GeoHashRange where
  min : ℚ := 0
  max : ℚ := 0
  deriving DecidableEq, Repr

def GeoHashRange.isZero (range : GeoHashRange) : Bool := range.min == 0 && range.max == 0

structure GeoHashArea where
  hash : GeoHashBits := {}
  latitude : GeoHashRange := {}
  longitude : GeoHashRange := {}
  deriving DecidableEq, Repr

def errInvalidPair (format : ExactNum ℚ → String) (lon lat : ExactNum ℚ) : String :=
  "ERR invalid longitude,latitude pair " ++ format lon ++ "," ++ format lat

def errInvalidCoordinates : String := "ERR invalid longitude/latitude coordinates"

def geoStepMax : UInt8 := 26

def isInfinite : ExactNum ℚ → Bool
  | .negInf | .posInf => true
  | _ => false

/-- The cast of a float to 32 bits, towards zero and within the bounds of the type. -/
def castU32 (x : ℚ) : UInt32 := UInt32.ofNat (min ⌊x⌋₊ (2 ^ 32 - 1))

def clampTo (lo hi x : ℚ) : ℚ :=
  let x := if x < lo then lo else x
  if hi < x then hi else x

section

variable (rd : ℚ → ℚ)

def geoLatMin : ℚ := -rd (8505112878 / 10 ^ 8)
def geoLatMax : ℚ := rd (8505112878 / 10 ^ 8)
def geoLonMin : ℚ := -rd 180
def geoLonMax : ℚ := rd 180

def geoLonRange : GeoHashRange where
  min := geoLonMin rd
  max := geoLonMax rd

def geoLatRange : GeoHashRange where
  min := geoLatMin rd
  max := geoLatMax rd

def validateLongLat (format : ExactNum ℚ → String) (lon lat : ExactNum ℚ) : Except Error Unit :=
  if lon.isNan || lat.isNan || isInfinite lon || isInfinite lat ||
      !((ExactNum.fin (geoLonMin rd)).le lon && lon.le (.fin (geoLonMax rd))) ||
      !((ExactNum.fin (geoLatMin rd)).le lat && lat.le (.fin (geoLatMax rd))) then
    .error (.invalidData (errInvalidPair format lon lat))
  else .ok ()

def geohashEncode (longRange latRange : GeoHashRange) (longitude latitude : ℚ) (step : UInt8) :
    Option GeoHashBits :=
  if step = 0 ∨ 32 < step ∨ longRange.isZero ∨ latRange.isZero then none
  else if geoLonMax rd < longitude ∨ longitude < geoLonMin rd ∨ geoLatMax rd < latitude ∨
      latitude < geoLatMin rd then none
  else if latitude < latRange.min ∨ latRange.max < latitude ∨ longitude < longRange.min ∨
      longRange.max < longitude then none
  else
    let latOffset := rd (rd (latitude - latRange.min) / rd (latRange.max - latRange.min))
    let longOffset := rd (rd (longitude - longRange.min) / rd (longRange.max - longRange.min))
    let maxVal := rd ((1 : UInt64) <<< step.toUInt64).toNat
    let latVal := castU32 (rd (latOffset * maxVal))
    let longVal := castU32 (rd (longOffset * maxVal))
    some { bits := interleave64 latVal longVal, step := step }

def geohashDecode (longRange latRange : GeoHashRange) (hash : GeoHashBits) : GeoHashArea :=
  if hash.isZero || latRange.isZero || longRange.isZero then {}
  else
    let (ilato, ilono) := deinterleave64 hash.bits
    let latScale := rd (latRange.max - latRange.min)
    let longScale := rd (longRange.max - longRange.min)
    let maxVal := rd ((1 : UInt64) <<< hash.step.toUInt64).toNat
    { hash := hash
      longitude :=
        { min := rd (longRange.min + rd (rd (ilono.toNat / maxVal) * longScale))
          max := rd (longRange.min + rd (rd ((ilono + 1).toNat / maxVal) * longScale)) }
      latitude :=
        { min := rd (latRange.min + rd (rd (ilato.toNat / maxVal) * latScale))
          max := rd (latRange.min + rd (rd ((ilato + 1).toNat / maxVal) * latScale)) } }

def geohashDecodeAreaToLongLat (area : GeoHashArea) : ℚ × ℚ :=
  (clampTo (geoLonMin rd) (geoLonMax rd)
      (rd (rd (area.longitude.min + area.longitude.max) * (1 / 2))),
    clampTo (geoLatMin rd) (geoLatMax rd)
      (rd (rd (area.latitude.min + area.latitude.max) * (1 / 2))))

def geohashEncodeWgs84 (longitude latitude : ℚ) (step : UInt8) : Option GeoHashBits :=
  geohashEncode rd (geoLonRange rd) (geoLatRange rd) longitude latitude step

def geohashDecodeWgs84 (hash : GeoHashBits) : ℚ × ℚ :=
  geohashDecodeAreaToLongLat rd (geohashDecode rd (geoLonRange rd) (geoLatRange rd) hash)

def encodeGeohash (lon lat : ℚ) : UInt64 :=
  ((geohashEncode rd (geoLonRange rd) (geoLatRange rd) lon lat geoStepMax).map align52bits).getD 0

def decodeGeohash (hash : UInt64) : ℚ × ℚ :=
  geohashDecodeAreaToLongLat rd
    (geohashDecode rd (geoLonRange rd) (geoLatRange rd) { bits := hash, step := geoStepMax })

def geoaddScore (format : ExactNum ℚ → String) (lon lat : ℚ) : Except Error UInt64 :=
  match validateLongLat rd format (.fin lon) (.fin lat) with
  | .error err => .error err
  | .ok () =>
    match geohashEncodeWgs84 rd lon lat geoStepMax with
    | none => .error (.invalidData errInvalidCoordinates)
    | some bits => .ok (align52bits bits)

end

theorem toNat_castU32 {x : ℚ} (h : ⌊x⌋₊ < 2 ^ 32) : (castU32 x).toNat = ⌊x⌋₊ := by
  have hmin : min ⌊x⌋₊ (2 ^ 32 - 1) = ⌊x⌋₊ := min_eq_left (by omega)
  rw [castU32, hmin, UInt32.toNat_ofNat_of_lt' h]

/-! ## One axis -/

namespace GeoHashRange

variable {range : GeoHashRange} {v : ℚ} {k : ℕ}

def offset (range : GeoHashRange) (v : ℚ) : ℚ := (v - range.min) / (range.max - range.min)

def cellOf (range : GeoHashRange) (v : ℚ) (k : ℕ) : GeoHashRange where
  min := range.min + cellIndex (range.offset v) k / 2 ^ k * (range.max - range.min)
  max := range.min + (cellIndex (range.offset v) k + 1) / 2 ^ k * (range.max - range.min)

structure Holds (range : GeoHashRange) (v : ℚ) : Prop where
  min_le : range.min ≤ v
  le_max : v ≤ range.max

theorem Holds.offset_nonneg (h : range.Holds v) : 0 ≤ range.offset v := by
  have hmin := h.min_le
  have hmax := h.le_max
  exact div_nonneg (by linarith) (by linarith)

theorem offset_lt_one_iff (hne : range.min < range.max) : range.offset v < 1 ↔ v < range.max := by
  rw [offset, div_lt_one (by linarith)]
  constructor
  · intro h
    linarith
  · intro h
    linarith

theorem offset_max (hne : range.min < range.max) : range.offset range.max = 1 :=
  div_self (by linarith)

theorem eq_offset (hne : range.min < range.max) (v : ℚ) :
    v = range.min + range.offset v * (range.max - range.min) := by
  have hscale : range.max - range.min ≠ 0 := by linarith
  rw [offset, div_mul_cancel₀ _ hscale]
  ring

theorem Holds.index_le (h : range.Holds v) (hne : range.min < range.max) (k : ℕ) :
    cellIndex (range.offset v) k ≤ 2 ^ k := by
  by_cases hlt : v < range.max
  · exact ((cellIndex_lt_iff h.offset_nonneg).mpr ((offset_lt_one_iff hne).mpr hlt)).le
  · rw [le_antisymm h.le_max (not_lt.mp hlt), offset_max hne, cellIndex_one]

theorem Holds.castU32_scaled (h : range.Holds v) (hne : range.min < range.max) (hk : k ≤ 26) :
    (castU32 (range.offset v * 2 ^ k)).toNat = cellIndex (range.offset v) k := by
  have hle := h.index_le hne k
  have hpow : 2 ^ k ≤ 2 ^ 26 := Nat.pow_le_pow_right two_pos hk
  exact toNat_castU32 ((hle.trans hpow).trans_lt (by norm_num))

theorem Holds.cellOf (h : range.Holds v) (hlt : v < range.max) (k : ℕ) :
    (range.cellOf v k).Holds v ∧ range.min ≤ (range.cellOf v k).min ∧
      (range.cellOf v k).max ≤ range.max := by
  have hne := h.min_le.trans_lt hlt
  have hscale : 0 ≤ range.max - range.min := by linarith
  have hpos : (0 : ℚ) < 2 ^ k := pow_pos two_pos k
  have hlo := mul_le_mul_of_nonneg_right (cellIndex_le h.offset_nonneg (k := k)) hscale
  have hhi := mul_le_mul_of_nonneg_right (lt_cellIndex (range.offset v) k).le hscale
  have hv := eq_offset hne v
  refine ⟨⟨?_, ?_⟩, ?_, ?_⟩
  · rw [GeoHashRange.cellOf]
    linarith
  · rw [GeoHashRange.cellOf]
    linarith
  · rw [GeoHashRange.cellOf]
    have hdiv : (0 : ℚ) ≤ cellIndex (range.offset v) k / 2 ^ k :=
      div_nonneg (Nat.cast_nonneg _) hpos.le
    have hmul := mul_nonneg hdiv hscale
    linarith
  · have hidx := (cellIndex_lt_iff h.offset_nonneg (k := k)).mpr ((offset_lt_one_iff hne).mpr hlt)
    have hcast : (cellIndex (range.offset v) k + 1 : ℚ) ≤ 2 ^ k := by exact_mod_cast hidx
    have hone : (cellIndex (range.offset v) k + 1 : ℚ) / 2 ^ k ≤ 1 := (div_le_one hpos).mpr hcast
    have hmul := mul_le_mul_of_nonneg_right hone hscale
    rw [GeoHashRange.cellOf]
    linarith

theorem cellOf_width (range : GeoHashRange) (v : ℚ) (k : ℕ) :
    (range.cellOf v k).max - (range.cellOf v k).min = (range.max - range.min) / 2 ^ k := by
  rw [GeoHashRange.cellOf]
  ring

end GeoHashRange

/-! ## Positions -/

section

variable {rd : ℚ → ℚ} {format : ExactNum ℚ → String} {lon lat : ℚ} {step : UInt8}
  {hash : GeoHashBits}

theorem holds_of_validateLongLat (h : validateLongLat rd format (.fin lon) (.fin lat) = .ok ()) :
    (geoLonRange rd).Holds lon ∧ (geoLatRange rd).Holds lat := by
  rw [validateLongLat] at h
  split_ifs at h with hout
  rw [Bool.not_eq_true, Bool.or_eq_false_iff, Bool.or_eq_false_iff, Bool.not_eq_false',
    Bool.not_eq_false', Bool.and_eq_true, Bool.and_eq_true] at hout
  obtain ⟨⟨-, hlonMin, hlonMax⟩, hlatMin, hlatMax⟩ := hout
  exact ⟨⟨of_decide_eq_true hlonMin, of_decide_eq_true hlonMax⟩,
    ⟨of_decide_eq_true hlatMin, of_decide_eq_true hlatMax⟩⟩

theorem validateLongLat_of_holds (hlon : (geoLonRange rd).Holds lon)
    (hlat : (geoLatRange rd).Holds lat) :
    validateLongLat rd format (.fin lon) (.fin lat) = .ok () := by
  have hlonMin : (ExactNum.fin (geoLonMin rd)).le (.fin lon) = true := decide_eq_true hlon.min_le
  have hlonMax : (ExactNum.fin lon).le (.fin (geoLonMax rd)) = true := decide_eq_true hlon.le_max
  have hlatMin : (ExactNum.fin (geoLatMin rd)).le (.fin lat) = true := decide_eq_true hlat.min_le
  have hlatMax : (ExactNum.fin lat).le (.fin (geoLatMax rd)) = true := decide_eq_true hlat.le_max
  rw [validateLongLat, if_neg]
  simp only [ExactNum.isNan, isInfinite, hlonMin, hlonMax, hlatMin, hlatMax, Bool.or_false,
    Bool.and_true, Bool.not_true, Bool.false_eq_true, not_false_eq_true]

/-- The two axes, where literals are rounded in order. -/
structure IsAxis (range : GeoHashRange) : Prop where
  min_neg : range.min < 0
  max_pos : 0 < range.max

theorem IsAxis.lt {range : GeoHashRange} (h : IsAxis range) : range.min < range.max :=
  h.min_neg.trans h.max_pos

theorem IsAxis.not_isZero {range : GeoHashRange} (h : IsAxis range) : ¬range.isZero := by
  rw [GeoHashRange.isZero, Bool.and_eq_true, beq_iff_eq]
  intro hzero
  exact absurd hzero.1 h.min_neg.ne

theorem isAxis_geoLonRange (hrd : Rounding.Rounds rd) : IsAxis (geoLonRange rd) := by
  have hmax := hrd.natCast (n := 180) (by norm_num)
  rw [Nat.cast_ofNat] at hmax
  constructor
  · rw [geoLonRange, geoLonMin, hmax]
    norm_num
  · rw [geoLonRange, geoLonMax, hmax]
    norm_num

theorem isAxis_geoLatRange (hrd : Rounding.Rounds rd) : IsAxis (geoLatRange rd) := by
  have hmax := hrd.natCast (n := 85) (by norm_num)
  have hle := hrd.mono (x := 85) (y := 8505112878 / 10 ^ 8) (by norm_num) (by norm_num)
  rw [Nat.cast_ofNat] at hmax
  rw [hmax] at hle
  constructor
  · rw [geoLatRange, geoLatMin]
    linarith
  · rw [geoLatRange, geoLatMax]
    linarith

def GeoHashRange.scaled (rd : ℚ → ℚ) (range : GeoHashRange) (v : ℚ) (step : UInt8) : ℚ :=
  rd (rd (rd (v - range.min) / rd (range.max - range.min)) *
    rd ((1 : UInt64) <<< step.toUInt64).toNat)

theorem geohashEncodeWgs84_of_valid (hrd : Rounding.Rounds rd) (hlon : (geoLonRange rd).Holds lon)
    (hlat : (geoLatRange rd).Holds lat) (hpos : 1 ≤ step.toNat) (hmax : step.toNat ≤ 26) :
    geohashEncodeWgs84 rd lon lat step = some
      { bits := interleave64 (castU32 ((geoLatRange rd).scaled rd lat step))
          (castU32 ((geoLonRange rd).scaled rd lon step))
        step := step } := by
  have hstep : ¬(step = 0 ∨ 32 < step ∨ (geoLonRange rd).isZero ∨ (geoLatRange rd).isZero) := by
    rintro (hzero | hlt | hzero | hzero)
    · rw [hzero] at hpos
      exact absurd hpos (by decide)
    · have hnat : 32 < step.toNat := UInt8.lt_iff_toNat_lt.mp hlt
      omega
    · exact (isAxis_geoLonRange hrd).not_isZero hzero
    · exact (isAxis_geoLatRange hrd).not_isZero hzero
  have hbounds : ¬(geoLonMax rd < lon ∨ lon < geoLonMin rd ∨ geoLatMax rd < lat ∨
      lat < geoLatMin rd) := by
    rintro (h | h | h | h)
    · exact absurd hlon.le_max (not_le.mpr h)
    · exact absurd hlon.min_le (not_le.mpr h)
    · exact absurd hlat.le_max (not_le.mpr h)
    · exact absurd hlat.min_le (not_le.mpr h)
  have hrange : ¬(lat < (geoLatRange rd).min ∨ (geoLatRange rd).max < lat ∨
      lon < (geoLonRange rd).min ∨ (geoLonRange rd).max < lon) := by
    rintro (h | h | h | h)
    · exact absurd hlat.min_le (not_le.mpr h)
    · exact absurd hlat.le_max (not_le.mpr h)
    · exact absurd hlon.min_le (not_le.mpr h)
    · exact absurd hlon.le_max (not_le.mpr h)
  rw [geohashEncodeWgs84, geohashEncode, if_neg hstep, if_neg hbounds, if_neg hrange]
  rfl

theorem toNat_one_shiftLeft (h : step.toNat ≤ 26) :
    (((1 : UInt64) <<< step.toUInt64).toNat : ℚ) = 2 ^ step.toNat := by
  have hmod : step.toUInt64.toNat % 64 = step.toNat := by
    rw [UInt8.toNat_toUInt64]
    omega
  have hpow : 2 ^ step.toNat ≤ 2 ^ 26 := Nat.pow_le_pow_right two_pos h
  rw [UInt64.toNat_shiftLeft, hmod, show (1 : UInt64).toNat = 1 by rfl, Nat.shiftLeft_eq, one_mul,
    Nat.mod_eq_of_lt (hpow.trans_lt (by norm_num)), Nat.cast_pow, Nat.cast_ofNat]

/-- The hash of an accepted position carries its two cells. -/
structure HashOf (hash : GeoHashBits) (lon lat : ℚ) (step : UInt8) : Prop where
  step_eq : hash.step = step
  lat : hash.lat = cellIndex ((geoLatRange id).offset lat) step.toNat
  lon : hash.lon = cellIndex ((geoLonRange id).offset lon) step.toNat

/-- Rounding in order keeps the scaled offset within the grid, its upper end included. -/
theorem toNat_castU32_scaled_le (hrd : Rounding.Rounds rd) {range : GeoHashRange} {v : ℚ}
    (h : range.Holds v) (hmax : step.toNat ≤ 26) :
    (castU32 (range.scaled rd v step)).toNat ≤ 2 ^ step.toNat := by
  have hpow : 2 ^ step.toNat ≤ 2 ^ 26 := Nat.pow_le_pow_right two_pos hmax
  have hcells : rd ((1 : UInt64) <<< step.toUInt64).toNat = (2 ^ step.toNat : ℕ) := by
    rw [toNat_one_shiftLeft hmax, ← Nat.cast_ofNat, ← Nat.cast_pow]
    exact hrd.natCast (hpow.trans_lt (by norm_num))
  have hzero : rd 0 = 0 := by
    have h := hrd.natCast (n := 0) (by norm_num)
    rwa [Nat.cast_zero] at h
  have hone : rd 1 = 1 := by
    have h := hrd.natCast (n := 1) (by norm_num)
    rwa [Nat.cast_one] at h
  have hv : 0 ≤ v - range.min := sub_nonneg.mpr h.min_le
  have hle : v - range.min ≤ range.max - range.min := sub_le_sub_right h.le_max _
  have hdiv : rd (v - range.min) / rd (range.max - range.min) ≤ 1 := by
    refine div_le_one_of_le₀ (hrd.mono hv hle) ?_
    rw [← hzero]
    exact hrd.mono le_rfl (hv.trans hle)
  have hdivPos : 0 ≤ rd (v - range.min) / rd (range.max - range.min) := by
    refine div_nonneg ?_ ?_
    · rw [← hzero]
      exact hrd.mono le_rfl hv
    · rw [← hzero]
      exact hrd.mono le_rfl (hv.trans hle)
  have hoffset := hrd.mono hdivPos hdiv
  have hoffsetPos := hrd.mono le_rfl hdivPos
  rw [hone] at hoffset
  rw [hzero] at hoffsetPos
  have hscaled : range.scaled rd v step ≤ (2 ^ step.toNat : ℕ) := by
    have hnat := hrd.natCast (hpow.trans_lt (by norm_num))
    rw [GeoHashRange.scaled, hcells, ← hnat, hnat]
    refine (hrd.mono (mul_nonneg hoffsetPos (Nat.cast_nonneg _)) ?_).trans_eq hnat
    exact mul_le_of_le_one_left (Nat.cast_nonneg _) hoffset
  have hfloor : ⌊range.scaled rd v step⌋₊ ≤ 2 ^ step.toNat := Nat.floor_le_of_le hscaled
  rw [toNat_castU32 (by omega)]
  exact hfloor

theorem scaled_id {range : GeoHashRange} {v : ℚ} (hmax : step.toNat ≤ 26) :
    range.scaled id v step = range.offset v * 2 ^ step.toNat := by
  rw [GeoHashRange.scaled, toNat_one_shiftLeft hmax]
  rfl

theorem exists_hashOf (hlon : (geoLonRange id).Holds lon) (hlat : (geoLatRange id).Holds lat)
    (hpos : 1 ≤ step.toNat) (hmax : step.toNat ≤ 26) :
    ∃ hash, geohashEncodeWgs84 id lon lat step = some hash ∧ HashOf hash lon lat step := by
  rw [geohashEncodeWgs84_of_valid Rounding.rounds_id hlon hlat hpos hmax, scaled_id hmax,
    scaled_id hmax]
  refine ⟨_, rfl, rfl, ?_, ?_⟩
  · rw [GeoHashBits.lat, deinterleave64_interleave64]
    exact hlat.castU32_scaled (isAxis_geoLatRange Rounding.rounds_id).lt hmax
  · rw [GeoHashBits.lon, deinterleave64_interleave64]
    exact hlon.castU32_scaled (isAxis_geoLonRange Rounding.rounds_id).lt hmax

theorem HashOf.isCell (h : HashOf hash lon lat step) (hlon : (geoLonRange id).Holds lon)
    (hlat : (geoLatRange id).Holds lat) (hpos : 1 ≤ step.toNat) (hmax : step.toNat ≤ 26)
    (hlonLt : lon < geoLonMax id) (hlatLt : lat < geoLatMax id) : hash.IsCell where
  one_le := h.step_eq ▸ hpos
  le_max := h.step_eq ▸ hmax
  bits_lt := by
    have hlonAxis := (isAxis_geoLonRange Rounding.rounds_id).lt
    have hlatAxis := (isAxis_geoLatRange Rounding.rounds_id).lt
    have hlonOne := (GeoHashRange.offset_lt_one_iff hlonAxis).mpr hlonLt
    have hlatOne := (GeoHashRange.offset_lt_one_iff hlatAxis).mpr hlatLt
    rw [hash.toNat_bits, weave_lt_iff, h.step_eq, h.lat, h.lon]
    exact ⟨(cellIndex_lt_iff hlat.offset_nonneg).mpr hlatOne,
      (cellIndex_lt_iff hlon.offset_nonneg).mpr hlonOne⟩

theorem HashOf.bits (h : HashOf hash lon lat step) :
    hash.bits.toNat = weave (cellIndex ((geoLatRange id).offset lat) step.toNat)
      (cellIndex ((geoLonRange id).offset lon) step.toNat) := by
  rw [hash.toNat_bits, h.lat, h.lon]

theorem HashOf.geohashDecode (h : HashOf hash lon lat step) (hcell : hash.IsCell) :
    geohashDecode id (geoLonRange id) (geoLatRange id) hash =
      { hash := hash
        longitude := (geoLonRange id).cellOf lon step.toNat
        latitude := (geoLatRange id).cellOf lat step.toNat } := by
  have hmax := hcell.le_max
  have hpow : 2 ^ hash.step.toNat ≤ 2 ^ 26 := Nat.pow_le_pow_right two_pos hmax
  have hzero : ¬(hash.isZero || (geoLatRange id).isZero || (geoLonRange id).isZero) = true := by
    rw [Bool.or_eq_true, Bool.or_eq_true]
    rintro ((hbits | hrange) | hrange)
    · rw [GeoHashBits.isZero, Bool.and_eq_true, beq_iff_eq, beq_iff_eq] at hbits
      have hone := hcell.one_le
      rw [hbits.2] at hone
      exact absurd hone (by decide)
    · exact (isAxis_geoLatRange Rounding.rounds_id).not_isZero hrange
    · exact (isAxis_geoLonRange Rounding.rounds_id).not_isZero hrange
  have hnext : ∀ {c : UInt32}, c.toNat < 2 ^ hash.step.toNat →
      ((c + 1).toNat : ℚ) = c.toNat + 1 := by
    intro c hc
    rw [UInt32.toNat_add, show (1 : UInt32).toNat = 1 by rfl,
      Nat.mod_eq_of_lt (by omega), Nat.cast_add, Nat.cast_one]
  have hlat : (deinterleave64 hash.bits).1.toNat =
      cellIndex ((geoLatRange id).offset lat) step.toNat :=
    h.lat
  have hlon : (deinterleave64 hash.bits).2.toNat =
      cellIndex ((geoLonRange id).offset lon) step.toNat :=
    h.lon
  rw [Wedb.geohashDecode, if_neg hzero]
  dsimp only
  rw [toNat_one_shiftLeft hmax, hnext hcell.lat_lt, hnext hcell.lon_lt, hlat, hlon, h.step_eq]
  rfl

theorem align52bits_finest {hash : GeoHashBits} (hstep : hash.step = geoStepMax) :
    align52bits hash = hash.bits := by
  have hshift : (52 - geoStepMax * 2).toUInt64 = 0 := rfl
  rw [align52bits, hstep, hshift, UInt64.shiftLeft_zero]

theorem HashOf.scores (h : HashOf hash lon lat step) (hcell : hash.IsCell) {fine : GeoHashBits}
    (hfine : HashOf fine lon lat geoStepMax) (hfineCell : fine.IsCell) :
    (scoresOfGeohashBox hash).1 ≤ align52bits fine ∧
      align52bits fine < (scoresOfGeohashBox hash).2 := by
  have hmax := hcell.le_max
  have hstep := h.step_eq
  have hwidth : 2 ^ (52 - 2 * hash.step.toNat) = 4 ^ (26 - hash.step.toNat) := by
    rw [show 52 - 2 * hash.step.toNat = 2 * (26 - hash.step.toNat) by omega, pow_mul]
    norm_num
  have hlt := hfineCell.bits_lt
  rw [hfine.step_eq, show geoStepMax.toNat = 26 by rfl] at hlt
  rw [align52bits_finest hfine.step_eq, GeoHashBits.mem_scoresOfGeohashBox hcell]
  refine ⟨hlt.trans_eq (by norm_num), ?_⟩
  have hsum : geoStepMax.toNat = step.toNat + (26 - hash.step.toNat) := by
    rw [show geoStepMax.toNat = 26 by rfl, hstep]
    rw [hstep] at hmax
    omega
  rw [hwidth, hfine.bits, h.bits, weave_div, hsum, cellIndex_div, cellIndex_div]

theorem HashOf.prefix_eq {coarse fine : UInt8} {c f : GeoHashBits} (hc : HashOf c lon lat coarse)
    (hf : HashOf f lon lat fine) (hle : coarse.toNat ≤ fine.toNat) :
    f.bits.toNat / 2 ^ (2 * (fine.toNat - coarse.toNat)) = c.bits.toNat := by
  have hsum : fine.toNat = coarse.toNat + (fine.toNat - coarse.toNat) := by omega
  have hpow : (2 : ℕ) ^ (2 * (fine.toNat - coarse.toNat)) = 4 ^ (fine.toNat - coarse.toNat) := by
    rw [pow_mul]
    norm_num
  rw [hpow, hf.bits, hc.bits, weave_div]
  rw [← cellIndex_div _ coarse.toNat (fine.toNat - coarse.toNat), ← hsum,
    ← cellIndex_div _ coarse.toNat (fine.toNat - coarse.toNat), ← hsum]

theorem clampTo_of_mem {lo hi x : ℚ} (hlo : lo ≤ x) (hhi : x ≤ hi) : clampTo lo hi x = x := by
  rw [clampTo, if_neg (not_lt.mpr hlo), if_neg (not_lt.mpr hhi)]

/-- The middle of the cell of a coordinate is on the axis and at most half a cell away. -/
theorem GeoHashRange.Holds.middle {range : GeoHashRange} {v : ℚ} (h : range.Holds v)
    (hlt : v < range.max) (k : ℕ) :
    |clampTo range.min range.max
        (((range.cellOf v k).min + (range.cellOf v k).max) * (1 / 2)) - v| ≤
      (range.max - range.min) / 2 ^ k / 2 := by
  obtain ⟨hcell, hmin, hmax⟩ := h.cellOf hlt k
  have hwidth := range.cellOf_width v k
  have hlo := hcell.min_le
  have hhi := hcell.le_max
  rw [clampTo_of_mem (by linarith) (by linarith), ← hwidth, abs_le]
  constructor
  · linarith
  · linarith

end

/-! ## Stored and found -/

/-- An accepted position is stored under a score of 52 bits, which lies in the cell of the position
at every step and decodes to a position at most half a cell away. -/
structure StoredAndFound (format : ExactNum ℚ → String) (lon lat : ℚ) : Prop where
  stored : geoaddScore id format lon lat = .ok (encodeGeohash id lon lat)
  score_lt : (encodeGeohash id lon lat).toNat < 2 ^ 52
  cell : ∀ step : UInt8, 1 ≤ step.toNat → step.toNat ≤ 26 → ∃ hash,
    geohashEncodeWgs84 id lon lat step = some hash ∧ hash.step = step ∧
      hash.lat < 2 ^ step.toNat ∧ hash.lon < 2 ^ step.toNat ∧
      (geohashDecode id (geoLonRange id) (geoLatRange id) hash).longitude.Holds lon ∧
      (geohashDecode id (geoLonRange id) (geoLatRange id) hash).latitude.Holds lat ∧
      (scoresOfGeohashBox hash).1 ≤ encodeGeohash id lon lat ∧
      encodeGeohash id lon lat < (scoresOfGeohashBox hash).2
  nested : ∀ coarse fine : UInt8, 1 ≤ coarse.toNat → coarse.toNat ≤ fine.toNat → fine.toNat ≤ 26 →
    ∃ c f, geohashEncodeWgs84 id lon lat coarse = some c ∧
      geohashEncodeWgs84 id lon lat fine = some f ∧
      f.bits.toNat / 2 ^ (2 * (fine.toNat - coarse.toNat)) = c.bits.toNat
  near_lon :
    |(decodeGeohash id (encodeGeohash id lon lat)).1 - lon| ≤
      (geoLonMax id - geoLonMin id) / 2 ^ 26 / 2
  near_lat :
    |(decodeGeohash id (encodeGeohash id lon lat)).2 - lat| ≤
      (geoLatMax id - geoLatMin id) / 2 ^ 26 / 2

section

variable {format : ExactNum ℚ → String} {lon lat : ℚ}

theorem geoaddScore_of_encode {hash : GeoHashBits}
    (hvalid : validateLongLat id format (.fin lon) (.fin lat) = .ok ())
    (hhash : geohashEncodeWgs84 id lon lat geoStepMax = some hash) :
    geoaddScore id format lon lat = .ok (encodeGeohash id lon lat) ∧
      encodeGeohash id lon lat = align52bits hash := by
  have hencode : encodeGeohash id lon lat = align52bits hash := by
    rw [encodeGeohash, ← geohashEncodeWgs84, hhash]
    rfl
  refine ⟨?_, hencode⟩
  rw [geoaddScore, hvalid]
  dsimp only
  rw [hhash, hencode]

theorem storedAndFound_of_lt (hvalid : validateLongLat id format (.fin lon) (.fin lat) = .ok ())
    (hlonLt : lon < geoLonMax id) (hlatLt : lat < geoLatMax id) :
    StoredAndFound format lon lat := by
  obtain ⟨hlon, hlat⟩ := holds_of_validateLongLat hvalid
  obtain ⟨fine, hfine, hfineOf⟩ :=
    @exists_hashOf _ _ geoStepMax hlon hlat (by decide) (by decide)
  have hfineCell := hfineOf.isCell hlon hlat (by decide) (by decide) hlonLt hlatLt
  obtain ⟨hstored, hencode⟩ := geoaddScore_of_encode hvalid hfine
  have hbits := align52bits_finest hfineOf.step_eq
  have hfineEq : { bits := encodeGeohash id lon lat, step := geoStepMax } = fine := by
    rw [hencode, hbits, ← hfineOf.step_eq]
  have hdecode := hfineOf.geohashDecode hfineCell
  have hmiddle : decodeGeohash id (encodeGeohash id lon lat) = geohashDecodeAreaToLongLat id
      { hash := fine
        longitude := (geoLonRange id).cellOf lon geoStepMax.toNat
        latitude := (geoLatRange id).cellOf lat geoStepMax.toNat } := by
    rw [decodeGeohash, hfineEq, hdecode]
  refine ⟨hstored, ?_, ?_, ?_, ?_, ?_⟩
  · have hlt := hfineCell.bits_lt
    rw [hfineOf.step_eq, show geoStepMax.toNat = 26 by rfl] at hlt
    rw [hencode, hbits]
    exact hlt.trans_eq (by norm_num)
  · intro step hpos hmax
    obtain ⟨hash, hhash, hof⟩ := exists_hashOf hlon hlat hpos hmax
    have hcell := hof.isCell hlon hlat hpos hmax hlonLt hlatLt
    obtain ⟨hlo, hhi⟩ := hof.scores hcell hfineOf hfineCell
    refine ⟨hash, hhash, hof.step_eq, ?_, ?_, ?_, ?_, ?_, ?_⟩
    · exact hof.step_eq ▸ hcell.lat_lt
    · exact hof.step_eq ▸ hcell.lon_lt
    · rw [hof.geohashDecode hcell]
      exact (hlon.cellOf hlonLt step.toNat).1
    · rw [hof.geohashDecode hcell]
      exact (hlat.cellOf hlatLt step.toNat).1
    · rw [hencode]
      exact hlo
    · rw [hencode]
      exact hhi
  · intro coarse fine hpos hle hmax
    obtain ⟨c, hc, hcOf⟩ := exists_hashOf hlon hlat hpos (hle.trans hmax)
    obtain ⟨f, hf, hfOf⟩ := exists_hashOf hlon hlat (hpos.trans hle) hmax
    exact ⟨c, f, hc, hf, hcOf.prefix_eq hfOf hle⟩
  · rw [hmiddle]
    exact hlon.middle hlonLt 26
  · rw [hmiddle]
    exact hlat.middle hlatLt 26

/-- On the upper bound of an axis the scaled offset is past the last cell. -/
theorem storedAndFound_iff (hvalid : validateLongLat id format (.fin lon) (.fin lat) = .ok ()) :
    StoredAndFound format lon lat ↔ lon < geoLonMax id ∧ lat < geoLatMax id := by
  constructor
  · intro h
    obtain ⟨hlon, hlat⟩ := holds_of_validateLongLat hvalid
    obtain ⟨hash, hhash, hof⟩ :=
      @exists_hashOf _ _ geoStepMax hlon hlat (by decide) (by decide)
    obtain ⟨found, hfound, -, hlatLt, hlonLt, -⟩ := h.cell geoStepMax (by decide) (by decide)
    have hsame : hash = found := Option.some.inj (hhash.symm.trans hfound)
    rw [← hsame, hof.lon, cellIndex_lt_iff hlon.offset_nonneg,
      GeoHashRange.offset_lt_one_iff (isAxis_geoLonRange Rounding.rounds_id).lt] at hlonLt
    rw [← hsame, hof.lat, cellIndex_lt_iff hlat.offset_nonneg,
      GeoHashRange.offset_lt_one_iff (isAxis_geoLatRange Rounding.rounds_id).lt] at hlatLt
    exact ⟨hlonLt, hlatLt⟩
  · intro h
    exact storedAndFound_of_lt hvalid h.1 h.2

theorem holds_zero {range : GeoHashRange} (h : IsAxis range) : range.Holds 0 :=
  ⟨h.min_neg.le, h.max_pos.le⟩

/-- The position where the equator meets the prime meridian. -/
theorem storedAndFound_zero :
    StoredAndFound (fun _ => "0") 0 0 ↔ (0 : ℚ) < geoLonMax id ∧ (0 : ℚ) < geoLatMax id :=
  storedAndFound_iff (validateLongLat_of_holds
    (holds_zero (isAxis_geoLonRange Rounding.rounds_id))
    (holds_zero (isAxis_geoLatRange Rounding.rounds_id)))

/-- The longitude of 180 degrees is accepted, and no cell holds it. -/
theorem not_storedAndFound_antimeridian :
    ¬∀ (format : ExactNum ℚ → String) (lon lat : ℚ),
      validateLongLat id format (.fin lon) (.fin lat) = .ok () →
        StoredAndFound format lon lat := by
  intro h
  have haxis := isAxis_geoLonRange Rounding.rounds_id
  have hlon : (geoLonRange id).Holds (geoLonRange id).max := ⟨haxis.lt.le, le_rfl⟩
  have hlat := holds_zero (isAxis_geoLatRange Rounding.rounds_id)
  obtain ⟨hash, hhash, hof⟩ := @exists_hashOf _ _ geoStepMax hlon hlat (by decide) (by decide)
  have hfound := h (fun _ => "180") _ _ (validateLongLat_of_holds hlon hlat)
  obtain ⟨found, hfound, -, -, hlt, -⟩ := hfound.cell geoStepMax (by decide) (by decide)
  have hsame : hash = found := Option.some.inj (hhash.symm.trans hfound)
  rw [← hsame, hof.lon, GeoHashRange.offset_max haxis.lt, cellIndex_one] at hlt
  exact absurd hlt (lt_irrefl _)

end

end Wedb
