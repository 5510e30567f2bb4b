import Wedb.Geo.Grid
import Wedb.ZSet.Reads

/-!
# Searching by shape

A search encodes its centre at a step that suits the shape and scans the cell of the centre and
the cells around it, each once, for the members whose scores lie in them. Distances and the other
functions of the sphere are parameters; all arithmetic rounds to doubles.
-/

universe u v

namespace Wedb

open Binary64 (nearest)

inductive DistanceUnit
  | meters
  | kilometers
  | miles
  | feet
  deriving DecidableEq, Repr

def DistanceUnit.conversionFactor : DistanceUnit → ℚ
  | .meters => 1
  | .kilometers => 1000
  | .miles => nearest (160934 / 100)
  | .feet => nearest (3048 / 10000)

def DistanceUnit.fromMeters (unit : DistanceUnit) (meters : ExactNum ℚ) : ExactNum ℚ :=
  Binary64.div meters (.fin unit.conversionFactor)

inductive GeoShapeType
  | none
  | circular
  | rectangular
  deriving DecidableEq, Repr

structure GeoBounds where
  minLon : ExactNum ℚ := .fin 0
  minLat : ExactNum ℚ := .fin 0
  maxLon : ExactNum ℚ := .fin 0
  maxLat : ExactNum ℚ := .fin 0
  deriving DecidableEq, Repr

structure GeoShape where
  shapeType : GeoShapeType
  centerLon : ℚ
  centerLat : ℚ
  radius : ExactNum ℚ
  width : ExactNum ℚ
  height : ExactNum ℚ
  conversion : ExactNum ℚ
  bounds : GeoBounds := {}
  deriving DecidableEq, Repr

structure GeoHashRadius where
  hash : GeoHashBits
  area : GeoHashArea
  neighbors : GeoHashNeighbors
  deriving DecidableEq, Repr

/-- The functions that come from outside: two of the mathematical library, and the distance of two
positions, longitudes first. -/
structure Sphere where
  cos : ExactNum ℚ → ExactNum ℚ
  hypot : ExactNum ℚ → ExactNum ℚ → ExactNum ℚ
  haversineDistance : ℚ → ℚ → ℚ → ℚ → ExactNum ℚ

def earthRadiusMeters : ExactNum ℚ := .fin (nearest (6372797560856 / 10 ^ 6))
def mercatorMax : ExactNum ℚ := .fin (nearest (2003772637 / 100))

def dR : ExactNum ℚ := Binary64.div (.fin (884279719003555 / 2 ^ 48)) (.fin 180)

/-- Doubles a range until it reaches the bound; the least double does after 1099 steps. -/
def doublings : ℕ → ExactNum ℚ → ℤ → ℤ
  | 0, _, step => step
  | fuel + 1, rangeMeters, step =>
    if rangeMeters.lt mercatorMax then
      doublings fuel (Binary64.mul rangeMeters (.fin 2)) (step + 1)
    else step

def estimateStepsByRadius (rangeMeters : ExactNum ℚ) (lat : ℚ) : UInt8 :=
  if rangeMeters.le (.fin 0) then 26
  else
    let step := doublings 1100 rangeMeters 1 - 2
    let step :=
      if ¬(-66 ≤ lat ∧ lat ≤ 66) then
        if ¬(-80 ≤ lat ∧ lat ≤ 80) then step - 1 - 1 else step - 1
      else step
    UInt8.ofNat (max 1 (min 26 step)).toNat

section

variable (sphere : Sphere)

def boundingBox (shape : GeoShape) : GeoShape :=
  let longitude := ExactNum.fin shape.centerLon
  let latitude := ExactNum.fin shape.centerLat
  let height := Binary64.mul shape.conversion
    (if shape.shapeType = .circular then shape.radius
    else Binary64.mul shape.height (.fin (1 / 2)))
  let width := Binary64.mul shape.conversion
    (if shape.shapeType = .circular then shape.radius
    else Binary64.mul shape.width (.fin (1 / 2)))
  let latDelta := Binary64.div (Binary64.div height earthRadiusMeters) dR
  let latTopRad := Binary64.mul (Binary64.add latitude latDelta) dR
  let latBottomRad := Binary64.mul (Binary64.sub latitude latDelta) dR
  let longDeltaTop :=
    Binary64.div (Binary64.div (Binary64.div width earthRadiusMeters) (sphere.cos latTopRad)) dR
  let longDeltaBottom :=
    Binary64.div (Binary64.div (Binary64.div width earthRadiusMeters) (sphere.cos latBottomRad)) dR
  let longDelta := if shape.centerLat < 0 then longDeltaBottom else longDeltaTop
  { shape with
    bounds :=
      { minLon := Binary64.sub longitude longDelta
        minLat := Binary64.sub latitude latDelta
        maxLon := Binary64.add longitude longDelta
        maxLat := Binary64.add latitude latDelta } }

def decodeArea (hash : GeoHashBits) : GeoHashArea :=
  geohashDecode nearest (geoLonRange nearest) (geoLatRange nearest) hash

def decreaseStep (longitude latitude : ℚ) (neighbors : GeoHashNeighbors)
    (radiusMeters : ExactNum ℚ) : Bool :=
  let near := fun lon lat => (sphere.haversineDistance longitude latitude lon lat).lt radiusMeters
  near longitude (decodeArea neighbors.north).latitude.max ||
    near longitude (decodeArea neighbors.south).latitude.min ||
    near (decodeArea neighbors.east).longitude.max latitude ||
    near (decodeArea neighbors.west).longitude.min latitude

def dropSouth (n : GeoHashNeighbors) : GeoHashNeighbors :=
  { n with south := {}, southWest := {}, southEast := {} }

def dropNorth (n : GeoHashNeighbors) : GeoHashNeighbors :=
  { n with north := {}, northEast := {}, northWest := {} }

def dropWest (n : GeoHashNeighbors) : GeoHashNeighbors :=
  { n with west := {}, southWest := {}, northWest := {} }

def dropEast (n : GeoHashNeighbors) : GeoHashNeighbors :=
  { n with east := {}, southEast := {}, northEast := {} }

/-- Leaves out the neighbours beyond the sides of the box that the centre's cell reaches past. -/
def dropNeighbors (area : GeoHashArea) (bounds : GeoBounds) (n : GeoHashNeighbors) :
    GeoHashNeighbors :=
  let n := if (ExactNum.fin area.latitude.min).lt bounds.minLat then dropSouth n else n
  let n := if bounds.maxLat.lt (.fin area.latitude.max) then dropNorth n else n
  let n := if (ExactNum.fin area.longitude.min).lt bounds.minLon then dropWest n else n
  if bounds.maxLon.lt (.fin area.longitude.max) then dropEast n else n

def radiusMetersOf (shape : GeoShape) : ExactNum ℚ :=
  Binary64.mul shape.conversion
    (if shape.shapeType = .circular then shape.radius
    else sphere.hypot (Binary64.mul shape.width (.fin (1 / 2)))
      (Binary64.mul shape.height (.fin (1 / 2))))

def centerHash (shape : GeoShape) (steps : UInt8) : GeoHashBits :=
  (geohashEncodeWgs84 nearest shape.centerLon shape.centerLat steps).getD {}

def searchSteps (shape : GeoShape) : UInt8 :=
  let radiusMeters := radiusMetersOf sphere shape
  let steps := estimateStepsByRadius radiusMeters shape.centerLat
  let neighbors := geohashNeighbors (centerHash shape steps)
  if 1 < steps && decreaseStep sphere shape.centerLon shape.centerLat neighbors radiusMeters then
    steps - 1
  else steps

def getAreasByShapeWgs84 (shape : GeoShape) : GeoHashRadius × GeoShape :=
  let shape := boundingBox sphere shape
  let steps := searchSteps sphere shape
  let hash := centerHash shape steps
  let neighbors := geohashNeighbors hash
  let area := decodeArea hash
  ({ hash := hash
     area := area
     neighbors := if 2 ≤ steps then dropNeighbors area shape.bounds neighbors else neighbors },
    shape)

end

def GeoHashRadius.rawNeighbors (areas : GeoHashRadius) : List GeoHashBits :=
  [areas.hash, areas.neighbors.north, areas.neighbors.south, areas.neighbors.east,
    areas.neighbors.west, areas.neighbors.northEast, areas.neighbors.northWest,
    areas.neighbors.southEast, areas.neighbors.southWest]

def uniqueHashes (hashes : List GeoHashBits) : List GeoHashBits :=
  hashes.foldl (fun unique hash =>
    if hash.isZero then unique else if hash ∈ unique then unique else unique ++ [hash]) []

def boxRange (hash : GeoHashBits) : RangeScore :=
  let (minBits, maxBits) := scoresOfGeohashBox hash
  { min := .ofUInt64 minBits, max := .ofUInt64 maxBits, minex := false, maxex := true }

structure GeoPoint (α : Type v) where
  longitude : ℚ
  latitude : ℚ
  member : α
  dist : F64
  score : F64

def scoreToCoord (score : F64) : ℚ × ℚ :=
  geohashDecodeWgs84 nearest { bits := score.toUInt64, step := geoStepMax }

def GeoShape.inside (sphere : Sphere) (shape : GeoShape) (lon lat : ℚ) : Option (ExactNum ℚ) :=
  let d := sphere.haversineDistance shape.centerLon shape.centerLat lon lat
  match shape.shapeType with
  | .circular => if d.le (Binary64.mul shape.radius shape.conversion) then some d else none
  | .rectangular =>
    if shape.bounds.minLon.le (.fin lon) && (ExactNum.fin lon).le shape.bounds.maxLon &&
        shape.bounds.minLat.le (.fin lat) && (ExactNum.fin lat).le shape.bounds.maxLat then
      some d
    else none
  | .none => none

section

variable {α : Type v} (sphere : Sphere) (text : Bytes → α) (shape : GeoShape)
  (unit : DistanceUnit)

def pointOf (x : ZSetMemberScore) : Option (GeoPoint α) :=
  let (lon, lat) := scoreToCoord x.2
  (shape.inside sphere lon lat).map fun d =>
    { longitude := lon
      latitude := lat
      member := text x.1
      dist := .ofExact (unit.fromMeters d)
      score := x.2 }

def isFull (count : Option ℕ) (any : Bool) (points : List (GeoPoint α)) : Bool :=
  any && count.any fun limit => decide (limit ≤ points.length)

def visitPoint (count : Option ℕ) (any : Bool) (points : List (GeoPoint α)) (member : Bytes)
    (score : F64) : List (GeoPoint α) × Bool :=
  match pointOf sphere text shape unit (member, score) with
  | some point => (points ++ [point], !isFull count any (points ++ [point]))
  | none => (points, true)

end

section

variable (s : Store) (kc : KeyComposer) (key : Key) (nowMs : UInt64)

def scanHashes {σ : Type v} (full : σ → Bool) (visit : σ → Bytes → F64 → σ × Bool) :
    List GeoHashBits → σ → Except Error σ
  | [], st => .ok st
  | hash :: hashes, st =>
    (ziterRangeByscore s kc key nowMs (boxRange hash) visit st).bind fun st =>
      if full st then .ok st else scanHashes full visit hashes st

def searchShapeWith {σ : Type v} (sphere : Sphere) (shape : GeoShape) (full : σ → Bool)
    (visit : GeoShape → σ → Bytes → F64 → σ × Bool) (st : σ) : Except Error σ :=
  match zcard s kc key nowMs with
  | .error err => .error err
  | .ok card =>
    if card = 0 then .ok st
    else
      let (areas, shape) := getAreasByShapeWgs84 sphere shape
      scanHashes s kc key nowMs full (visit shape) (uniqueHashes areas.rawNeighbors) st

def searchShapeInternal {α : Type v} (sphere : Sphere) (text : Bytes → α) (shape : GeoShape)
    (unit : DistanceUnit) (count : Option ℕ) (any : Bool) : Except Error (List (GeoPoint α)) :=
  searchShapeWith s kc key nowMs sphere shape (isFull count any)
    (fun shape => visitPoint sphere text shape unit count any) []

def searchVisits {α : Type v} (sphere : Sphere) (text : Bytes → α) (shape : GeoShape)
    (unit : DistanceUnit) (count : Option ℕ) (any : Bool) :
    Except Error (List (GeoPoint α) × List ZSetMemberScore) :=
  searchShapeWith s kc key nowMs sphere shape (fun st => isFull count any st.1)
    (fun shape st member score =>
      logStep (fun st x => visitPoint sphere text shape unit count any st x.1 x.2) st
        (member, score)) ([], [])

end

/-! ## The cells of a search -/

theorem estimateStepsByRadius_bounds (rangeMeters : ExactNum ℚ) (lat : ℚ) :
    1 ≤ (estimateStepsByRadius rangeMeters lat).toNat ∧
      (estimateStepsByRadius rangeMeters lat).toNat ≤ 26 := by
  have hclamp : ∀ step : ℤ, 1 ≤ (UInt8.ofNat (max 1 (min 26 step)).toNat).toNat ∧
      (UInt8.ofNat (max 1 (min 26 step)).toNat).toNat ≤ 26 := by
    intro step
    have hlt : (max 1 (min 26 step)).toNat < 2 ^ 8 := by omega
    rw [UInt8.toNat_ofNat_of_lt' hlt]
    omega
  rw [estimateStepsByRadius]
  by_cases hzero : rangeMeters.le (.fin 0) = true
  · rw [if_pos hzero]
    decide
  · rw [if_neg hzero]
    exact hclamp _

theorem geohashEncodeWgs84_ofStep {rd : ℚ → ℚ} (hrd : Rounding.Rounds rd) {lon lat : ℚ}
    {step : UInt8} (hpos : 1 ≤ step.toNat) (hmax : step.toNat ≤ 26) {hash : GeoHashBits}
    (h : geohashEncodeWgs84 rd lon lat step = some hash) : hash.OfStep step := by
  have hheld : (geoLonRange rd).Holds lon ∧ (geoLatRange rd).Holds lat := by
    rw [geohashEncodeWgs84, geohashEncode] at h
    split_ifs at h with hstep hout
    rw [not_or, not_or, not_or, not_lt, not_lt, not_lt, not_lt] at hout
    exact ⟨⟨hout.2.1, hout.1⟩, ⟨hout.2.2.2, hout.2.2.1⟩⟩
  have hlat := toNat_castU32_scaled_le hrd hheld.2 hmax
  have hlon := toNat_castU32_scaled_le hrd hheld.1 hmax
  rw [geohashEncodeWgs84_of_valid hrd hheld.1 hheld.2 hpos hmax] at h
  cases h
  refine ⟨rfl, hpos, hmax, ?_⟩
  have hpow := pow_succ 2 step.toNat
  have hone := Nat.one_le_two_pow (n := step.toNat)
  rw [toNat_interleave64, weave_lt_iff]
  omega

/-- A word is left out of the scan or belongs to a step. -/
def Searched (step : UInt8) (hash : GeoHashBits) : Prop := hash = {} ∨ hash.OfStep step

/-- Every one of the eight words is left out or belongs to a step. -/
structure AllSearched (step : UInt8) (n : GeoHashNeighbors) : Prop where
  north : Searched step n.north
  south : Searched step n.south
  east : Searched step n.east
  west : Searched step n.west
  northEast : Searched step n.northEast
  northWest : Searched step n.northWest
  southEast : Searched step n.southEast
  southWest : Searched step n.southWest

section

variable {step : UInt8} {hash : GeoHashBits} {n : GeoHashNeighbors}

theorem Searched.moveX (h : Searched step hash) (d : Int8) :
    Searched step (geohashMoveX hash d) := by
  rcases h with rfl | h
  · refine .inl ?_
    rw [geohashMoveX, geohashMove, if_pos (.inr (.inl rfl))]
  · exact .inr (h.moveX d)

theorem Searched.moveY (h : Searched step hash) (d : Int8) :
    Searched step (geohashMoveY hash d) := by
  rcases h with rfl | h
  · refine .inl ?_
    rw [geohashMoveY, geohashMove, if_pos (.inr (.inl rfl))]
  · exact .inr (h.moveY d)

theorem Searched.neighbors (h : Searched step hash) : AllSearched step (geohashNeighbors hash) where
  north := h.moveY 1
  south := h.moveY (-1)
  east := h.moveX 1
  west := h.moveX (-1)
  northEast := (h.moveX 1).moveY 1
  northWest := (h.moveX (-1)).moveY 1
  southEast := (h.moveX 1).moveY (-1)
  southWest := (h.moveX (-1)).moveY (-1)

theorem AllSearched.dropSouth (h : AllSearched step n) : AllSearched step (dropSouth n) :=
  { h with south := .inl rfl, southWest := .inl rfl, southEast := .inl rfl }

theorem AllSearched.dropNorth (h : AllSearched step n) : AllSearched step (dropNorth n) :=
  { h with north := .inl rfl, northEast := .inl rfl, northWest := .inl rfl }

theorem AllSearched.dropWest (h : AllSearched step n) : AllSearched step (dropWest n) :=
  { h with west := .inl rfl, southWest := .inl rfl, northWest := .inl rfl }

theorem AllSearched.dropEast (h : AllSearched step n) : AllSearched step (dropEast n) :=
  { h with east := .inl rfl, southEast := .inl rfl, northEast := .inl rfl }

theorem AllSearched.dropNeighbors (h : AllSearched step n) (area : GeoHashArea)
    (bounds : GeoBounds) : AllSearched step (dropNeighbors area bounds n) := by
  have hif : ∀ {b : Bool} {x y : GeoHashNeighbors}, AllSearched step x → AllSearched step y →
      AllSearched step (if b then x else y) := by
    intro b x y hx hy
    cases b with
    | false => exact hy
    | true => exact hx
  rw [Wedb.dropNeighbors]
  have hsouth := hif (b := (ExactNum.fin area.latitude.min).lt bounds.minLat) h.dropSouth h
  have hnorth := hif (b := bounds.maxLat.lt (.fin area.latitude.max)) hsouth.dropNorth hsouth
  have hwest := hif (b := (ExactNum.fin area.longitude.min).lt bounds.minLon) hnorth.dropWest hnorth
  exact hif hwest.dropEast hwest

theorem searchSteps_bounds (sphere : Sphere) (shape : GeoShape) :
    1 ≤ (searchSteps sphere shape).toNat ∧ (searchSteps sphere shape).toNat ≤ 26 := by
  obtain ⟨hpos, hmax⟩ :=
    estimateStepsByRadius_bounds (radiusMetersOf sphere shape) shape.centerLat
  rw [searchSteps]
  split_ifs with hfiner
  · rw [Bool.and_eq_true, decide_eq_true_eq, UInt8.lt_iff_toNat_lt] at hfiner
    have hone : (1 : UInt8).toNat = 1 := rfl
    rw [UInt8.toNat_sub_of_le _ _ (UInt8.le_iff_toNat_le.mpr hfiner.1.le)]
    omega
  · exact ⟨hpos, hmax⟩

theorem centerHash_searched (shape : GeoShape) (hpos : 1 ≤ step.toNat) (hmax : step.toNat ≤ 26) :
    Searched step (centerHash shape step) := by
  rw [centerHash]
  cases hhash : geohashEncodeWgs84 nearest shape.centerLon shape.centerLat step with
  | none => exact .inl rfl
  | some hash =>
    exact .inr (geohashEncodeWgs84_ofStep Binary64.rounds_nearest hpos hmax hhash)

theorem getAreasByShapeWgs84_searched (sphere : Sphere) (shape : GeoShape) :
    ∃ step, ∀ hash ∈ (getAreasByShapeWgs84 sphere shape).1.rawNeighbors, Searched step hash := by
  obtain ⟨hpos, hmax⟩ := searchSteps_bounds sphere (boundingBox sphere shape)
  have h := centerHash_searched (boundingBox sphere shape) hpos hmax
  have hn := h.neighbors
  have hdropped : AllSearched (searchSteps sphere (boundingBox sphere shape))
      (getAreasByShapeWgs84 sphere shape).1.neighbors := by
    rw [getAreasByShapeWgs84]
    dsimp only
    split_ifs
    · exact hn.dropNeighbors _ _
    · exact hn
  refine ⟨searchSteps sphere (boundingBox sphere shape), ?_⟩
  rw [GeoHashRadius.rawNeighbors]
  simp only [List.forall_mem_cons, List.not_mem_nil, false_imp_iff, implies_true, and_true]
  exact ⟨h, hdropped.north, hdropped.south, hdropped.east, hdropped.west, hdropped.northEast,
    hdropped.northWest, hdropped.southEast, hdropped.southWest⟩

end

/-! ## Cells without overlap -/

def membersIn (M : ZMembers) (hash : GeoHashBits) : List ZSetMemberScore :=
  inScores (boxRange hash) M.ranked

theorem mem_uniqueHashes {hashes : List GeoHashBits} {hash : GeoHashBits} :
    hash ∈ uniqueHashes hashes ↔ hash ∈ hashes ∧ ¬hash.isZero := by
  have hall : ∀ unique : List GeoHashBits,
      hash ∈ hashes.foldl (fun unique hash =>
        if hash.isZero then unique else if hash ∈ unique then unique else unique ++ [hash]) unique ↔
      hash ∈ unique ∨ hash ∈ hashes ∧ ¬hash.isZero := by
    induction hashes with
    | nil => simp
    | cons h hashes ih =>
      intro unique
      rw [List.foldl_cons, ih]
      by_cases hzero : h.isZero = true
      · rw [if_pos hzero, List.mem_cons]
        constructor
        · rintro (hmem | hmem)
          · exact .inl hmem
          · exact .inr ⟨.inr hmem.1, hmem.2⟩
        · rintro (hmem | ⟨rfl | hmem, hne⟩)
          · exact .inl hmem
          · exact absurd hzero hne
          · exact .inr ⟨hmem, hne⟩
      · rw [if_neg hzero, List.mem_cons]
        by_cases hseen : h ∈ unique
        · rw [if_pos hseen]
          constructor
          · rintro (hmem | hmem)
            · exact .inl hmem
            · exact .inr ⟨.inr hmem.1, hmem.2⟩
          · rintro (hmem | ⟨rfl | hmem, hne⟩)
            · exact .inl hmem
            · exact .inl hseen
            · exact .inr ⟨hmem, hne⟩
        · rw [if_neg hseen, List.mem_append, List.mem_singleton]
          constructor
          · rintro ((hmem | rfl) | hmem)
            · exact .inl hmem
            · exact .inr ⟨.inl rfl, hzero⟩
            · exact .inr ⟨.inr hmem.1, hmem.2⟩
          · rintro (hmem | ⟨rfl | hmem, hne⟩)
            · exact .inl (.inl hmem)
            · exact .inl (.inr rfl)
            · exact .inr ⟨hmem, hne⟩
  rw [uniqueHashes, hall, or_iff_right (List.not_mem_nil)]

theorem nodup_uniqueHashes (hashes : List GeoHashBits) : (uniqueHashes hashes).Nodup := by
  have hall : ∀ unique : List GeoHashBits, unique.Nodup →
      (hashes.foldl (fun unique hash =>
        if hash.isZero then unique else if hash ∈ unique then unique else unique ++ [hash])
        unique).Nodup := by
    induction hashes with
    | nil => exact fun unique h => h
    | cons h hashes ih =>
      intro unique hnodup
      rw [List.foldl_cons]
      split_ifs with hzero hseen
      · exact ih unique hnodup
      · exact ih unique hnodup
      · refine ih _ (List.nodup_append.mpr ⟨hnodup, List.nodup_singleton h, ?_⟩)
        intro a ha b hb
        rw [List.mem_singleton.mp hb]
        rintro rfl
        exact hseen ha
  exact hall [] List.nodup_nil

section

variable {step : UInt8} {hash hash' : GeoHashBits} {score : F64}

theorem boxRange_check_iff (h : hash.OfStep step) (hscore : score.isNan = false) :
    (boxRange hash).check score = true ↔
      (F64.placeOf (hash.bits.toNat * 4 ^ (26 - step.toNat)) : ℤ) ≤ score.order ∧
        score.order < F64.placeOf ((hash.bits.toNat + 1) * 4 ^ (26 - step.toNat)) := by
  obtain ⟨hmin, hmax⟩ := h.scores
  obtain ⟨hminOrder, hminNan⟩ := F64.order_ofUInt64 (scoresOfGeohashBox hash).1
  obtain ⟨hmaxOrder, hmaxNan⟩ := F64.order_ofUInt64 (scoresOfGeohashBox hash).2
  rw [hmin] at hminOrder
  rw [hmax] at hmaxOrder
  have hminOk : (boxRange hash).minOk score = true ↔
      (F64.ofUInt64 (scoresOfGeohashBox hash).1).order ≤ score.order := F64.le_iff hminNan hscore
  have hmaxOk : (boxRange hash).maxOk score = true ↔
      score.order < (F64.ofUInt64 (scoresOfGeohashBox hash).2).order := F64.lt_iff hscore hmaxNan
  rw [RangeScore.check, Bool.and_eq_true, hminOk, hmaxOk, hminOrder, hmaxOrder]

theorem boxRange_disjoint (h : hash.OfStep step) (h' : hash'.OfStep step) (hne : hash ≠ hash')
    (hscore : score.isNan = false) (hin : (boxRange hash).check score = true) :
    ¬(boxRange hash').check score = true := by
  have hbits : hash.bits.toNat ≠ hash'.bits.toNat := by
    intro heq
    have hstep := h.step_eq.trans h'.step_eq.symm
    have hword := UInt64.toNat_inj.mp heq
    cases hash
    cases hash'
    cases hstep
    cases hword
    exact hne rfl
  have hafter : ∀ {a b : ℕ}, a < b → F64.placeOf ((a + 1) * 4 ^ (26 - step.toNat)) ≤
      F64.placeOf (b * 4 ^ (26 - step.toNat)) := by
    intro a b hab
    exact F64.placeOf_mono (Nat.mul_le_mul_right _ hab)
  intro hin'
  rw [boxRange_check_iff h hscore] at hin
  rw [boxRange_check_iff h' hscore] at hin'
  rcases Nat.lt_or_gt_of_ne hbits with hlt | hgt
  · have hle := hafter hlt
    omega
  · have hle := hafter hgt
    omega

end

/-- The scores of stored positions that lie in a cell are those of the cell. -/
theorem boxRange_check_ofUInt64 {hash : GeoHashBits} (h : hash.IsCell) {score : UInt64}
    (hscore : score.toNat < 2 ^ 52) : (boxRange hash).check (.ofUInt64 score) = true ↔
      score.toNat / 2 ^ (52 - 2 * hash.step.toNat) = hash.bits.toNat := by
  have hof : hash.OfStep hash.step :=
    ⟨rfl, h.one_le, h.le_max, h.bits_lt.trans (Nat.pow_lt_pow_succ (by norm_num))⟩
  obtain ⟨horder, hnan⟩ := F64.order_ofUInt64 score
  obtain ⟨hmin, hmax⟩ := hof.scores
  have htop : (hash.bits.toNat + 1) * 4 ^ (26 - hash.step.toNat) ≤ 2 ^ 52 := by
    have hmul := Nat.mul_le_mul_right (4 ^ (26 - hash.step.toNat)) h.bits_lt
    rw [← pow_add, Nat.add_sub_cancel' h.le_max] at hmul
    exact hmul.trans_eq (by norm_num)
  have hbottom : hash.bits.toNat * 4 ^ (26 - hash.step.toNat) ≤ 2 ^ 52 :=
    (Nat.mul_le_mul_right _ (Nat.le_succ _)).trans htop
  have hiff : ∀ {m n : ℕ}, m ≤ 2 ^ 53 → n ≤ 2 ^ 53 → (F64.placeOf m ≤ F64.placeOf n ↔ m ≤ n) := by
    intro m n hm hn
    constructor
    · intro hle
      by_contra hlt
      exact absurd (F64.placeOf_lt (not_le.mp hlt) hm) (not_lt.mpr hle)
    · exact F64.placeOf_mono
  have hbox := GeoHashBits.mem_scoresOfGeohashBox h score
  rw [and_iff_right hscore, UInt64.le_iff_toNat_le, UInt64.lt_iff_toNat_lt, hmin, hmax] at hbox
  rw [boxRange_check_iff hof hnan, horder, ← hbox, Nat.cast_le, Nat.cast_lt,
    hiff (by omega) (by omega), ← not_le, hiff (by omega) (by omega), not_le]

/-! ## Scans -/

section

variable {s : Store} {kc : KeyComposer} {key : Key} {now : UInt64} {M : ZMembers}

theorem ZSetReads.ziterRangeByscore {σ : Type u} (h : ZSetReads s kc key now M)
    (hash : GeoHashBits) (visit : σ → Bytes → F64 → σ × Bool) (st : σ) :
    Wedb.ziterRangeByscore s kc key now (boxRange hash) visit st =
      .ok (foldBreak (fun st x => visit st x.1 x.2) st (membersIn M hash)) := by
  have hmin : (boxRange hash).min.isNan = false := (F64.order_ofUInt64 _).2
  have hmax : (boxRange hash).max.isNan = false := (F64.order_ofUInt64 _).2
  have hnil : M.length = 0 → membersIn M hash = [] := by
    intro h0
    rw [membersIn, ZMembers.ranked_of_length h0]
    rfl
  rw [Wedb.ziterRangeByscore]
  by_cases hspec : (boxRange hash).isEmpty = true
  · have hnone : membersIn M hash = [] := by
      refine List.filter_eq_nil_iff.mpr fun x hx hcheck => ?_
      have hzeros := (RangeScore.isEmpty_check hmin hmax (h.numbers hx) hspec).mp hcheck
      exact absurd hzeros.2.2.2.1.symm Bool.false_ne_true
    rw [if_pos hspec, hnone]
    rfl
  · rw [if_neg hspec]
    rw [Bool.not_eq_true] at hspec
    by_cases h0 : M.length = 0
    · rw [h.absent h0, hnil h0]
      rfl
    · obtain ⟨hrep, m, hget, -⟩ := h.present h0
      have hreached : reached kc key (boxRange hash) M = membersIn M hash := by
        rw [reached, inScores, membersIn, inScores, List.filter_comm]
        refine List.filter_eq_self.mpr fun x hx => ?_
        obtain ⟨hmem, hcheck⟩ := List.mem_filter.mp hx
        refine (inBounds_iff hspec hmin hmax (h.numbers hmem) hcheck).mpr ?_
        rintro (hmissed | hmissed)
        · exact absurd hmissed.2.2.2.1.symm Bool.false_ne_true
        · exact absurd hmissed.1 Bool.false_ne_true
      rw [hget]
      simp only [Except.map]
      rw [hrep.score_range fun k => prefix_of_scoreRangeBounds (boxRange hash),
        foldBreak_scoreVisit, foldBreak_byScoreVisit,
        filter_upTo_max hmax (fun x hx => hrep.numbers_ranked (List.mem_filter.mp hx).1)
          (M.ascending_ranked.filter _), ← hreached]
      rfl

def logVisit {σ : Type u} (visit : σ → Bytes → F64 → σ × Bool) (st : σ × List ZSetMemberScore)
    (member : Bytes) (score : F64) : (σ × List ZSetMemberScore) × Bool :=
  logStep (fun st x => visit st x.1 x.2) st (member, score)

/-- What a scan over words did: it visited a prefix of their members, and all of them unless a
full state ended it. -/
structure Scanned {σ : Type u} (full : σ → Bool) (visit : σ → Bytes → F64 → σ × Bool)
    (all : List ZSetMemberScore) (st st' : σ) (seen : List ZSetMemberScore) : Prop where
  sofar : seen <+: all
  complete : full st' = false → seen = all
  state : st' = seen.foldl (fun st x => (visit st x.1 x.2).1) st

theorem ZSetReads.scanHashes_cons {σ : Type u} (h : ZSetReads s kc key now M) (full : σ → Bool)
    (visit : σ → Bytes → F64 → σ × Bool) (hash : GeoHashBits) (hashes : List GeoHashBits) (st : σ) :
    Wedb.scanHashes s kc key now full visit (hash :: hashes) st =
      let next := foldBreak (fun st x => visit st x.1 x.2) st (membersIn M hash)
      if full next then .ok next else Wedb.scanHashes s kc key now full visit hashes next := by
  rw [Wedb.scanHashes, h.ziterRangeByscore]
  rfl

theorem ZSetReads.scanHashes {σ : Type u} (h : ZSetReads s kc key now M) {full : σ → Bool}
    {visit : σ → Bytes → F64 → σ × Bool}
    (hfull : ∀ st member score, (visit st member score).2 = false →
      full (visit st member score).1 = true) (hashes : List GeoHashBits) (st : σ)
    (log : List ZSetMemberScore) :
    ∃ st' seen, Wedb.scanHashes s kc key now full visit hashes st = .ok st' ∧
      Wedb.scanHashes s kc key now (fun st => full st.1) (logVisit visit) hashes (st, log) =
        .ok (st', log ++ seen) ∧
      Scanned full visit (hashes.flatMap (membersIn M)) st st' seen := by
  induction hashes generalizing st log with
  | nil => exact ⟨st, [], rfl, by rw [List.append_nil]; rfl, List.prefix_rfl, fun _ => rfl, rfl⟩
  | cons hash hashes ih =>
    obtain ⟨seen, hlog, hpre, hfold, hstop⟩ :=
      foldBreak_logStep (fun st x => visit st x.1 x.2) st log (membersIn M hash)
    rw [h.scanHashes_cons, h.scanHashes_cons]
    have hlog' : foldBreak (fun st x => logVisit visit st x.1 x.2) (st, log) (membersIn M hash) =
        (foldBreak (fun st x => visit st x.1 x.2) st (membersIn M hash), log ++ seen) := hlog
    dsimp only
    rw [hlog', List.flatMap_cons]
    generalize hnext : foldBreak (fun st x => visit st x.1 x.2) st (membersIn M hash) = next at *
    by_cases hend : full next = true
    · rw [if_pos hend, if_pos hend]
      refine ⟨next, seen, rfl, rfl, hpre.trans (List.prefix_append _ _), fun hno => ?_, hfold⟩
      rw [hend] at hno
      cases hno
    · have hseen : seen = membersIn M hash := by
        by_contra hne
        obtain ⟨t, x, hfalse, heq⟩ := hstop hne
        have hyes := hfull t x.1 x.2 hfalse
        rw [heq] at hyes
        exact hend hyes
      obtain ⟨st', rest, hrun, hrunLog, hscanned⟩ :=
        ih next (log ++ seen)
      rw [if_neg hend, if_neg hend]
      refine ⟨st', seen ++ rest, hrun, ?_, ?_, fun hno => ?_, ?_⟩
      · rw [hrunLog, List.append_assoc]
      · rw [hseen]
        exact (List.prefix_append_right_inj _).mpr hscanned.sofar
      · rw [hscanned.complete hno, hseen]
      · rw [List.foldl_append, ← hfold]
        exact hscanned.state

theorem ZSetReads.nodup_members (h : ZSetReads s kc key now M) {step : UInt8}
    {hashes : List GeoHashBits} (hnodup : hashes.Nodup)
    (hstep : ∀ hash ∈ hashes, hash.OfStep step) :
    ((hashes.flatMap (membersIn M)).map Prod.fst).Nodup := by
  induction hashes with
  | nil => exact List.nodup_nil
  | cons hash hashes ih =>
    rw [List.nodup_cons] at hnodup
    rw [List.flatMap_cons, List.map_append, List.nodup_append]
    refine ⟨?_, ih hnodup.2 fun x hx => hstep x (List.mem_cons_of_mem _ hx), ?_⟩
    · exact (M.nodup_ranked).sublist (List.filter_sublist.map _)
    · intro a ha b hb hab
      obtain ⟨x, hx, rfl⟩ := List.mem_map.mp ha
      obtain ⟨y, hy, rfl⟩ := List.mem_map.mp hb
      obtain ⟨hash', hhash', hy⟩ := List.mem_flatMap.mp hy
      obtain ⟨hxM, hxIn⟩ := List.mem_filter.mp hx
      obtain ⟨hyM, hyIn⟩ := List.mem_filter.mp hy
      have hgetX := ZMembers.mem_ranked.mp hxM
      have hgetY := ZMembers.mem_ranked.mp hyM
      rw [hab, hgetY, Option.some.injEq] at hgetX
      have hne : hash ≠ hash' := by
        rintro rfl
        exact hnodup.1 hhash'
      rw [← hgetX] at hxIn
      exact boxRange_disjoint (hstep hash List.mem_cons_self)
        (hstep hash' (List.mem_cons_of_mem _ hhash')) hne (h.numbers hyM) hxIn hyIn

def searchedCells (sphere : Sphere) (shape : GeoShape) : List GeoHashBits :=
  uniqueHashes (getAreasByShapeWgs84 sphere shape).1.rawNeighbors

theorem searchedCells_ofStep (sphere : Sphere) (shape : GeoShape) :
    ∃ step, ∀ hash ∈ searchedCells sphere shape, hash.OfStep step := by
  obtain ⟨step, hstep⟩ := getAreasByShapeWgs84_searched sphere shape
  refine ⟨step, fun hash hhash => ?_⟩
  obtain ⟨hmem, hne⟩ := mem_uniqueHashes.mp hhash
  rcases hstep hash hmem with rfl | hof
  · exact absurd rfl hne
  · exact hof

theorem ZSetReads.searchShapeWith {σ : Type u} (h : ZSetReads s kc key now M) {full : σ → Bool}
    {visit : GeoShape → σ → Bytes → F64 → σ × Bool}
    (hfull : ∀ shape st member score, (visit shape st member score).2 = false →
      full (visit shape st member score).1 = true) (sphere : Sphere) (shape : GeoShape) (st : σ) :
    ∃ st' seen, Wedb.searchShapeWith s kc key now sphere shape full visit st = .ok st' ∧
      Wedb.searchShapeWith s kc key now sphere shape (fun st => full st.1)
        (fun shape => logVisit (visit shape)) (st, []) = .ok (st', seen) ∧
      Scanned full (visit (getAreasByShapeWgs84 sphere shape).2)
        ((searchedCells sphere shape).flatMap (membersIn M)) st st' seen := by
  obtain ⟨card, hcard, hzero⟩ := h.zcard
  rw [Wedb.searchShapeWith, Wedb.searchShapeWith, hcard]
  dsimp only
  by_cases h0 : card = 0
  · have hnil : (searchedCells sphere shape).flatMap (membersIn M) = [] := by
      refine List.flatMap_eq_nil_iff.mpr fun hash _ => ?_
      rw [membersIn, ZMembers.ranked_of_length (hzero.mp h0)]
      rfl
    rw [if_pos h0, if_pos h0, hnil]
    exact ⟨st, [], rfl, rfl, List.prefix_rfl, fun _ => rfl, rfl⟩
  · rw [if_neg h0, if_neg h0]
    exact h.scanHashes (hfull (getAreasByShapeWgs84 sphere shape).2)
      (searchedCells sphere shape) st []

end

/-- A search visits members of its words only, each once, and every one of them unless the search
is full: with ANY it ends once it holds as many points as it is to return. -/
structure VisitsCells {α : Type} (cells : List GeoHashBits) (M : ZMembers) (count : Option ℕ)
    (any : Bool) (points : List (GeoPoint α)) (seen : List ZSetMemberScore) : Prop where
  once : (seen.map Prod.fst).Nodup
  only : ∀ x ∈ seen, x ∈ M.entries ∧ ∃ cell ∈ cells, (boxRange cell).check x.2 = true
  sofar : seen <+: cells.flatMap (membersIn M)
  every : isFull count any points = false → ∀ x ∈ M.entries,
    (∃ cell ∈ cells, (boxRange cell).check x.2 = true) → x ∈ seen

theorem mem_flatMap_membersIn {cells : List GeoHashBits} {M : ZMembers} {x : ZSetMemberScore} :
    x ∈ cells.flatMap (membersIn M) ↔
      x ∈ M.entries ∧ ∃ cell ∈ cells, (boxRange cell).check x.2 = true := by
  rw [List.mem_flatMap]
  constructor
  · rintro ⟨cell, hcell, hx⟩
    obtain ⟨hmem, hcheck⟩ := mem_inScores.mp hx
    exact ⟨hmem, cell, hcell, hcheck⟩
  · rintro ⟨hmem, cell, hcell, hcheck⟩
    exact ⟨cell, hcell, mem_inScores.mpr ⟨hmem, hcheck⟩⟩

theorem visitPoint_full {α : Type v} (sphere : Sphere) (text : Bytes → α) (unit : DistanceUnit)
    (count : Option ℕ) (any : Bool) (shape : GeoShape) (points : List (GeoPoint α))
    (member : Bytes) (score : F64)
    (h : (visitPoint sphere text shape unit count any points member score).2 = false) :
    isFull count any (visitPoint sphere text shape unit count any points member score).1 =
        true := by
  rw [visitPoint] at h ⊢
  cases hpoint : pointOf sphere text shape unit (member, score) with
  | none =>
    rw [hpoint] at h
    cases h
  | some point =>
    rw [hpoint] at h
    have hfull : (!isFull count any (points ++ [point])) = false := h
    rw [Bool.not_eq_false'] at hfull
    exact hfull

section

variable {s : Store} {kc : KeyComposer} {key : Key} {now : UInt64} {M : ZMembers}

theorem ZSetReads.searchVisits {α : Type} (h : ZSetReads s kc key now M) (sphere : Sphere)
    (text : Bytes → α) (shape : GeoShape) (unit : DistanceUnit) (count : Option ℕ) (any : Bool) :
    ∃ points seen,
      searchShapeInternal s kc key now sphere text shape unit count any = .ok points ∧
      Wedb.searchVisits s kc key now sphere text shape unit count any = .ok (points, seen) ∧
      VisitsCells (searchedCells sphere shape) M count any points seen ∧
      points = seen.filterMap
        (pointOf sphere text (getAreasByShapeWgs84 sphere shape).2 unit) := by
  obtain ⟨points, seen, hrun, hlog, hscanned⟩ :=
    h.searchShapeWith (visitPoint_full sphere text unit count any) sphere shape []
  obtain ⟨step, hstep⟩ := searchedCells_ofStep sphere shape
  have hnodup := h.nodup_members (nodup_uniqueHashes _) hstep
  refine ⟨points, seen, hrun, hlog, ⟨?_, ?_, hscanned.sofar, ?_⟩, ?_⟩
  · exact hnodup.sublist (hscanned.sofar.sublist.map _)
  · intro x hx
    exact mem_flatMap_membersIn.mp (hscanned.sofar.subset hx)
  · intro hno x hmem hin
    rw [hscanned.complete hno]
    exact mem_flatMap_membersIn.mpr ⟨hmem, hin⟩
  · have hfold : ∀ (seen : List ZSetMemberScore) (points : List (GeoPoint α)),
        seen.foldl (fun st x => (visitPoint sphere text (getAreasByShapeWgs84 sphere shape).2 unit
          count any st x.1 x.2).1) points = points ++ seen.filterMap
            (pointOf sphere text (getAreasByShapeWgs84 sphere shape).2 unit) := by
      intro seen
      induction seen with
      | nil =>
        intro points
        rw [List.filterMap_nil, List.append_nil]
        rfl
      | cons x seen ih =>
        intro points
        rw [List.foldl_cons, ih, visitPoint]
        cases hpoint : pointOf sphere text (getAreasByShapeWgs84 sphere shape).2 unit x with
        | none => rw [List.filterMap_cons_none hpoint]
        | some point =>
          rw [List.filterMap_cons_some hpoint, List.append_assoc, List.singleton_append]
    rw [hscanned.state, hfold, List.nil_append]

end

/-- Geohash words, cells, their neighbours and their scores, and the scan over the cells of a
search. -/
structure GeohashExact (sphere : Sphere) : Prop where
  round_trip : ∀ xlo ylo, deinterleave64 (interleave64 xlo ylo) = (xlo, ylo)
  moveX : ∀ (hash : GeoHashBits) (d : Int8), hash.IsCell → d = 1 ∨ d = -1 →
    (geohashMoveX hash d).IsNeighbor hash 0 d.toInt
  moveY : ∀ (hash : GeoHashBits) (d : Int8), hash.IsCell → d = 1 ∨ d = -1 →
    (geohashMoveY hash d).IsNeighbor hash d.toInt 0
  neighbors : ∀ hash : GeoHashBits, hash.IsCell →
    GeoHashBits.Surrounds (geohashNeighbors hash) hash
  scores : ∀ (hash : GeoHashBits) (score : UInt64), hash.IsCell →
    (((scoresOfGeohashBox hash).1 ≤ score ∧ score < (scoresOfGeohashBox hash).2) ↔
      score.toNat < 2 ^ 52 ∧ score.toNat / 2 ^ (52 - 2 * hash.step.toNat) = hash.bits.toNat)
  stored : ∀ (hash : GeoHashBits) (score : UInt64), hash.IsCell → score.toNat < 2 ^ 52 →
    ((boxRange hash).check (.ofUInt64 score) = true ↔
      score.toNat / 2 ^ (52 - 2 * hash.step.toNat) = hash.bits.toNat)
  visits : ∀ {α : Type} (text : Bytes → α) (s : Store) (kc : KeyComposer) (key : Key)
    (now : UInt64) (M : ZMembers) (shape : GeoShape) (unit : DistanceUnit) (count : Option ℕ)
    (any : Bool), ZSetReads s kc key now M → ∃ points seen,
      searchShapeInternal s kc key now sphere text shape unit count any = .ok points ∧
      searchVisits s kc key now sphere text shape unit count any = .ok (points, seen) ∧
      VisitsCells (searchedCells sphere shape) M count any points seen

theorem geohashExact (sphere : Sphere) : GeohashExact sphere where
  round_trip := deinterleave64_interleave64
  moveX := by
    intro hash d h hd
    have hself := GeoHashBits.IsNeighbor.self h
    rcases hd with rfl | rfl
    · exact hself.moveX (by decide)
    · exact hself.moveX (by decide)
  moveY := by
    intro hash d h hd
    have hself := GeoHashBits.IsNeighbor.self h
    rcases hd with rfl | rfl
    · exact hself.moveY (by decide)
    · exact hself.moveY (by decide)
  neighbors := by
    intro hash h
    exact GeoHashBits.geohashNeighbors_surrounds h
  scores := by
    intro hash score h
    exact GeoHashBits.mem_scoresOfGeohashBox h score
  stored := by
    intro hash score h hscore
    exact boxRange_check_ofUInt64 h hscore
  visits := by
    intro α text s kc key now M shape unit count any h
    obtain ⟨points, seen, hrun, hlog, hvisits, -⟩ := h.searchVisits sphere text shape unit count any
    exact ⟨points, seen, hrun, hlog, hvisits⟩

/-! ## A search that stops early -/

theorem exists_uniqueHashes_cons {hash : GeoHashBits} (h : ¬hash.isZero)
    (hashes : List GeoHashBits) : ∃ rest, uniqueHashes (hash :: hashes) = hash :: rest := by
  have hgrow : ∀ unique : List GeoHashBits, ∃ rest, hashes.foldl (fun unique hash =>
      if hash.isZero then unique else if hash ∈ unique then unique else unique ++ [hash]) unique =
        unique ++ rest := by
    induction hashes with
    | nil => exact fun unique => ⟨[], (List.append_nil unique).symm⟩
    | cons x hashes ih =>
      intro unique
      rw [List.foldl_cons]
      split_ifs
      · exact ih unique
      · exact ih unique
      · obtain ⟨rest, hrest⟩ := ih (unique ++ [x])
        exact ⟨x :: rest, by rw [hrest, List.append_assoc, List.singleton_append]⟩
  rw [uniqueHashes, List.foldl_cons, if_neg h, if_neg List.not_mem_nil]
  exact hgrow [hash]

def cornerShape : GeoShape where
  shapeType := .circular
  centerLon := geoLonMin nearest
  centerLat := geoLatMin nearest
  radius := .fin 1
  width := .fin 0
  height := .fin 0
  conversion := .fin 1

def cornerSphere : Sphere where
  cos := fun _ => .fin 1
  hypot := fun x _ => x
  haversineDistance := fun _ _ _ _ => .fin (1 / 4)

theorem scaled_min (range : GeoHashRange) (step : UInt8) :
    castU32 (range.scaled nearest range.min step) = 0 := by
  rw [GeoHashRange.scaled, sub_self, Binary64.nearest_zero, zero_div, Binary64.nearest_zero,
    zero_mul, Binary64.nearest_zero, ← UInt32.toNat_inj, toNat_castU32 (by norm_num)]
  exact Nat.floor_zero

theorem centerHash_corner {shape : GeoShape} {step : UInt8}
    (hlon : shape.centerLon = geoLonMin nearest) (hlat : shape.centerLat = geoLatMin nearest)
    (hpos : 1 ≤ step.toNat) (hmax : step.toNat ≤ 26) :
    centerHash shape step = { bits := 0, step := step } := by
  have hrd := Binary64.rounds_nearest
  have hlonHolds : (geoLonRange nearest).Holds (geoLonMin nearest) :=
    ⟨le_rfl, (isAxis_geoLonRange hrd).lt.le⟩
  have hlatHolds : (geoLatRange nearest).Holds (geoLatMin nearest) :=
    ⟨le_rfl, (isAxis_geoLatRange hrd).lt.le⟩
  have hlonZero := scaled_min (geoLonRange nearest) step
  have hlatZero := scaled_min (geoLatRange nearest) step
  rw [centerHash, hlon, hlat, geohashEncodeWgs84_of_valid hrd hlonHolds hlatHolds hpos hmax,
    Option.getD_some]
  rw [geoLonRange] at hlonZero
  rw [geoLatRange] at hlatZero
  rw [geoLonRange, geoLatRange, hlonZero, hlatZero]
  rfl

theorem pointOf_corner (text : Bytes → Bytes) (x : ZSetMemberScore) :
    (pointOf cornerSphere text
      (getAreasByShapeWgs84 cornerSphere cornerShape).2 .meters x).isSome := by
  have hmul : Binary64.mul (.fin 1) (.fin 1) = .fin 1 := by
    have h := @Binary64.ofRat_intCast 1 (by norm_num)
    rw [Int.cast_one] at h
    rw [Binary64.mul, mul_one, h]
  have hle : (ExactNum.fin (1 / 4 : ℚ)).le (.fin 1) = true := decide_eq_true (by norm_num)
  have hinside : ∀ lon lat : ℚ,
      ((getAreasByShapeWgs84 cornerSphere cornerShape).2.inside cornerSphere lon lat).isSome := by
    intro lon lat
    rw [GeoShape.inside]
    dsimp only [getAreasByShapeWgs84, boundingBox, cornerShape, cornerSphere]
    simp only [hmul, hle, if_true, Option.isSome_some]
  rw [pointOf]
  exact Option.isSome_map.trans (hinside _ _)

theorem searchedCells_corner : ∃ hash rest,
    searchedCells cornerSphere cornerShape = hash :: rest ∧ hash.IsCell ∧ hash.bits = 0 := by
  obtain ⟨hpos, hmax⟩ := searchSteps_bounds cornerSphere (boundingBox cornerSphere cornerShape)
  have hhash := @centerHash_corner (boundingBox cornerSphere cornerShape) _ rfl rfl hpos hmax
  have hcell : GeoHashBits.IsCell
      { bits := 0, step := searchSteps cornerSphere (boundingBox cornerSphere cornerShape) } :=
    ⟨hpos, hmax, Nat.pow_pos four_pos⟩
  have hzero : ¬(GeoHashBits.isZero
      { bits := 0, step := searchSteps cornerSphere (boundingBox cornerSphere cornerShape) }) := by
    rw [GeoHashBits.isZero, Bool.and_eq_true, beq_iff_eq, beq_iff_eq]
    intro h
    have hstep : searchSteps cornerSphere (boundingBox cornerSphere cornerShape) = 0 := h.2
    rw [hstep] at hpos
    exact absurd hpos (by decide)
  obtain ⟨rest, hrest⟩ := exists_uniqueHashes_cons hzero
    (getAreasByShapeWgs84 cornerSphere cornerShape).1.rawNeighbors.tail
  refine ⟨_, rest, ?_, hcell, rfl⟩
  rw [← hrest, searchedCells]
  congr 1
  rw [GeoHashRadius.rawNeighbors, List.tail_cons, getAreasByShapeWgs84, hhash]

def cornerMembers : List (F64 × Bytes) := [(.zero, [97]), (.zero, [98])]

theorem exists_cornerStore : ∃ s, ZSetReads s ⟨0, 0⟩ sampleKey 1
    (ZMembers.with ∅ (lastScores cornerMembers)) := by
  have hnan : ∀ x ∈ cornerMembers, x.1.isNan = false := by decide
  obtain ⟨ops, hrun, hfresh⟩ :=
    @zadd_fresh ∅ ⟨0, 0⟩ sampleKey 1 1 rfl rfl cornerMembers (by decide) hnan
  have hfits : ((zadd ∅ ⟨0, 0⟩ sampleKey 1 1 cornerMembers []).toOption.any fun r =>
      decide ((∅ : Store).apply r.2).Fits) = true := by
    decide +kernel
  rw [hrun] at hfits
  exact ⟨_, hfresh.reads (of_decide_eq_true hfits)⟩

/-- With ANY a search leaves members of its cells unvisited. -/
theorem searchVisits_stops_early :
    ¬∀ (sphere : Sphere) (text : Bytes → Bytes) (s : Store) (kc : KeyComposer) (key : Key)
      (now : UInt64) (M : ZMembers) (shape : GeoShape) (unit : DistanceUnit) (count : Option ℕ)
      (any : Bool) (points : List (GeoPoint Bytes)) (seen : List ZSetMemberScore),
      ZSetReads s kc key now M →
      searchVisits s kc key now sphere text shape unit count any = .ok (points, seen) →
      ∀ x ∈ M.entries, (∃ cell ∈ searchedCells sphere shape,
        (boxRange cell).check x.2 = true) → x ∈ seen := by
  intro hall
  obtain ⟨s, hreads⟩ := exists_cornerStore
  obtain ⟨hash, rest, hcells, hcell, hbits⟩ := searchedCells_corner
  have hranked : (ZMembers.with ∅ (lastScores cornerMembers)).ranked =
      [([97], .zero), ([98], .zero)] := by
    decide +kernel
  have hscore : (boxRange hash).check .zero = true := by
    have hzero : F64.zero = .ofUInt64 0 := rfl
    rw [hzero, boxRange_check_ofUInt64 hcell (by norm_num), hbits]
    exact Nat.zero_div _
  have hmembers : membersIn (ZMembers.with ∅ (lastScores cornerMembers)) hash =
      [([97], .zero), ([98], .zero)] := by
    rw [membersIn, hranked, inScores]
    simp only [List.filter, hscore]
  obtain ⟨point, hpoint⟩ := Option.isSome_iff_exists.mp (pointOf_corner id ([97], .zero))
  obtain ⟨card, hcard, hempty⟩ := hreads.zcard
  have hrun : searchVisits s ⟨0, 0⟩ sampleKey 1 cornerSphere id cornerShape .meters (some 1) true =
      .ok ([point], [([97], .zero)]) := by
    have hne : card ≠ 0 := by
      rw [Ne, hempty]
      decide
    rw [searchVisits, searchShapeWith, hcard]
    dsimp only
    rw [if_neg hne, ← searchedCells, hcells, hreads.scanHashes_cons, hmembers]
    have hvisit : visitPoint cornerSphere id (getAreasByShapeWgs84 cornerSphere cornerShape).2
        .meters (some 1) true [] [97] .zero = ([point], false) := by
      rw [visitPoint, hpoint]
      rfl
    simp only [foldBreak, logStep, hvisit]
    rfl
  have hin : ([98], F64.zero) ∈ (ZMembers.with ∅ (lastScores cornerMembers)).ranked := by
    rw [hranked]
    exact List.mem_cons_of_mem _ List.mem_cons_self
  have hcellMem : hash ∈ searchedCells cornerSphere cornerShape := by
    rw [hcells]
    exact List.mem_cons_self
  have hlast := hall cornerSphere id s ⟨0, 0⟩ sampleKey 1 _ cornerShape .meters (some 1) true _ _
    hreads hrun ([98], .zero) (SortedMap.get_eq_some.mp (ZMembers.mem_ranked.mp hin))
    ⟨hash, hcellMem, hscore⟩
  rw [List.mem_singleton] at hlast
  exact absurd hlast (by decide)

end Wedb
