import Wedb.Geo.Search
import Wedb.Key.Sort

/-!
# Storing what a search finds

The store variants of the searches delete each destination in one commit and add the points they
found in another. On the way from the source a name becomes a text, so that what is no text comes
out as another name.
-/

universe u v

namespace Wedb

open Binary64 (nearest)

inductive DistanceSort
  | none
  | asc
  | desc
  deriving DecidableEq, Repr

inductive OriginPoint
  | coord (lon lat : ExactNum ℚ)
  | member (m : String)

inductive GeoSearch
  | withCoord
  | withDist
  | withHash
  | count (n : ℕ)
  | any
  | asc
  | desc
  | unit (u : DistanceUnit)
  deriving DecidableEq, Repr

inductive GeoSearchStore
  | count (n : ℕ)
  | any
  | asc
  | desc
  | storeDist
  | unit (u : DistanceUnit)
  deriving DecidableEq, Repr

structure GeoRadius where
  count : Option ℕ := .none
  any : Bool := false
  sort : DistanceSort := .none
  storeKey : Option Key := .none
  storeDistKey : Option Key := .none
  unit : DistanceUnit := .meters

/-- What the options of a search come to. -/
structure GeoSearchOpts where
  unit : DistanceUnit := .meters
  count : Option ℕ := none
  any : Bool := false
  sort : DistanceSort := .none
  storeDist : Bool := false

def GeoSearchOpts.search (opts : GeoSearchOpts) : GeoSearch → GeoSearchOpts
  | .withCoord | .withDist | .withHash => opts
  | .count c => { opts with count := some c }
  | .any => { opts with any := true }
  | .asc => { opts with sort := .asc }
  | .desc => { opts with sort := .desc }
  | .unit u => { opts with unit := u }

def GeoSearchOpts.searchStore (opts : GeoSearchOpts) : GeoSearchStore → GeoSearchOpts
  | .count c => { opts with count := some c }
  | .any => { opts with any := true }
  | .asc => { opts with sort := .asc }
  | .desc => { opts with sort := .desc }
  | .storeDist => { opts with storeDist := true }
  | .unit u => { opts with unit := u }

def errRadius : String := "ERR radius must be greater than or equal to 0"
def errOriginMember : String := "ERR could not decode requested zset member"

/-! ## Order and count -/

/-- The partial selection and the sort of the standard library: where each leaves the elements
depends on how their keys compare. -/
structure UnstableSort where
  selectNth : ℕ → List ℤ → List ℕ
  sort : List ℤ → List ℕ
  selectNth_perm : ∀ n keys, n < keys.length → (selectNth n keys).Perm (List.range keys.length)
  selectNth_below : ∀ n keys, n < keys.length → ∀ i ∈ (selectNth n keys).take n,
    ∀ j ∈ (selectNth n keys).drop n, keys.getD i 0 ≤ keys.getD j 0
  sort_perm : ∀ keys, (sort keys).Perm (List.range keys.length)
  sort_pairwise : ∀ keys, (sort keys).Pairwise fun i j => keys.getD i 0 ≤ keys.getD j 0

def arrange {α : Type v} (positions : List ℕ) (points : List α) : List α :=
  positions.filterMap fun i => points[i]?

def DistanceSort.key : DistanceSort → F64 → ℤ
  | .desc, dist => -dist.totalOrder
  | _, dist => dist.totalOrder

section

variable {α : Type v} (sorter : UnstableSort)

def selectNthUnstableBy (sort : DistanceSort) (limit : ℕ) (points : List (GeoPoint α)) :
    List (GeoPoint α) :=
  arrange (sorter.selectNth limit (points.map fun p => sort.key p.dist)) points

def sortUnstableBy (sort : DistanceSort) (points : List (GeoPoint α)) : List (GeoPoint α) :=
  arrange (sorter.sort (points.map fun p => sort.key p.dist)) points

def sortAndTruncatePoints (points : List (GeoPoint α)) (sort : DistanceSort) (count : Option ℕ)
    (any : Bool) : List (GeoPoint α) :=
  let sort := if count.isSome ∧ any = false ∧ sort = .none then .asc else sort
  match count with
  | some limit =>
    if limit = 0 then []
    else if sort = .none then points.take limit
    else
      let points :=
        if limit < points.length then (selectNthUnstableBy sorter sort limit points).take limit
        else points
      sortUnstableBy sorter sort points
  | none => if sort = .none then points else sortUnstableBy sorter sort points

end

/-! ## Searches -/

def GeoShape.newCircularWithUnit (sphere : Sphere) (lon lat : ℚ) (radius : ExactNum ℚ)
    (unit : DistanceUnit) : GeoShape :=
  boundingBox sphere
    { shapeType := .circular
      centerLon := lon
      centerLat := lat
      radius := radius
      width := .fin 0
      height := .fin 0
      conversion := .fin unit.conversionFactor }

def coordValue : ExactNum ℚ → ℚ
  | .fin x => x
  | _ => 0

section

variable (s : Store) (kc : KeyComposer) (key : Key) (nowMs : UInt64)

def zmscore (members : List Bytes) : Except Error (List (Option F64)) :=
  if members.isEmpty then .ok []
  else
    (getZsetMeta s kc key nowMs).map fun found =>
      match found with
      | some _ => members.map fun m =>
          (s.data.get (composeZsetKey kc key m)).bind decodeSortableF64Slice
      | none => members.map fun _ => none

def geopos (members : List Bytes) : Except Error (List (Option (ℚ × ℚ))) :=
  (zmscore s kc key nowMs members).map fun scores => scores.map fun score => score.map scoreToCoord

variable {α : Type v} (format : ExactNum ℚ → String) (sphere : Sphere) (sorter : UnstableSort)
  (text : Bytes → α)

def searchAt (shape : GeoShape) (opts : GeoSearchOpts) (lon lat : ℚ) :
    Except Error (List (GeoPoint α)) :=
  (searchShapeInternal s kc key nowMs sphere text
    (boundingBox sphere { shape with centerLon := lon, centerLat := lat }) opts.unit opts.count
    opts.any).map fun points => sortAndTruncatePoints sorter points opts.sort opts.count opts.any

def originMember (m : Bytes) : Except Error (ℚ × ℚ) :=
  (geopos s kc key nowMs [m]).bind fun pos =>
    match pos.head?.join with
    | some coord => .ok coord
    | none => .error (.invalidData errOriginMember)

def unlessEmpty (search : Except Error (List (GeoPoint α))) : Except Error (List (GeoPoint α)) :=
  (zcard s kc key nowMs).bind fun card => if card = 0 then .ok [] else search

def geosearch (origin : OriginPoint) (shape : GeoShape) (opts : List GeoSearch) :
    Except Error (List (GeoPoint α)) :=
  let opts := opts.foldl GeoSearchOpts.search {}
  unlessEmpty s kc key nowMs <|
    match origin with
    | .coord lon lat =>
      (validateLongLat nearest format lon lat).bind fun _ =>
        searchAt s kc key nowMs sphere sorter text shape opts (coordValue lon) (coordValue lat)
    | .member m =>
      (originMember s kc key nowMs (textBytes m)).bind fun coord =>
        searchAt s kc key nowMs sphere sorter text shape opts coord.1 coord.2

/-- The points of `geosearchstore`, which checks coordinates before it looks at the source. -/
def geosearchstorePoints (origin : OriginPoint) (shape : GeoShape) (opts : List GeoSearchStore) :
    Except Error (List (GeoPoint α)) :=
  let opts := opts.foldl GeoSearchOpts.searchStore {}
  match origin with
  | .coord lon lat =>
    (validateLongLat nearest format lon lat).bind fun _ => unlessEmpty s kc key nowMs <|
      searchAt s kc key nowMs sphere sorter text shape opts (coordValue lon) (coordValue lat)
  | .member m =>
    unlessEmpty s kc key nowMs <| (originMember s kc key nowMs (textBytes m)).bind fun coord =>
      searchAt s kc key nowMs sphere sorter text shape opts coord.1 coord.2

def georadiusPoints (longitude latitude radius : ExactNum ℚ) (opt : GeoRadius) :
    Except Error (List (GeoPoint α)) :=
  (validateLongLat nearest format longitude latitude).bind fun _ =>
    if radius.isNan || isInfinite radius || radius.lt (.fin 0) then
      .error (.invalidData errRadius)
    else
      unlessEmpty s kc key nowMs <|
        (searchShapeInternal s kc key nowMs sphere text
          (.newCircularWithUnit sphere (coordValue longitude) (coordValue latitude) radius opt.unit)
          opt.unit opt.count opt.any).map fun points =>
            sortAndTruncatePoints sorter points opt.sort opt.count opt.any

def georadiusbymemberPoints (member : Bytes) (radius : ExactNum ℚ) (opt : GeoRadius) :
    Except Error (List (GeoPoint α)) :=
  unlessEmpty s kc key nowMs <| (originMember s kc key nowMs member).bind fun coord =>
    georadiusPoints s kc key nowMs format sphere sorter text (.fin coord.1) (.fin coord.2) radius
      opt

end

/-! ## Destinations -/

/-- A destination for the points with their scores or distances. -/
structure GeoTarget where
  dst : Key
  dist : Bool
  version : UInt64

def GeoTarget.score {α : Type v} (t : GeoTarget) (p : GeoPoint α) : F64 :=
  if t.dist then p.dist else p.score

def memberStr (lossy : Bytes → String) (member : Bytes) : String :=
  (fromUtf8 member).getD (lossy member)

section

variable (e : Engine) (kc : KeyComposer) (nowMs : UInt64)

def storePoints (points : List (GeoPoint String)) (t : GeoTarget) : Except Error Unit × Engine :=
  match delImpl e kc nowMs [t.dst] with
  | .error err => (.error err, e)
  | .ok (_, cleared) =>
    if points.isEmpty then (.ok (), cleared)
    else
      match zadd cleared.store kc t.dst nowMs t.version
          (points.map fun p => (t.score p, textBytes p.member)) [] with
      | .error err => (.error err, cleared)
      | .ok (_, ops) =>
        match cleared.commit ops with
        | .error err => (.error err, cleared)
        | .ok stored => (.ok (), stored)

end

def storeEach (kc : KeyComposer) (nowMs : UInt64) (points : List (GeoPoint String)) :
    Engine → List GeoTarget → Except Error Unit × Engine
  | e, [] => (.ok (), e)
  | e, t :: targets =>
    match storePoints e kc nowMs points t with
    | (.error err, e') => (.error err, e')
    | (.ok (), e') => storeEach kc nowMs points e' targets

def storeSearch (e : Engine) (kc : KeyComposer) (nowMs : UInt64)
    (search : Except Error (List (GeoPoint String))) (targets : List GeoTarget) :
    Except Error (List (GeoPoint String)) × Engine :=
  match search with
  | .error err => (.error err, e)
  | .ok points =>
    match storeEach kc nowMs points e targets with
    | (.error err, e') => (.error err, e')
    | (.ok (), e') => (.ok points, e')

def GeoRadius.targets (opt : GeoRadius) (version distVersion : UInt64) : List GeoTarget :=
  (opt.storeKey.map fun k => ⟨k, false, version⟩).toList ++
    (opt.storeDistKey.map fun k => ⟨k, true, distVersion⟩).toList

def storeTarget (dst : Key) (opts : List GeoSearchStore) (version : UInt64) : GeoTarget :=
  ⟨dst, (opts.foldl GeoSearchOpts.searchStore {}).storeDist, version⟩

section

variable (format : ExactNum ℚ → String) (sphere : Sphere) (sorter : UnstableSort)
  (lossy : Bytes → String) (e : Engine) (kc : KeyComposer) (nowMs : UInt64)

def georadius (key : Key) (longitude latitude radius : ExactNum ℚ) (opt : GeoRadius)
    (version distVersion : UInt64) : Except Error (List (GeoPoint String)) × Engine :=
  storeSearch e kc nowMs
    (georadiusPoints e.store kc key nowMs format sphere sorter (memberStr lossy) longitude latitude
      radius opt) (opt.targets version distVersion)

def georadiusbymember (key : Key) (member : Bytes) (radius : ExactNum ℚ) (opt : GeoRadius)
    (version distVersion : UInt64) : Except Error (List (GeoPoint String)) × Engine :=
  storeSearch e kc nowMs
    (georadiusbymemberPoints e.store kc key nowMs format sphere sorter (memberStr lossy) member
      radius opt) (opt.targets version distVersion)

def geosearchstore (destination source : Key) (origin : OriginPoint) (shape : GeoShape)
    (opts : List GeoSearchStore) (version : UInt64) : Except Error ℕ × Engine :=
  let (reply, e') := storeSearch e kc nowMs
    (geosearchstorePoints e.store kc source nowMs format sphere sorter (memberStr lossy) origin
      shape opts) [storeTarget destination opts version]
  (reply.map List.length, e')

end

/-! ## Names on the way -/

def GeoPoint.withText {α β : Type} (f : α → β) (p : GeoPoint α) : GeoPoint β :=
  { longitude := p.longitude
    latitude := p.latitude
    member := f p.member
    dist := p.dist
    score := p.score }

section

variable {α β : Type} (f : α → β) {sphere : Sphere} {sorter : UnstableSort}
  {text : Bytes → α}

theorem pointOf_text (shape : GeoShape) (unit : DistanceUnit) (x : ZSetMemberScore) :
    pointOf sphere (f ∘ text) shape unit x =
      (pointOf sphere text shape unit x).map (GeoPoint.withText f) := by
  rw [pointOf, pointOf]
  dsimp only
  cases shape.inside sphere (scoreToCoord x.2).1 (scoreToCoord x.2).2 with
  | none => rfl
  | some d => rfl

theorem visitPoint_text (shape : GeoShape) (unit : DistanceUnit) (count : Option ℕ) (any : Bool)
    (points : List (GeoPoint α)) (member : Bytes) (score : F64) :
    visitPoint sphere (f ∘ text) shape unit count any (points.map (GeoPoint.withText f)) member
        score =
      ((visitPoint sphere text shape unit count any points member score).1.map
          (GeoPoint.withText f),
        (visitPoint sphere text shape unit count any points member score).2) := by
  rw [visitPoint, visitPoint, pointOf_text]
  cases pointOf sphere text shape unit (member, score) with
  | none => rfl
  | some point =>
    simp only [Option.map_some, isFull, List.length_append, List.length_map, List.map_append,
      List.map_cons, List.map_nil, List.length_singleton]

theorem isFull_text (count : Option ℕ) (any : Bool) (points : List (GeoPoint α)) :
    isFull count any (points.map (GeoPoint.withText f)) = isFull count any points := by
  rw [isFull, isFull, List.length_map]

theorem arrange_map {γ δ : Type} (g : γ → δ) (positions : List ℕ) (points : List γ) :
    arrange positions (points.map g) = (arrange positions points).map g := by
  rw [arrange, arrange, List.map_filterMap]
  refine congrArg (fun h => positions.filterMap h) (funext fun i => ?_)
  rw [List.getElem?_map]

theorem map_withText_dist (g : F64 → ℤ) (points : List (GeoPoint α)) :
    ((points.map (GeoPoint.withText f)).map fun p => g p.dist) =
      points.map fun p => g p.dist := by
  rw [List.map_map]
  rfl

theorem sortAndTruncatePoints_text (points : List (GeoPoint α)) (sort : DistanceSort)
    (count : Option ℕ) (any : Bool) :
    sortAndTruncatePoints sorter (points.map (GeoPoint.withText f)) sort count any =
      (sortAndTruncatePoints sorter points sort count any).map (GeoPoint.withText f) := by
  have hsort : ∀ (sort : DistanceSort) (points : List (GeoPoint α)),
      sortUnstableBy sorter sort (points.map (GeoPoint.withText f)) =
        (sortUnstableBy sorter sort points).map (GeoPoint.withText f) := by
    intro sort points
    rw [sortUnstableBy, map_withText_dist, arrange_map]
    rfl
  have hselect : ∀ (sort : DistanceSort) (limit : ℕ),
      selectNthUnstableBy sorter sort limit (points.map (GeoPoint.withText f)) =
        (selectNthUnstableBy sorter sort limit points).map (GeoPoint.withText f) := by
    intro sort limit
    rw [selectNthUnstableBy, map_withText_dist, arrange_map]
    rfl
  cases count with
  | none =>
    simp only [sortAndTruncatePoints, hsort]
    split_ifs <;> rfl
  | some limit =>
    simp only [sortAndTruncatePoints, List.length_map, hselect, ← List.map_take]
    by_cases hlimit : limit = 0
    · rw [if_pos hlimit, if_pos hlimit]
      rfl
    · rw [if_neg hlimit, if_neg hlimit]
      split_ifs <;> simp only [hsort]

end

section

variable {α β : Type} (f : α → β) {sphere : Sphere} {sorter : UnstableSort}
  {text : Bytes → α} {s : Store} {kc : KeyComposer} {key : Key} {now : UInt64} {M : ZMembers}
  {format : ExactNum ℚ → String}

theorem ZSetReads.scanHashes_text (h : ZSetReads s kc key now M) (shape : GeoShape)
    (unit : DistanceUnit) (count : Option ℕ) (any : Bool) (hashes : List GeoHashBits)
    (points : List (GeoPoint α)) :
    Wedb.scanHashes s kc key now (isFull count any)
        (visitPoint sphere (f ∘ text) shape unit count any) hashes
        (points.map (GeoPoint.withText f)) =
      (Wedb.scanHashes s kc key now (isFull count any)
        (visitPoint sphere text shape unit count any) hashes points).map
        (List.map (GeoPoint.withText f)) := by
  induction hashes generalizing points with
  | nil => rfl
  | cons hash hashes ih =>
    have hfold : foldBreak
        (fun st (x : ZSetMemberScore) =>
          visitPoint sphere (f ∘ text) shape unit count any st x.1 x.2)
        (points.map (GeoPoint.withText f)) (membersIn M hash) =
      (foldBreak
        (fun st (x : ZSetMemberScore) => visitPoint sphere text shape unit count any st x.1 x.2)
        points (membersIn M hash)).map (GeoPoint.withText f) := by
      refine foldBreak_sim (fun (st : List (GeoPoint β)) (st' : List (GeoPoint α)) =>
        st = st'.map (GeoPoint.withText f)) ?_ rfl _
      intro st st' x hst
      rw [hst, visitPoint_text]
      exact ⟨rfl, rfl⟩
    rw [h.scanHashes_cons, h.scanHashes_cons]
    dsimp only
    rw [hfold, isFull_text]
    split_ifs
    · rfl
    · exact ih _

theorem ZSetReads.searchShapeInternal_text (h : ZSetReads s kc key now M) (shape : GeoShape)
    (unit : DistanceUnit) (count : Option ℕ) (any : Bool) :
    searchShapeInternal s kc key now sphere (f ∘ text) shape unit count any =
      (searchShapeInternal s kc key now sphere text shape unit count any).map
        (List.map (GeoPoint.withText f)) := by
  obtain ⟨card, hcard, -⟩ := h.zcard
  rw [searchShapeInternal, searchShapeInternal, Wedb.searchShapeWith, Wedb.searchShapeWith, hcard]
  dsimp only
  split_ifs
  · rfl
  · exact h.scanHashes_text f _ unit count any _ []

theorem ZSetReads.sorted_text (h : ZSetReads s kc key now M) (shape : GeoShape)
    (unit : DistanceUnit) (sort : DistanceSort) (count : Option ℕ) (any : Bool) :
    ((searchShapeInternal s kc key now sphere (f ∘ text) shape unit count any).map fun points =>
        sortAndTruncatePoints sorter points sort count any) =
      ((searchShapeInternal s kc key now sphere text shape unit count any).map fun points =>
        sortAndTruncatePoints sorter points sort count any).map
        (List.map (GeoPoint.withText f)) := by
  rw [h.searchShapeInternal_text]
  cases searchShapeInternal s kc key now sphere text shape unit count any with
  | error err => rfl
  | ok points => exact congrArg Except.ok (sortAndTruncatePoints_text f points sort count any)

theorem bind_map_congr {ε γ δ : Type} {g : δ → β} {x : Except ε γ}
    {y : γ → Except ε δ} {z : γ → Except ε β} (h : ∀ a, z a = (y a).map g) :
    x.bind z = (x.bind y).map g := by
  cases x with
  | error err => rfl
  | ok a => exact h a

theorem unlessEmpty_text {search : Except Error (List (GeoPoint α))}
    {search' : Except Error (List (GeoPoint β))}
    (h : search' = search.map (List.map (GeoPoint.withText f))) :
    unlessEmpty s kc key now search' =
      (unlessEmpty s kc key now search).map (List.map (GeoPoint.withText f)) := by
  rw [unlessEmpty, unlessEmpty]
  refine bind_map_congr fun card => ?_
  rw [h]
  split_ifs
  · rfl
  · rfl

theorem ZSetReads.searchAt_text (h : ZSetReads s kc key now M) (shape : GeoShape)
    (opts : GeoSearchOpts) (lon lat : ℚ) :
    searchAt s kc key now sphere sorter (f ∘ text) shape opts lon lat =
      (searchAt s kc key now sphere sorter text shape opts lon lat).map
        (List.map (GeoPoint.withText f)) :=
  h.sorted_text f _ _ _ _ _

theorem ZSetReads.geosearchstorePoints_text (h : ZSetReads s kc key now M) (origin : OriginPoint)
    (shape : GeoShape) (opts : List GeoSearchStore) :
    geosearchstorePoints s kc key now format sphere sorter (f ∘ text) origin shape opts =
      (geosearchstorePoints s kc key now format sphere sorter text origin shape opts).map
        (List.map (GeoPoint.withText f)) := by
  cases origin with
  | coord lon lat =>
    exact bind_map_congr fun _ => unlessEmpty_text f (h.searchAt_text f shape _ _ _)
  | member m =>
    exact unlessEmpty_text f (bind_map_congr fun coord => h.searchAt_text f shape _ _ _)

theorem ZSetReads.georadiusPoints_text (h : ZSetReads s kc key now M)
    (longitude latitude radius : ExactNum ℚ) (opt : GeoRadius) :
    georadiusPoints s kc key now format sphere sorter (f ∘ text) longitude latitude radius opt =
      (georadiusPoints s kc key now format sphere sorter text longitude latitude radius opt).map
        (List.map (GeoPoint.withText f)) := by
  refine bind_map_congr fun _ => ?_
  split_ifs
  · rfl
  · exact unlessEmpty_text f (h.sorted_text f _ _ _ _ _)

theorem ZSetReads.georadiusbymemberPoints_text (h : ZSetReads s kc key now M) (member : Bytes)
    (radius : ExactNum ℚ) (opt : GeoRadius) :
    georadiusbymemberPoints s kc key now format sphere sorter (f ∘ text) member radius opt =
      (georadiusbymemberPoints s kc key now format sphere sorter text member radius opt).map
        (List.map (GeoPoint.withText f)) :=
  unlessEmpty_text f (bind_map_congr fun _ => h.georadiusPoints_text f _ _ _ _)

end

/-! ## What is selected -/

theorem arrange_range {α : Type v} (points : List α) :
    arrange (List.range points.length) points = points := by
  rw [arrange]
  induction points using List.reverseRecOn with
  | nil => rfl
  | append_singleton points p ih =>
    have hcongr : (List.range points.length).filterMap (fun i => (points ++ [p])[i]?) =
        (List.range points.length).filterMap fun i => points[i]? := by
      refine List.filterMap_congr fun i hi => ?_
      rw [List.getElem?_append_left (List.mem_range.mp hi)]
    rw [List.length_append, List.length_singleton, List.range_succ, List.filterMap_append, hcongr,
      ih]
    simp

theorem arrange_perm {α : Type v} {positions : List ℕ} {points : List α}
    (h : positions.Perm (List.range points.length)) : (arrange positions points).Perm points := by
  have hperm := h.filterMap fun i => points[i]?
  rw [← arrange, ← arrange, arrange_range] at hperm
  exact hperm

section

variable {α : Type v} {sorter : UnstableSort} {points : List (GeoPoint α)} {limit : ℕ}

theorem sortUnstableBy_perm (sort : DistanceSort) (points : List (GeoPoint α)) :
    (sortUnstableBy sorter sort points).Perm points := by
  refine arrange_perm ?_
  have h := sorter.sort_perm (points.map fun p => sort.key p.dist)
  rwa [List.length_map] at h

theorem selectNthUnstableBy_perm (sort : DistanceSort) (h : limit < points.length) :
    (selectNthUnstableBy sorter sort limit points).Perm points := by
  refine arrange_perm ?_
  have hperm := sorter.selectNth_perm limit (points.map fun p => sort.key p.dist)
    (by rwa [List.length_map])
  rwa [List.length_map] at hperm

theorem sortAndTruncatePoints_subperm (points : List (GeoPoint α)) (sort : DistanceSort)
    (count : Option ℕ) (any : Bool) :
    (sortAndTruncatePoints sorter points sort count any).Subperm points := by
  cases count with
  | none =>
    simp only [sortAndTruncatePoints]
    split_ifs
    · exact List.Subperm.refl _
    · exact (sortUnstableBy_perm _ _).subperm
    · exact List.Subperm.refl _
    · exact (sortUnstableBy_perm _ _).subperm
  | some limit =>
    have hcut : ∀ sort : DistanceSort, (sortUnstableBy sorter sort
        (if limit < points.length then (selectNthUnstableBy sorter sort limit points).take limit
        else points)).Subperm points := by
      intro sort
      split_ifs with hlimit
      · exact (sortUnstableBy_perm _ _).subperm.trans
          ((List.take_sublist _ _).subperm.trans (selectNthUnstableBy_perm sort hlimit).subperm)
      · exact (sortUnstableBy_perm _ _).subperm
    simp only [sortAndTruncatePoints]
    by_cases hzero : limit = 0
    · rw [if_pos hzero]
      exact List.nil_subperm
    · rw [if_neg hzero]
      generalize (if (some limit).isSome ∧ any = false ∧ sort = .none then DistanceSort.asc
        else sort) = order
      by_cases hnone : order = .none
      · rw [if_pos hnone]
        exact (List.take_sublist _ _).subperm
      · rw [if_neg hnone]
        exact hcut order

end

/-- Points of different members of a set, each with its score. -/
structure SourcePoints (M : ZMembers) (points : List (GeoPoint Bytes)) : Prop where
  once : (points.map GeoPoint.member).Nodup
  source : ∀ p ∈ points, M.get p.member = some p.score

theorem SourcePoints.subperm {M : ZMembers} {points points' : List (GeoPoint Bytes)}
    (h : SourcePoints M points) (hsub : points'.Subperm points) : SourcePoints M points' := by
  obtain ⟨l, hperm, hsublist⟩ := hsub
  refine ⟨?_, fun p hp => h.source p (hsublist.subset (hperm.mem_iff.mpr hp))⟩
  exact (hperm.map GeoPoint.member).nodup_iff.mp (h.once.sublist (hsublist.map _))

theorem pointOf_eq_some {α : Type v} {sphere : Sphere} {text : Bytes → α} {shape : GeoShape}
    {unit : DistanceUnit} {x : ZSetMemberScore} {p : GeoPoint α}
    (h : pointOf sphere text shape unit x = some p) :
    p.member = text x.1 ∧ p.score = x.2 ∧ ∃ d,
      shape.inside sphere (scoreToCoord x.2).1 (scoreToCoord x.2).2 = some d ∧
      p.dist = .ofExact (unit.fromMeters d) := by
  rw [pointOf] at h
  dsimp only at h
  rw [Option.map_eq_some_iff] at h
  obtain ⟨d, hd, rfl⟩ := h
  exact ⟨rfl, rfl, d, hd, rfl⟩

theorem conversionFactor_pos (unit : DistanceUnit) : 0 < unit.conversionFactor := by
  have hsmall : (2 : ℚ) ^ (-1021 : ℤ) ≤ 2 ^ (-2 : ℤ) :=
    zpow_le_zpow_right₀ (by norm_num) (by norm_num)
  cases unit with
  | meters => exact one_pos
  | kilometers => exact Nat.cast_pos.mpr (by norm_num)
  | miles => exact Binary64.nearest_pos (hsmall.trans (by norm_num))
  | feet => exact Binary64.nearest_pos (hsmall.trans (by norm_num))

section

variable {s : Store} {kc : KeyComposer} {key : Key} {now : UInt64} {M : ZMembers}
  {sphere : Sphere} {sorter : UnstableSort} {format : ExactNum ℚ → String}
  {points : List (GeoPoint Bytes)}

theorem ZSetReads.searchShapeInternal_source (h : ZSetReads s kc key now M) {shape : GeoShape}
    {unit : DistanceUnit} {count : Option ℕ} {any : Bool}
    (hrun : searchShapeInternal s kc key now sphere id shape unit count any = .ok points) :
    SourcePoints M points ∧ ∀ p ∈ points, ∃ x,
      pointOf sphere id (getAreasByShapeWgs84 sphere shape).2 unit x = some p := by
  obtain ⟨points', seen, hsearch, -, hvisits, hpoints⟩ :=
    h.searchVisits sphere id shape unit count any
  rw [hrun] at hsearch
  cases hsearch
  have hof : ∀ p ∈ points, ∃ x ∈ seen,
      pointOf sphere id (getAreasByShapeWgs84 sphere shape).2 unit x = some p := by
    intro p hp
    rw [hpoints] at hp
    exact List.mem_filterMap.mp hp
  refine ⟨⟨?_, ?_⟩, fun p hp => ?_⟩
  · have hsub : (points.map GeoPoint.member).Sublist (seen.map Prod.fst) := by
      rw [hpoints]
      clear hpoints hof hvisits hrun
      induction seen with
      | nil => exact List.Sublist.refl _
      | cons x seen ih =>
        cases hx : pointOf sphere id (getAreasByShapeWgs84 sphere shape).2 unit x with
        | none =>
          rw [List.filterMap_cons_none hx]
          exact ih.cons _
        | some p =>
          have hname : p.member = x.1 := (pointOf_eq_some hx).1
          rw [List.filterMap_cons_some hx, List.map_cons, List.map_cons, hname]
          exact ih.cons_cons _
    exact hvisits.once.sublist hsub
  · intro p hp
    obtain ⟨x, hx, hpoint⟩ := hof p hp
    obtain ⟨hname, hscore, -⟩ := pointOf_eq_some hpoint
    have hmem := SortedMap.get_eq_some.mpr (hvisits.only x hx).1
    rw [hname, hscore]
    exact hmem
  · obtain ⟨x, -, hpoint⟩ := hof p hp
    exact ⟨x, hpoint⟩

theorem sorted_eq_ok {x : Except Error (List (GeoPoint Bytes))} {sort : DistanceSort}
    {count : Option ℕ} {any : Bool}
    (h : (x.map fun points => sortAndTruncatePoints sorter points sort count any) = .ok points) :
    ∃ found, x = .ok found ∧ points.Subperm found := by
  cases x with
  | error err => cases h
  | ok found =>
    cases h
    exact ⟨found, rfl, sortAndTruncatePoints_subperm found sort count any⟩

theorem unlessEmpty_eq_ok {search : Except Error (List (GeoPoint Bytes))}
    (h : unlessEmpty s kc key now search = .ok points) : points = [] ∨ search = .ok points := by
  rw [unlessEmpty] at h
  cases hcard : zcard s kc key now with
  | error err =>
    rw [hcard] at h
    cases h
  | ok card =>
    rw [hcard] at h
    by_cases hzero : card = 0
    · rw [Except.bind, if_pos hzero] at h
      cases h
      exact .inl rfl
    · rw [Except.bind, if_neg hzero] at h
      exact .inr h

theorem sourcePoints_nil : SourcePoints M [] :=
  ⟨List.nodup_nil, fun _ hp => absurd hp List.not_mem_nil⟩

theorem ZSetReads.searchAt_source (h : ZSetReads s kc key now M) {shape : GeoShape}
    {opts : GeoSearchOpts} {lon lat : ℚ}
    (hrun : searchAt s kc key now sphere sorter id shape opts lon lat = .ok points) :
    SourcePoints M points := by
  obtain ⟨found, hfound, hsub⟩ := sorted_eq_ok hrun
  exact (h.searchShapeInternal_source hfound).1.subperm hsub

theorem ZSetReads.geosearchstorePoints_source (h : ZSetReads s kc key now M)
    {origin : OriginPoint} {shape : GeoShape} {opts : List GeoSearchStore}
    (hrun : geosearchstorePoints s kc key now format sphere sorter id origin shape opts =
      .ok points) : SourcePoints M points := by
  cases origin with
  | coord lon lat =>
    obtain ⟨-, -, hsearch⟩ := bind_eq_ok hrun
    rcases unlessEmpty_eq_ok hsearch with rfl | hat
    · exact sourcePoints_nil
    · exact h.searchAt_source hat
  | member m =>
    rcases unlessEmpty_eq_ok hrun with rfl | hsearch
    · exact sourcePoints_nil
    · obtain ⟨coord, -, hat⟩ := bind_eq_ok hsearch
      exact h.searchAt_source hat

theorem isNan_of_circular {α : Type} {text : Bytes → α} {shape : GeoShape} {unit : DistanceUnit}
    (hshape : shape.shapeType = .circular) {x : ZSetMemberScore} {p : GeoPoint α}
    (h : pointOf sphere text shape unit x = some p) : p.dist.isNan = false := by
  obtain ⟨-, -, d, hd, hdist⟩ := pointOf_eq_some h
  have hnan : d.isNan = false := by
    rw [GeoShape.inside, hshape] at hd
    dsimp only at hd
    split_ifs at hd with hle
    cases hd
    cases hval : sphere.haversineDistance shape.centerLon shape.centerLat (scoreToCoord x.2).1
      (scoreToCoord x.2).2 with
    | nan =>
      rw [hval] at hle
      cases hle
    | negInf => rfl
    | fin v => rfl
    | posInf => rfl
  rw [hdist]
  exact F64.isNan_ofExact_div hnan (conversionFactor_pos unit)

theorem ZSetReads.georadiusPoints_source (h : ZSetReads s kc key now M)
    {longitude latitude radius : ExactNum ℚ} {opt : GeoRadius}
    (hrun : georadiusPoints s kc key now format sphere sorter id longitude latitude radius opt =
      .ok points) : SourcePoints M points ∧ ∀ p ∈ points, p.dist.isNan = false := by
  obtain ⟨-, -, hrun⟩ := bind_eq_ok hrun
  split_ifs at hrun with hradius
  rcases unlessEmpty_eq_ok hrun with rfl | hsearch
  · exact ⟨sourcePoints_nil, fun _ hp => absurd hp List.not_mem_nil⟩
  · obtain ⟨found, hfound, hsub⟩ := sorted_eq_ok hsearch
    obtain ⟨hsource, hpoint⟩ := h.searchShapeInternal_source hfound
    refine ⟨hsource.subperm hsub, fun p hp => ?_⟩
    obtain ⟨x, hx⟩ := hpoint p (hsub.subset hp)
    exact isNan_of_circular rfl hx

theorem ZSetReads.georadiusbymemberPoints_source (h : ZSetReads s kc key now M) {member : Bytes}
    {radius : ExactNum ℚ} {opt : GeoRadius}
    (hrun : georadiusbymemberPoints s kc key now format sphere sorter id member radius opt =
      .ok points) : SourcePoints M points ∧ ∀ p ∈ points, p.dist.isNan = false := by
  rcases unlessEmpty_eq_ok hrun with rfl | hsearch
  · exact ⟨sourcePoints_nil, fun _ hp => absurd hp List.not_mem_nil⟩
  · obtain ⟨coord, -, hradius⟩ := bind_eq_ok hsearch
    exact h.georadiusPoints_source hradius

end

/-! ## The same search without storing -/

def GeoSearchStore.toSearch : GeoSearchStore → Option GeoSearch
  | .count c => some (.count c)
  | .any => some .any
  | .asc => some .asc
  | .desc => some .desc
  | .storeDist => none
  | .unit u => some (.unit u)

def checkOrigin (format : ExactNum ℚ → String) : OriginPoint → Except Error Unit
  | .coord lon lat => validateLongLat nearest format lon lat
  | .member _ => .ok ()

theorem foldl_toSearch (opts : List GeoSearchStore) (a : GeoSearchOpts) :
    (opts.filterMap GeoSearchStore.toSearch).foldl GeoSearchOpts.search
        { a with storeDist := false } =
      { opts.foldl GeoSearchOpts.searchStore a with storeDist := false } := by
  induction opts generalizing a with
  | nil => rfl
  | cons opt opts ih =>
    rw [List.foldl_cons, ← ih]
    cases opt with
    | count c => rfl
    | any => rfl
    | asc => rfl
    | desc => rfl
    | storeDist => rfl
    | unit u => rfl

section

variable {α : Type v} (s : Store) (kc : KeyComposer) (key : Key) (now : UInt64)
  (format : ExactNum ℚ → String) (sphere : Sphere) (sorter : UnstableSort) (text : Bytes → α)

theorem geosearchstorePoints_eq (origin : OriginPoint) (shape : GeoShape)
    (opts : List GeoSearchStore) :
    geosearchstorePoints s kc key now format sphere sorter text origin shape opts =
      (checkOrigin format origin).bind fun _ => geosearch s kc key now format sphere sorter text
        origin shape (opts.filterMap GeoSearchStore.toSearch) := by
  have hopts := foldl_toSearch opts {}
  have hat : ∀ lon lat : ℚ, searchAt s kc key now sphere sorter text shape
      ((opts.filterMap GeoSearchStore.toSearch).foldl GeoSearchOpts.search {}) lon lat =
        searchAt s kc key now sphere sorter text shape
          (opts.foldl GeoSearchOpts.searchStore {}) lon lat := by
    intro lon lat
    have hinit : ({ ({} : GeoSearchOpts) with storeDist := false } : GeoSearchOpts) = {} := rfl
    rw [hinit] at hopts
    rw [hopts]
    rfl
  cases origin with
  | coord lon lat =>
    rw [geosearchstorePoints, geosearch, checkOrigin]
    cases validateLongLat nearest format lon lat with
    | error err => rfl
    | ok valid =>
      simp only [Except.bind]
      rw [hat]
  | member m =>
    rw [geosearchstorePoints, geosearch, checkOrigin]
    dsimp only [Except.bind]
    simp only [hat]

end

/-! ## One destination -/

section

variable {s s' : Store} {kc : KeyComposer} {key : Key} {now : UInt64}

theorem checkKeyNotOtherType_congr
    (hat : ∀ slot : Slot, slot.Valid → s'.at ⟨kc, key, slot⟩ = s.at ⟨kc, key, slot⟩)
    (tag : KeyTag) : checkKeyNotOtherType s' kc key now tag =
      checkKeyNotOtherType s kc key now tag := by
  have hmeta : ∀ u ∈ allCompositeMetaTags, u ≠ tag →
      s'.at ⟨kc, key, .metadata u⟩ = s.at ⟨kc, key, .metadata u⟩ := by
    intro u hu _
    exact hat (.metadata u) (allCompositeMetaTags_isMeta hu)
  rw [checkKeyNotOtherType, checkKeyNotOtherType, liveString_congr (hat .str trivial),
    checkCompositeMetaNotOtherType_congr now hmeta]

theorem existsOne_of_congr
    (hat : ∀ slot : Slot, slot.Valid → s'.at ⟨kc, key, slot⟩ = s.at ⟨kc, key, slot⟩)
    (h : existsOne s kc key now = false) : existsOne s' kc key now = false := by
  obtain ⟨hstr, hmeta⟩ := existsOne_eq_false.mp h
  refine existsOne_eq_false.mpr ⟨(liveString_congr (hat .str trivial)).trans hstr, ?_⟩
  intro tag htag
  rw [liveMeta_congr (hat (.metadata tag) (allCompositeMetaTags_isMeta htag))]
  exact hmeta tag htag

theorem LiveInFront.congr (h : LiveInFront s kc now key)
    (hat : ∀ slot : Slot, slot.Valid → s'.at ⟨kc, key, slot⟩ = s.at ⟨kc, key, slot⟩) :
    LiveInFront s' kc now key := by
  have hfirst : firstMeta s' kc key = firstMeta s kc key := by
    rw [firstMeta, firstMeta]
    refine List.find?_congr fun tag htag => ?_
    have hget : s'.metadata.get (kc.composeMetaKeyStack tag.asSlice key.bytes) =
        s.metadata.get (kc.composeMetaKeyStack tag.asSlice key.bytes) :=
      hat (.metadata tag) (allCompositeMetaTags_isMeta htag)
    rw [SortedMap.contains, SortedMap.contains, hget]
  intro tag htag hlive
  rw [liveMeta_congr (hat (.metadata tag) (allCompositeMetaTags_isMeta htag))] at hlive
  rw [liveString_congr (hat .str trivial), hfirst]
  exact h tag htag hlive

theorem getZsetMeta_of_absent (h : existsOne s kc key now = false) :
    getMetaChecked ZSetMeta s kc key (composeZsetMetaKey kc key) now = .ok none := by
  have hlive := (existsOne_eq_false.mp h).2 .zSetMeta (by decide)
  have hcheck : checkKeyNotOtherType s kc key now (MetaOps.tag ZSetMeta) = .ok () :=
    checkKeyNotOtherType_of_absent _ h
  have hat : s.metadata.get (composeZsetMetaKey kc key) =
      s.metadata.get (kc.composeMetaKeyStack KeyTag.zSetMeta.asSlice key.bytes) := rfl
  rw [getMetaChecked_of_check hcheck, hat]
  rw [liveMeta] at hlive
  cases hget : s.metadata.get (kc.composeMetaKeyStack KeyTag.zSetMeta.asSlice key.bytes) with
  | none => rfl
  | some v =>
    rw [hget] at hlive
    simp only at hlive
    cases hdecode : MetaOps.decode (M := ZSetMeta) v with
    | none =>
      rw [Option.bind_some, hdecode]
      rfl
    | some m =>
      have hbase : KeyMeta.decode v = some m.base := by
        have h' : SimpleMeta.decode v = some m := hdecode
        rw [SimpleMeta.decode] at h'
        cases hkey : KeyMeta.decode v with
        | none =>
          rw [hkey] at h'
          cases h'
        | some base =>
          rw [hkey] at h'
          simp only at h'
          split_ifs at h' with htype
          cases h'
          rfl
      rw [hbase] at hlive
      have hexp : MetaOps.isExpired m now = true := by
        by_contra hnot
        have hnot' : ¬m.base.isExpired now = true := hnot
        simp only [if_neg hnot'] at hlive
        cases hlive
      rw [Option.bind_some, hdecode, Option.filter_some, hexp]
      rfl

end

def GeoTarget.items (t : GeoTarget) (points : List (GeoPoint String)) : List (F64 × Bytes) :=
  points.map fun p => (t.score p, textBytes p.member)

/-- A destination holds the texts of the points. -/
structure TextsStored (s : Store) (kc : KeyComposer) (now : UInt64) (t : GeoTarget)
    (points : List (GeoPoint String)) : Prop where
  check : checkKeyNotOtherType s kc t.dst now .zSetMeta = .ok ()
  reads : ZSetReads s kc t.dst now (ZMembers.with ∅ (lastScores (t.items points)))
  gone : points = [] → existsOne s kc t.dst now = false

section

variable {s s' : Store} {e : Engine} {kc : KeyComposer} {now : UInt64} {t : GeoTarget}
  {points : List (GeoPoint String)}

theorem TextsStored.congr (h : TextsStored s kc now t points)
    (hat : ∀ slot : Slot, slot.Valid → s'.at ⟨kc, t.dst, slot⟩ = s.at ⟨kc, t.dst, slot⟩) :
    TextsStored s' kc now t points where
  check := (checkKeyNotOtherType_congr hat _).trans h.check
  reads := h.reads.congr hat
  gone hnil := existsOne_of_congr hat (h.gone hnil)

/-- The engine has room for the points in the place of a destination. -/
def RoomFor (e : Engine) (kc : KeyComposer) (now : UInt64) (points : List (GeoPoint String))
    (t : GeoTarget) : Prop :=
  ∀ n ops, zadd (e.store.apply (delOne e.store kc t.dst now).2) kc t.dst now t.version
    (t.items points) [] = .ok (n, ops) →
      ((e.store.apply (delOne e.store kc t.dst now).2).apply ops).Fits

/-- The destinations have room one after the other. -/
def RoomForEach (kc : KeyComposer) (now : UInt64) (points : List (GeoPoint String)) :
    Engine → List GeoTarget → Prop
  | _, [] => True
  | e, t :: targets => RoomFor e kc now points t ∧
      ∀ e', storePoints e kc now points t = (.ok (), e') → RoomForEach kc now points e' targets

theorem at_delOne_of_ne {b : Addr} (hb : b.slot.Valid) (hne : ¬(b.kc = kc ∧ b.key = t.dst)) :
    (s.apply (delOne s kc t.dst now).2).at b = s.at b := by
  classical
  rw [at_apply_delOne (t := s) kc t.dst now hb id, if_neg]
  intro h
  exact hne ⟨h.1, h.2.1⟩

theorem storePoints_numbers (hfront : LiveInFront e.store kc now t.dst)
    (hnan : ∀ p ∈ points, (t.score p).isNan = false) (hroom : RoomFor e kc now points t) :
    ∃ e', storePoints e kc now points t = (.ok (), e') ∧ TextsStored e'.store kc now t points ∧
      ∀ b : Addr, b.slot.Valid → ¬(b.kc = kc ∧ b.key = t.dst) → e'.store.at b = e.store.at b := by
  obtain ⟨n, cleared, hdel, hcleared⟩ := delImpl_one e kc now t.dst
  have hgone : existsOne cleared.store kc t.dst now = false := by
    rw [hcleared]
    exact (existsOne_delOne_iff _ _ _ _).mpr hfront
  have hcheck := checkKeyNotOtherType_of_absent .zSetMeta hgone
  have hframe : ∀ b : Addr, b.slot.Valid → ¬(b.kc = kc ∧ b.key = t.dst) →
      cleared.store.at b = e.store.at b := by
    intro b hb hne
    rw [hcleared]
    exact at_delOne_of_ne hb hne
  rw [storePoints, hdel]
  simp only
  by_cases hnil : points = []
  · subst hnil
    refine ⟨cleared, rfl, ⟨hcheck, ⟨fun _ => ?_, fun h0 => absurd rfl h0⟩, fun _ => hgone⟩, hframe⟩
    rw [getZsetMeta, getZsetMeta_of_absent hgone]
    rfl
  · have hempty : points.isEmpty = false := List.isEmpty_eq_false_iff.mpr hnil
    have hitems : t.items points ≠ [] := fun h => hnil (List.map_eq_nil_iff.mp h)
    have hnumbers : ∀ x ∈ t.items points, x.1.isNan = false := by
      intro x hx
      obtain ⟨p, hp, rfl⟩ := List.mem_map.mp hx
      exact hnan p hp
    obtain ⟨ops, hadd, hfresh⟩ := @zadd_fresh cleared.store kc t.dst now t.version hcheck
      (getZsetMeta_of_absent hgone) _ hitems hnumbers
    have hfits : (cleared.store.apply ops).Fits := by
      rw [hcleared] at hadd ⊢
      exact hroom _ _ hadd
    rw [GeoTarget.items] at hadd
    rw [if_neg (by rw [hempty]; exact Bool.false_ne_true), hadd]
    simp only
    rw [Engine.commit_of_fits hfits]
    refine ⟨_, rfl, ⟨?_, hfresh.reads hfits, fun h => absurd h hnil⟩, ?_⟩
    · exact (checkKeyNotOtherType_apply_of_owned hfresh.owned now).trans hcheck
    · intro b hb hne
      rw [← hframe b hb hne]
      exact at_apply_of_local (fun o ho => (hfresh.owned o ho).localTo) hb hne

theorem storePoints_nan (hnan : ∃ p ∈ points, (t.score p).isNan = true) :
    ∃ err e', storePoints e kc now points t = (.error err, e') ∧
      e'.store = e.store.apply (delOne e.store kc t.dst now).2 := by
  obtain ⟨n, cleared, hdel, hcleared⟩ := delImpl_one e kc now t.dst
  obtain ⟨p, hp, hscore⟩ := hnan
  have hne : points.map (fun p => (t.score p, textBytes p.member)) ≠ [] := by
    intro h
    rw [List.map_eq_nil_iff.mp h] at hp
    cases hp
  have hempty : points.isEmpty = false :=
    List.isEmpty_eq_false_iff.mpr fun h => hne (List.map_eq_nil_iff.mpr h)
  have hany : ((points.map fun p => (t.score p, textBytes p.member)).any fun x => x.1.isNan) =
      true :=
    List.any_eq_true.mpr ⟨_, List.mem_map_of_mem hp, hscore⟩
  refine ⟨.invalidData errScoreNotFloat, cleared, ?_, hcleared⟩
  rw [storePoints, hdel]
  simp only
  rw [if_neg (by rw [hempty]; exact Bool.false_ne_true), zadd]
  simp only
  rw [if_neg hne, if_pos hany]

end

/-! ## One destination after the other -/

section

variable {e : Engine} {kc : KeyComposer} {now : UInt64} {t : GeoTarget} {targets : List GeoTarget}
  {points : List (GeoPoint String)}

theorem storeEach_numbers (hnodup : (targets.map GeoTarget.dst).Nodup)
    (hfront : ∀ t ∈ targets, LiveInFront e.store kc now t.dst)
    (hnan : ∀ t ∈ targets, ∀ p ∈ points, (t.score p).isNan = false)
    (hroom : RoomForEach kc now points e targets) :
    ∃ e', storeEach kc now points e targets = (.ok (), e') ∧
      (∀ t ∈ targets, TextsStored e'.store kc now t points) ∧
      ∀ b : Addr, b.slot.Valid → ¬(b.kc = kc ∧ b.key ∈ targets.map GeoTarget.dst) →
        e'.store.at b = e.store.at b := by
  induction targets generalizing e with
  | nil => exact ⟨e, rfl, fun t ht => absurd ht List.not_mem_nil, fun b _ _ => rfl⟩
  | cons t targets ih =>
    rw [List.map_cons, List.nodup_cons] at hnodup
    rw [List.forall_mem_cons] at hfront hnan
    obtain ⟨e₁, hone, hstored, hframe⟩ := storePoints_numbers hfront.1 hnan.1 hroom.1
    have hother : ∀ u ∈ targets, ∀ slot : Slot, slot.Valid →
        e₁.store.at ⟨kc, u.dst, slot⟩ = e.store.at ⟨kc, u.dst, slot⟩ := by
      intro u hu slot hslot
      refine hframe ⟨kc, u.dst, slot⟩ hslot fun h => hnodup.1 ?_
      rw [← h.2]
      exact List.mem_map_of_mem hu
    obtain ⟨e', hrest, hall, hframe'⟩ := ih hnodup.2
      (fun u hu => (hfront.2 u hu).congr (hother u hu)) hnan.2 (hroom.2 e₁ hone)
    refine ⟨e', ?_, ?_, ?_⟩
    · rw [storeEach, hone]
      exact hrest
    · rw [List.forall_mem_cons]
      refine ⟨hstored.congr fun slot hslot => ?_, hall⟩
      exact hframe' ⟨kc, t.dst, slot⟩ hslot fun h => hnodup.1 h.2
    · intro b hb hne
      rw [List.map_cons, List.mem_cons, and_or_left, not_or] at hne
      rw [hframe' b hb hne.2, hframe b hb hne.1]

end

/-! ## Names that are texts -/

/-- A destination holds the points: nothing without any, else a sorted set of their members,
each with the score or distance. -/
structure GeoStored (s : Store) (kc : KeyComposer) (now : UInt64) (t : GeoTarget)
    (points : List (GeoPoint Bytes)) : Prop where
  check : checkKeyNotOtherType s kc t.dst now .zSetMeta = .ok ()
  members : ∃ M, ZSetReads s kc t.dst now M ∧ M.length = points.length ∧
    ∀ member score, M.get member = some score ↔
      ∃ p ∈ points, p.member = member ∧ t.score p = score
  gone : points = [] → existsOne s kc t.dst now = false

section

variable {s : Store} {kc : KeyComposer} {now : UInt64} {t : GeoTarget} {lossy : Bytes → String}
  {points : List (GeoPoint Bytes)}

theorem textBytes_memberStr {member : Bytes} (h : (fromUtf8 member).isSome) :
    textBytes (memberStr lossy member) = member := by
  obtain ⟨text, htext⟩ := Option.isSome_iff_exists.mp h
  rw [memberStr, htext, Option.getD_some]
  exact textBytes_fromUtf8 htext

theorem GeoTarget.items_withText (t : GeoTarget) (points : List (GeoPoint Bytes)) :
    t.items (points.map (GeoPoint.withText (memberStr lossy))) =
      points.map fun p => (t.score p, textBytes (memberStr lossy p.member)) := by
  rw [items, List.map_map]
  rfl

theorem lastScores_of_nodup {items : List (F64 × Bytes)} (h : (items.map Prod.snd).Nodup) :
    lastScores items = items.reverse.map Prod.swap := by
  have hnames : (items.reverse.map Prod.swap).map Prod.fst = (items.map Prod.snd).reverse := by
    rw [List.map_map, List.map_reverse]
    rfl
  refine keepFirst_of_nodup ?_ fun a _ => List.not_mem_nil
  rw [hnames, List.nodup_reverse]
  exact h

theorem TextsStored.stored
    (h : TextsStored s kc now t (points.map (GeoPoint.withText (memberStr lossy))))
    (hnodup : (points.map GeoPoint.member).Nodup)
    (htexts : ∀ p ∈ points, (fromUtf8 p.member).isSome) : GeoStored s kc now t points := by
  have hitems : t.items (points.map (GeoPoint.withText (memberStr lossy))) =
      points.map fun p => (t.score p, p.member) := by
    rw [GeoTarget.items_withText]
    refine List.map_congr_left fun p hp => ?_
    rw [textBytes_memberStr (htexts p hp)]
  have hnames : ((points.map fun p => (t.score p, p.member)).map Prod.snd).Nodup := by
    rw [List.map_map]
    exact hnodup
  have hlast : lastScores (t.items (points.map (GeoPoint.withText (memberStr lossy)))) =
      points.reverse.map fun p => (p.member, t.score p) := by
    rw [hitems, lastScores_of_nodup hnames, ← List.map_reverse, List.map_map]
    rfl
  have hfirst : ((points.reverse.map fun p => (p.member, t.score p)).map Prod.fst).Nodup := by
    rw [List.map_map, List.map_reverse, List.nodup_reverse]
    exact hnodup
  have hreads := h.reads
  rw [hlast] at hreads
  refine ⟨h.check, ⟨_, hreads, ?_, fun member score => ?_⟩, fun hnil => h.gone ?_⟩
  · have hlength := @ZMembers.length_with ∅ _ (fun x _ => rfl) hfirst
    rw [List.length_map, List.length_reverse] at hlength
    exact hlength.trans (Nat.zero_add _)
  · rw [ZMembers.get_with hfirst, or_iff_left]
    · rw [List.mem_map]
      constructor
      · intro hmem
        obtain ⟨p, hp, heq⟩ := hmem
        exact ⟨p, List.mem_reverse.mp hp, congrArg Prod.fst heq, congrArg Prod.snd heq⟩
      · intro hmem
        obtain ⟨p, hp, hname, hscore⟩ := hmem
        exact ⟨p, List.mem_reverse.mpr hp, Prod.ext hname hscore⟩
    · intro hout
      cases hout.2
  · rw [hnil]
    rfl

theorem TextsStored.texts
    (h : TextsStored s kc now t (points.map (GeoPoint.withText (memberStr lossy))))
    (hstored : GeoStored s kc now t points) : ∀ p ∈ points, (fromUtf8 p.member).isSome := by
  intro p hp
  obtain ⟨M, hreads, -, hget⟩ := hstored.members
  have hscore := (hget p.member (t.score p)).mpr ⟨p, hp, rfl, rfl⟩
  have hzscore := hreads.zscore p.member
  rw [h.reads.zscore p.member, hscore, Except.ok.injEq] at hzscore
  have hnodup := (keepFirst_nodup
    ((t.items (points.map (GeoPoint.withText (memberStr lossy)))).reverse.map Prod.swap) []).1
  rcases (ZMembers.get_with hnodup p.member (t.score p)).mp hzscore with hmem | hout
  · obtain ⟨x, hx, heq⟩ := List.mem_map.mp (keepFirst_subset hmem)
    rw [List.mem_reverse, GeoTarget.items_withText] at hx
    obtain ⟨q, -, rfl⟩ := List.mem_map.mp hx
    have hname : textBytes (memberStr lossy q.member) = p.member := congrArg Prod.fst heq
    rw [← hname, fromUtf8_textBytes]
    rfl
  · cases hout.2

end

/-! ## The commands -/

inductive GeoCommand
  | geosearchstore (destination source : Key) (origin : OriginPoint) (shape : GeoShape)
    (opts : List GeoSearchStore) (version : UInt64)
  | georadius (key : Key) (longitude latitude radius : ExactNum ℚ) (opt : GeoRadius)
    (version distVersion : UInt64)
  | georadiusbymember (key : Key) (member : Bytes) (radius : ExactNum ℚ) (opt : GeoRadius)
    (version distVersion : UInt64)

namespace GeoCommand

def source : GeoCommand → Key
  | .geosearchstore _ source _ _ _ _ => source
  | .georadius key _ _ _ _ _ _ => key
  | .georadiusbymember key _ _ _ _ _ => key

def targets : GeoCommand → List GeoTarget
  | .geosearchstore destination _ _ _ opts version => [storeTarget destination opts version]
  | .georadius _ _ _ _ opt version distVersion => opt.targets version distVersion
  | .georadiusbymember _ _ _ opt version distVersion => opt.targets version distVersion

def checked (format : ExactNum ℚ → String) : GeoCommand → Except Error Unit
  | .geosearchstore _ _ origin _ _ _ => checkOrigin format origin
  | _ => .ok ()

section

variable (format : ExactNum ℚ → String) (sphere : Sphere) (sorter : UnstableSort)
  (lossy : Bytes → String) (e : Engine) (kc : KeyComposer) (now : UInt64)

def run : GeoCommand → Except Error ℕ × Engine
  | .geosearchstore destination source origin shape opts version =>
    Wedb.geosearchstore format sphere sorter lossy e kc now destination source origin shape opts
      version
  | .georadius key longitude latitude radius opt version distVersion =>
    let (reply, e') := Wedb.georadius format sphere sorter lossy e kc now key longitude latitude
      radius opt version distVersion
    (reply.map List.length, e')
  | .georadiusbymember key member radius opt version distVersion =>
    let (reply, e') := Wedb.georadiusbymember format sphere sorter lossy e kc now key member radius
      opt version distVersion
    (reply.map List.length, e')

def search : GeoCommand → Except Error (List (GeoPoint Bytes))
  | .geosearchstore _ source origin shape opts _ =>
    geosearch e.store kc source now format sphere sorter id origin shape
      (opts.filterMap GeoSearchStore.toSearch)
  | .georadius key longitude latitude radius opt _ _ =>
    georadiusPoints e.store kc key now format sphere sorter id longitude latitude radius opt
  | .georadiusbymember key member radius opt _ _ =>
    georadiusbymemberPoints e.store kc key now format sphere sorter id member radius opt

end

end GeoCommand

section

variable (format : ExactNum ℚ → String) (sphere : Sphere) (sorter : UnstableSort)
  (lossy : Bytes → String) (e : Engine) (kc : KeyComposer) (now : UInt64) (M : ZMembers)
  (c : GeoCommand)

/-- The call fails and leaves the store, or every destination holds what the same search selects
from the source, and as many points are returned. Unless a number is missing, what is selected is
stored. -/
structure StoresResult : Prop where
  refused : ∀ err, (c.run format sphere sorter lossy e kc now).1 = .error err →
    (c.run format sphere sorter lossy e kc now).2.store = e.store
  stored : ∀ n, (c.run format sphere sorter lossy e kc now).1 = .ok n →
    ∃ points, c.search format sphere sorter e kc now = .ok points ∧ n = points.length ∧
      (∀ p ∈ points, M.get p.member = some p.score) ∧ ∀ t ∈ c.targets,
        GeoStored (c.run format sphere sorter lossy e kc now).2.store kc now t points
  answers : ∀ points, c.checked format = .ok () →
    c.search format sphere sorter e kc now = .ok points →
    (∀ t ∈ c.targets, ∀ p ∈ points, (t.score p).isNan = false) →
      ∃ n, (c.run format sphere sorter lossy e kc now).1 = .ok n

/-- The selected names are texts and the stored scores are numbers; without a number, the
deletion of the destination leaves the store. -/
def SelectsTexts : Prop :=
  ∀ points, c.checked format = .ok () → c.search format sphere sorter e kc now = .ok points →
    c.targets ≠ [] →
    (∀ t ∈ c.targets, ∀ p ∈ points, (t.score p).isNan = false) ∧
        (∀ p ∈ points, (fromUtf8 p.member).isSome) ∨
      (∃ t ∈ c.targets, ∃ p ∈ points, (t.score p).isNan = true) ∧
        ∀ t ∈ c.targets, e.store.apply (delOne e.store kc t.dst now).2 = e.store

/-- What the call can count on: a source, different destinations with their live values in front,
and room. -/
structure GeoStoreReady : Prop where
  source : ZSetReads e.store kc c.source now M
  apart : (c.targets.map GeoTarget.dst).Nodup
  front : ∀ t ∈ c.targets, LiveInFront e.store kc now t.dst
  room : ∀ points, c.search format sphere sorter e kc now = .ok points →
    RoomForEach kc now (points.map (GeoPoint.withText (memberStr lossy))) e c.targets

end

section

variable {format : ExactNum ℚ → String} {sphere : Sphere} {sorter : UnstableSort}
  {lossy : Bytes → String} {e : Engine} {kc : KeyComposer} {now : UInt64} {M : ZMembers}
  {c : GeoCommand} {points : List (GeoPoint Bytes)}

theorem GeoCommand.run_eq (h : ZSetReads e.store kc c.source now M) :
    c.run format sphere sorter lossy e kc now =
      (((storeSearch e kc now (((c.checked format).bind fun _ =>
          c.search format sphere sorter e kc now).map
            (List.map (GeoPoint.withText (memberStr lossy)))) c.targets).1.map List.length),
        (storeSearch e kc now (((c.checked format).bind fun _ =>
          c.search format sphere sorter e kc now).map
            (List.map (GeoPoint.withText (memberStr lossy)))) c.targets).2) := by
  cases c with
  | geosearchstore destination source origin shape opts version =>
    have htext := @ZSetReads.geosearchstorePoints_text _ _ (memberStr lossy) sphere sorter id
      e.store kc source now M format h origin shape opts
    rw [geosearchstorePoints_eq _ _ _ _ _ _ _ id] at htext
    exact congrArg (fun found => (((storeSearch e kc now found
      [storeTarget destination opts version]).1.map List.length),
      (storeSearch e kc now found [storeTarget destination opts version]).2)) htext
  | georadius key longitude latitude radius opt version distVersion =>
    have htext := @ZSetReads.georadiusPoints_text _ _ (memberStr lossy) sphere sorter id
      e.store kc key now M format h longitude latitude radius opt
    exact congrArg (fun found => (((storeSearch e kc now found
      (opt.targets version distVersion)).1.map List.length),
      (storeSearch e kc now found (opt.targets version distVersion)).2)) htext
  | georadiusbymember key member radius opt version distVersion =>
    have htext := @ZSetReads.georadiusbymemberPoints_text _ _ (memberStr lossy) sphere sorter id
      e.store kc key now M format h member radius opt
    exact congrArg (fun found => (((storeSearch e kc now found
      (opt.targets version distVersion)).1.map List.length),
      (storeSearch e kc now found (opt.targets version distVersion)).2)) htext

/-- What is selected are points of the source; a distance that is no number can only be stored
under a single destination. -/
theorem GeoCommand.search_source (h : ZSetReads e.store kc c.source now M)
    (hcheck : c.checked format = .ok ())
    (hsearch : c.search format sphere sorter e kc now = .ok points) :
    SourcePoints M points ∧ ((∃ t, c.targets = [t]) ∨ ∀ p ∈ points, p.dist.isNan = false) := by
  cases c with
  | geosearchstore destination source origin shape opts version =>
    refine ⟨?_, .inl ⟨_, rfl⟩⟩
    have hchecked : checkOrigin format origin = .ok () := hcheck
    have hrun : geosearchstorePoints e.store kc source now format sphere sorter id origin shape
        opts = .ok points := by
      rw [geosearchstorePoints_eq, hchecked]
      exact hsearch
    exact h.geosearchstorePoints_source hrun
  | georadius key longitude latitude radius opt version distVersion =>
    obtain ⟨hsource, hnan⟩ := h.georadiusPoints_source hsearch
    exact ⟨hsource, .inr hnan⟩
  | georadiusbymember key member radius opt version distVersion =>
    obtain ⟨hsource, hnan⟩ := h.georadiusbymemberPoints_source hsearch
    exact ⟨hsource, .inr hnan⟩

theorem GeoCommand.run_of_error (h : ZSetReads e.store kc c.source now M) {err : Error}
    (hfail : ((c.checked format).bind fun _ => c.search format sphere sorter e kc now) =
      .error err) : c.run format sphere sorter lossy e kc now = (.error err, e) := by
  rw [run_eq h, hfail]
  rfl

theorem GeoCommand.run_of_points (h : ZSetReads e.store kc c.source now M)
    (hcheck : c.checked format = .ok ())
    (hsearch : c.search format sphere sorter e kc now = .ok points)
    {reply : Except Error Unit} {e' : Engine}
    (heach : storeEach kc now (points.map (GeoPoint.withText (memberStr lossy))) e c.targets =
      (reply, e')) :
    c.run format sphere sorter lossy e kc now = (reply.map fun _ => points.length, e') := by
  have hstore : storeSearch e kc now
      (.ok (points.map (GeoPoint.withText (memberStr lossy)))) c.targets =
        (reply.map fun _ => points.map (GeoPoint.withText (memberStr lossy)), e') := by
    rw [storeSearch]
    simp only [heach]
    cases reply with
    | error err => rfl
    | ok done => rfl
  rw [run_eq h, hcheck]
  simp only [Except.bind]
  rw [hsearch]
  simp only [Except.map]
  rw [hstore]
  cases reply with
  | error err => rfl
  | ok done => simp only [Except.map, List.length_map]

theorem StoresResult.of_error {err : Error}
    (hfail : ((c.checked format).bind fun _ => c.search format sphere sorter e kc now) =
      .error err)
    (hrun : c.run format sphere sorter lossy e kc now = (.error err, e)) :
    StoresResult format sphere sorter lossy e kc now M c := by
  refine ⟨fun _ _ => ?_, fun n hn => ?_, fun points hcheck hsearch _ => ?_⟩
  · rw [hrun]
  · rw [hrun] at hn
    cases hn
  · rw [hcheck] at hfail
    simp only [Except.bind] at hfail
    rw [hsearch] at hfail
    cases hfail

theorem storesResult_iff_of_numbers
    (h : GeoStoreReady format sphere sorter lossy e kc now M c)
    (hcheck : c.checked format = .ok ())
    (hsearch : c.search format sphere sorter e kc now = .ok points)
    (hnan : ∀ t ∈ c.targets, ∀ p ∈ points, (t.score p).isNan = false) :
    StoresResult format sphere sorter lossy e kc now M c ↔
      (c.targets ≠ [] → ∀ p ∈ points, (fromUtf8 p.member).isSome) := by
  have hnumbers : ∀ t ∈ c.targets, ∀ p ∈ points.map (GeoPoint.withText (memberStr lossy)),
      (t.score p).isNan = false := by
    intro t ht p hp
    obtain ⟨q, hq, rfl⟩ := List.mem_map.mp hp
    exact hnan t ht q hq
  obtain ⟨e', heach, hstored, -⟩ :=
    storeEach_numbers h.apart h.front hnumbers (h.room points hsearch)
  have hrun := GeoCommand.run_of_points h.source hcheck hsearch heach
  have hsource := (GeoCommand.search_source h.source hcheck hsearch).1
  constructor
  · intro hresult hne
    obtain ⟨t, ht⟩ := List.exists_mem_of_ne_nil _ hne
    obtain ⟨points', hsearch', -, -, hall⟩ := hresult.stored points.length (by rw [hrun]; rfl)
    rw [hsearch, Except.ok.injEq] at hsearch'
    subst hsearch'
    rw [hrun] at hall
    exact (hstored t ht).texts (hall t ht)
  · intro htexts
    refine ⟨fun err herr => ?_, fun n hn => ?_, fun _ _ _ _ => ⟨points.length, by rw [hrun]; rfl⟩⟩
    · rw [hrun] at herr
      cases herr
    · rw [hrun] at hn ⊢
      cases hn
      refine ⟨points, hsearch, rfl, hsource.source, fun t ht => ?_⟩
      exact (hstored t ht).stored hsource.once (htexts (List.ne_nil_of_mem ht))

theorem storesResult_iff_of_nan
    (h : GeoStoreReady format sphere sorter lossy e kc now M c)
    (hcheck : c.checked format = .ok ())
    (hsearch : c.search format sphere sorter e kc now = .ok points)
    (hnan : ∃ t ∈ c.targets, ∃ p ∈ points, (t.score p).isNan = true) :
    StoresResult format sphere sorter lossy e kc now M c ↔
      ∀ t ∈ c.targets, e.store.apply (delOne e.store kc t.dst now).2 = e.store := by
  obtain ⟨hsource, hsingle⟩ := GeoCommand.search_source h.source hcheck hsearch
  obtain ⟨t, ht, p, hp, hscore⟩ := hnan
  have hone : c.targets = [t] := by
    rcases hsingle with hsingle | hdist
    · obtain ⟨u, hu⟩ := hsingle
      rw [hu] at ht ⊢
      rw [List.mem_singleton.mp ht]
    · have hmem : (p.member, p.score) ∈ M.ranked := ZMembers.mem_ranked.mpr (hsource.source p hp)
      have hnumber : p.score.isNan = false := h.source.numbers hmem
      rw [GeoTarget.score] at hscore
      split_ifs at hscore with hd
      · rw [hdist p hp] at hscore
        cases hscore
      · rw [hnumber] at hscore
        cases hscore
  obtain ⟨err, e', hfail, hdeleted⟩ := @storePoints_nan e kc now t
    (points.map (GeoPoint.withText (memberStr lossy)))
    ⟨p.withText (memberStr lossy), List.mem_map_of_mem hp, hscore⟩
  have heach : storeEach kc now (points.map (GeoPoint.withText (memberStr lossy))) e c.targets =
      (.error err, e') := by
    rw [hone, storeEach, hfail]
  have hrun := GeoCommand.run_of_points h.source hcheck hsearch heach
  constructor
  · intro hresult u hu
    have hsame := hresult.refused err (by rw [hrun]; rfl)
    rw [hone, List.mem_singleton] at hu
    rw [hrun, hdeleted] at hsame
    rw [hu]
    exact hsame
  · intro hunchanged
    refine ⟨fun _ _ => ?_, fun n hn => ?_, fun points' _ hsearch' hnumbers => ?_⟩
    · rw [hrun, hdeleted]
      exact hunchanged t ht
    · rw [hrun] at hn
      cases hn
    · rw [hsearch, Except.ok.injEq] at hsearch'
      subst hsearch'
      rw [hnumbers t ht p hp] at hscore
      cases hscore

/-- The store variants store exactly what is selected if and only if its names are texts. -/
theorem storesResult_iff (h : GeoStoreReady format sphere sorter lossy e kc now M c) :
    StoresResult format sphere sorter lossy e kc now M c ↔
      SelectsTexts format sphere sorter e kc now c := by
  cases hfound : (c.checked format).bind fun _ => c.search format sphere sorter e kc now with
  | error err =>
    refine iff_of_true (.of_error hfound (GeoCommand.run_of_error h.source hfound)) ?_
    intro points hcheck hsearch
    rw [hcheck] at hfound
    simp only [Except.bind] at hfound
    rw [hsearch] at hfound
    cases hfound
  | ok points =>
    obtain ⟨done, hcheck, hsearch⟩ := bind_eq_ok hfound
    have honly : SelectsTexts format sphere sorter e kc now c ↔ (c.targets ≠ [] →
        (∀ t ∈ c.targets, ∀ p ∈ points, (t.score p).isNan = false) ∧
            (∀ p ∈ points, (fromUtf8 p.member).isSome) ∨
          (∃ t ∈ c.targets, ∃ p ∈ points, (t.score p).isNan = true) ∧
            ∀ t ∈ c.targets, e.store.apply (delOne e.store kc t.dst now).2 = e.store) := by
      constructor
      · intro hall
        exact hall points hcheck hsearch
      · intro hone points' _ hsearch'
        rw [hsearch, Except.ok.injEq] at hsearch'
        subst hsearch'
        exact hone
    rw [honly]
    by_cases hnan : ∃ t ∈ c.targets, ∃ p ∈ points, (t.score p).isNan = true
    · have hne : c.targets ≠ [] := by
        obtain ⟨t, ht, -⟩ := hnan
        exact List.ne_nil_of_mem ht
      have hnot : ¬∀ t ∈ c.targets, ∀ p ∈ points, (t.score p).isNan = false := by
        intro hall
        obtain ⟨t, ht, p, hp, hscore⟩ := hnan
        rw [hall t ht p hp] at hscore
        cases hscore
      rw [storesResult_iff_of_nan h hcheck hsearch hnan]
      constructor
      · intro hunchanged _
        exact .inr ⟨hnan, hunchanged⟩
      · intro hcases
        rcases hcases hne with hnumbers | hunchanged
        · exact absurd hnumbers.1 hnot
        · exact hunchanged.2
    · have hnumbers : ∀ t ∈ c.targets, ∀ p ∈ points, (t.score p).isNan = false := by
        intro t ht p hp
        by_contra hscore
        exact hnan ⟨t, ht, p, hp, by simpa using hscore⟩
      rw [storesResult_iff_of_numbers h hcheck hsearch hnumbers]
      refine imp_congr_right fun _ => ?_
      rw [or_iff_left fun hright => hnan hright.1]
      exact (and_iff_right hnumbers).symm

end

/-! ## A name that is no text -/

def positionsByKey (keys : List ℤ) : List ℕ :=
  (List.range keys.length).insertionSort fun i j => keys.getD i 0 ≤ keys.getD j 0

theorem positionsByKey_pairwise (keys : List ℤ) :
    (positionsByKey keys).Pairwise fun i j => keys.getD i 0 ≤ keys.getD j 0 := by
  have htotal : Std.Total fun i j : ℕ => keys.getD i 0 ≤ keys.getD j 0 := ⟨fun i j => le_total _ _⟩
  have htrans : IsTrans ℕ fun i j => keys.getD i 0 ≤ keys.getD j 0 := ⟨fun i j k => le_trans⟩
  exact List.pairwise_insertionSort _ _

def insertionSorter : UnstableSort where
  selectNth := fun _ => positionsByKey
  sort := positionsByKey
  selectNth_perm := fun _ _ _ => List.perm_insertionSort _ _
  selectNth_below := by
    intro n keys _ i hi j hj
    have h := positionsByKey_pairwise keys
    rw [← List.take_append_drop n (positionsByKey keys), List.pairwise_append] at h
    exact h.2.2 i hi j hj
  sort_perm := fun _ => List.perm_insertionSort _ _
  sort_pairwise := positionsByKey_pairwise

def textlessMembers : List (F64 × Bytes) := [(.zero, [0xFF])]

def textlessStore : Store :=
  ((zadd ∅ ⟨0, 0⟩ sampleKey 1 1 textlessMembers []).toOption.map fun r =>
    (∅ : Store).apply r.2).getD ∅

theorem textlessStore_reads : textlessStore.Fits ∧ ZSetReads textlessStore ⟨0, 0⟩ sampleKey 1
    (ZMembers.with ∅ (lastScores textlessMembers)) := by
  have hnan : ∀ x ∈ textlessMembers, x.1.isNan = false := by decide
  have hfits : textlessStore.Fits := by decide +kernel
  obtain ⟨ops, hrun, hfresh⟩ :=
    @zadd_fresh ∅ ⟨0, 0⟩ sampleKey 1 1 rfl rfl textlessMembers (by decide) hnan
  have hstore : textlessStore = (∅ : Store).apply ops := by
    rw [textlessStore, hrun]
    rfl
  refine ⟨hfits, ?_⟩
  rw [hstore] at hfits ⊢
  exact hfresh.reads hfits

def textlessEngine : Engine := ⟨textlessStore, textlessStore_reads.1⟩

def textlessCommand : GeoCommand :=
  .geosearchstore sampleDst sampleKey
    (.coord (.fin (geoLonMin nearest)) (.fin (geoLatMin nearest))) cornerShape [] 2

def replacement (_ : Bytes) : String := "?"

theorem textlessCommand_search : ∃ p : GeoPoint Bytes,
    textlessCommand.checked (fun _ => "") = .ok () ∧
    textlessCommand.search (fun _ => "") cornerSphere insertionSorter textlessEngine ⟨0, 0⟩ 1 =
      .ok [p] ∧ p.member = [0xFF] ∧ p.score = .zero := by
  obtain ⟨-, hreads⟩ := textlessStore_reads
  obtain ⟨hash, rest, hcells, hcell, hbits⟩ := searchedCells_corner
  have hrd := Binary64.rounds_nearest
  have hvalid : validateLongLat nearest (fun _ => "") (.fin (geoLonMin nearest))
      (.fin (geoLatMin nearest)) = .ok () :=
    validateLongLat_of_holds ⟨le_rfl, (isAxis_geoLonRange hrd).lt.le⟩
      ⟨le_rfl, (isAxis_geoLatRange hrd).lt.le⟩
  have hentries : (ZMembers.with ∅ (lastScores textlessMembers)).entries = [([0xFF], .zero)] := by
    decide +kernel
  have hscore : (boxRange hash).check .zero = true := by
    have hzero : F64.zero = .ofUInt64 0 := rfl
    rw [hzero, boxRange_check_ofUInt64 hcell (by norm_num), hbits]
    exact Nat.zero_div _
  obtain ⟨points, seen, hrun, -, hvisits, hpoints⟩ := hreads.searchVisits cornerSphere id
    (boundingBox cornerSphere cornerShape) .meters none false
  obtain ⟨p, hp⟩ := Option.isSome_iff_exists.mp (pointOf_corner id ([0xFF], .zero))
  have hin : ([0xFF], F64.zero) ∈ seen := by
    refine hvisits.every rfl _ (by rw [hentries]; exact List.mem_singleton_self _) ⟨hash, ?_, hscore⟩
    have hsame : searchedCells cornerSphere (boundingBox cornerSphere cornerShape) =
        searchedCells cornerSphere cornerShape := rfl
    rw [hsame, hcells]
    exact List.mem_cons_self
  have hseen : seen = [([0xFF], .zero)] := by
    have honly : ∀ x ∈ seen, x = ([0xFF], F64.zero) := by
      intro x hx
      have hmem := (hvisits.only x hx).1
      rw [hentries] at hmem
      exact List.mem_singleton.mp hmem
    have hrep : seen = List.replicate seen.length ([0xFF], F64.zero) :=
      List.eq_replicate_iff.mpr ⟨rfl, honly⟩
    have hle : seen.length ≤ 1 := by
      have honce := hvisits.once
      rw [hrep, List.map_replicate] at honce
      exact List.nodup_replicate.mp honce
    have hpos := List.length_pos_of_mem hin
    have hone : seen.length = 1 := by omega
    rw [hrep, hone]
    rfl
  have hfound : points = [p] := by
    rw [hpoints, hseen, List.filterMap_cons]
    have hsame : pointOf cornerSphere id (getAreasByShapeWgs84 cornerSphere
        (boundingBox cornerSphere cornerShape)).2 .meters ([0xFF], .zero) = some p := hp
    rw [hsame]
    rfl
  obtain ⟨card, hcard, hempty⟩ := hreads.zcard
  have hne : card ≠ 0 := by
    rw [Ne, hempty]
    decide +kernel
  obtain ⟨hname, hpscore, -⟩ := pointOf_eq_some hp
  refine ⟨p, hvalid, ?_, hname, hpscore⟩
  have hsearch : searchAt textlessStore ⟨0, 0⟩ sampleKey 1 cornerSphere insertionSorter id
      cornerShape {} (geoLonMin nearest) (geoLatMin nearest) = .ok [p] := by
    have hrun' : searchShapeInternal textlessStore ⟨0, 0⟩ sampleKey 1 cornerSphere id
        (boundingBox cornerSphere { cornerShape with
          centerLon := geoLonMin nearest, centerLat := geoLatMin nearest }) .meters none false =
        .ok points := hrun
    rw [searchAt, hrun', hfound]
    rfl
  have hunfold : textlessCommand.search (fun _ => "") cornerSphere insertionSorter textlessEngine
      ⟨0, 0⟩ 1 = unlessEmpty textlessStore ⟨0, 0⟩ sampleKey 1
        ((validateLongLat nearest (fun _ => "") (.fin (geoLonMin nearest))
          (.fin (geoLatMin nearest))).bind fun _ => searchAt textlessStore ⟨0, 0⟩ sampleKey 1
            cornerSphere insertionSorter id cornerShape {} (geoLonMin nearest)
            (geoLatMin nearest)) := rfl
  rw [hunfold, unlessEmpty, hcard, hvalid, hsearch]
  simp only [Except.bind]
  rw [if_neg hne]

theorem textlessCommand_ready : GeoStoreReady (fun _ => "") cornerSphere insertionSorter
    replacement textlessEngine ⟨0, 0⟩ 1 (ZMembers.with ∅ (lastScores textlessMembers))
    textlessCommand where
  source := textlessStore_reads.2
  apart := List.nodup_singleton _
  front := by
    intro t ht tag htag hlive
    have htarget := List.mem_singleton.mp ht
    rw [htarget] at hlive
    have hnone : (allCompositeMetaTags.all fun tag =>
        !(liveMeta textlessStore ⟨0, 0⟩ sampleDst 1 tag).isSome) = true := by
      decide +kernel
    have hdead := List.all_eq_true.mp hnone tag htag
    rw [Bool.not_eq_true'] at hdead
    have hlive' : (liveMeta textlessStore ⟨0, 0⟩ sampleDst 1 tag).isSome = true := hlive
    rw [hdead] at hlive'
    cases hlive'
  room := by
    intro points hsearch
    obtain ⟨p, -, hfound, -, hscore⟩ := textlessCommand_search
    rw [hsearch, Except.ok.injEq] at hfound
    subst hfound
    have hfits : ((zadd (textlessStore.apply (delOne textlessStore ⟨0, 0⟩ sampleDst 1).2)
        ⟨0, 0⟩ sampleDst 1 2 [(.zero, textBytes "?")] []).toOption.all fun r =>
          decide ((textlessStore.apply
            (delOne textlessStore ⟨0, 0⟩ sampleDst 1).2).apply r.2).Fits) = true := by
      decide +kernel
    refine ⟨fun n ops hrun => ?_, fun _ _ => trivial⟩
    have hitems : (storeTarget sampleDst [] 2).items
        ([p].map (GeoPoint.withText (memberStr replacement))) =
          [(.zero, textBytes (memberStr replacement p.member))] := by
      rw [GeoTarget.items, List.map_singleton, List.map_singleton, ← hscore]
      rfl
    have htext : memberStr replacement p.member = "?" := by
      obtain ⟨q, -, hq, hname, -⟩ := textlessCommand_search
      rw [hsearch, Except.ok.injEq] at hq
      rw [(List.cons.inj hq).1, hname]
      decide +kernel
    have hrun' : zadd (textlessStore.apply
        (delOne textlessStore ⟨0, 0⟩ sampleDst 1).2) ⟨0, 0⟩ sampleDst 1 2
          [(.zero, textBytes "?")] [] = .ok (n, ops) := by
      rw [← htext, ← hitems]
      exact hrun
    rw [hrun'] at hfits
    exact of_decide_eq_true hfits

theorem storesResult_iff_textless :
    StoresResult (fun _ => "") cornerSphere insertionSorter replacement textlessEngine ⟨0, 0⟩ 1
        (ZMembers.with ∅ (lastScores textlessMembers)) textlessCommand ↔
      SelectsTexts (fun _ => "") cornerSphere insertionSorter textlessEngine ⟨0, 0⟩ 1
        textlessCommand :=
  storesResult_iff textlessCommand_ready

/-- A member of the byte 0xFF is stored under another name. -/
theorem storesResult_loses_names :
    ¬∀ (format : ExactNum ℚ → String) (sphere : Sphere) (sorter : UnstableSort)
      (lossy : Bytes → String) (e : Engine) (kc : KeyComposer) (now : UInt64) (M : ZMembers)
      (c : GeoCommand), GeoStoreReady format sphere sorter lossy e kc now M c →
        StoresResult format sphere sorter lossy e kc now M c := by
  intro hall
  have hresult := hall _ _ _ _ _ _ _ _ _ textlessCommand_ready
  obtain ⟨p, hcheck, hsearch, hname, hscore⟩ := textlessCommand_search
  have hnumbers : ∀ t ∈ textlessCommand.targets, ∀ q ∈ [p], (t.score q).isNan = false := by
    intro t ht q hq
    rw [List.mem_singleton.mp ht, List.mem_singleton.mp hq]
    have heq : (storeTarget sampleDst [] 2).score p = p.score := rfl
    rw [heq, hscore]
    rfl
  have htexts := (storesResult_iff_of_numbers textlessCommand_ready hcheck hsearch hnumbers).mp
    hresult (List.cons_ne_nil _ _) p (List.mem_singleton_self p)
  rw [hname] at htexts
  exact absurd htexts (by decide +kernel)

end Wedb
