import Mathlib.Data.List.Dedup
import Mathlib.Data.List.Sort
import Wedb.Json.Path

/-!
# Walks along a path

Nodes are changed and deleted by walks over the segments of a path. A walk gives the node
that it leaves and how many nodes it met; it has no result where it runs out of fuel or
where an index leaves the machine word.
-/

namespace Wedb.Json

/-! ## Members -/

def getKey (pairs : List (Text × Json)) (k : Text) : Option Json :=
  (pairs.find? fun pair => pair.1 = k).map Prod.snd

def removeKey (pairs : List (Text × Json)) (k : Text) : List (Text × Json) :=
  pairs.eraseP fun pair => pair.1 = k

def insertKey : List (Text × Json) → Text → Json → List (Text × Json)
  | [], k, v => [(k, v)]
  | pair :: pairs, k, v => if pair.1 = k then (k, v) :: pairs else pair :: insertKey pairs k v

section

variable {pairs : List (Text × Json)} {k k' : Text} {v : Json}

theorem getKey_cons (pair : Text × Json) (pairs : List (Text × Json)) (k : Text) :
    getKey (pair :: pairs) k = if pair.1 = k then some pair.2 else getKey pairs k := by
  rw [getKey, List.find?_cons]
  split_ifs with h
  · simp [h]
  · simp [h, getKey]

theorem getKey_eq_none_iff : getKey pairs k = none ↔ k ∉ pairs.map Prod.fst := by
  induction pairs with
  | nil => exact iff_of_true rfl List.not_mem_nil
  | cons pair pairs ih =>
    rw [getKey_cons, List.map_cons, List.mem_cons]
    split_ifs with h
    · simp [h]
    · rw [ih, not_or, and_iff_right (Ne.symm h)]

theorem getKey_insertKey :
    getKey (insertKey pairs k v) k' = if k = k' then some v else getKey pairs k' := by
  induction pairs with
  | nil =>
    rw [insertKey, getKey_cons]
  | cons pair pairs ih =>
    rw [insertKey]
    split_ifs with h h' h'
    · rw [getKey_cons, if_pos h']
    · rw [getKey_cons, getKey_cons, if_neg h', if_neg (h ▸ h')]
    · subst h'
      rw [getKey_cons, if_neg h, ih, if_pos rfl]
    · rw [getKey_cons, getKey_cons, ih, if_neg h']

theorem map_fst_insertKey : (insertKey pairs k v).map Prod.fst =
    if k ∈ pairs.map Prod.fst then pairs.map Prod.fst else pairs.map Prod.fst ++ [k] := by
  induction pairs with
  | nil => rfl
  | cons pair pairs ih =>
    rw [insertKey]
    by_cases h : pair.1 = k
    · rw [if_pos h, if_pos (by simp [h]), List.map_cons, List.map_cons, h]
    · rw [if_neg h, List.map_cons, ih, List.map_cons]
      by_cases hmem : k ∈ pairs.map Prod.fst
      · rw [if_pos hmem, if_pos (List.mem_cons_of_mem _ hmem)]
      · rw [if_neg hmem, if_neg (by simpa [Ne.symm h] using hmem), List.cons_append]

theorem insertKey_of_not_mem (h : k ∉ pairs.map Prod.fst) :
    insertKey pairs k v = pairs ++ [(k, v)] := by
  induction pairs with
  | nil => rfl
  | cons pair pairs ih =>
    obtain ⟨hne, hmem⟩ := not_or.mp (mt List.mem_cons.mpr h)
    rw [insertKey, if_neg (Ne.symm hne), ih hmem, List.cons_append]

theorem insertKey_self (h : getKey pairs k = some v) : insertKey pairs k v = pairs := by
  induction pairs with
  | nil => cases h
  | cons pair pairs ih =>
    rw [getKey_cons] at h
    rw [insertKey]
    split_ifs at h ⊢ with hk
    · rw [← Option.some.inj h, ← hk]
    · rw [ih h]

theorem removeKey_of_not_mem (h : getKey pairs k = none) : removeKey pairs k = pairs := by
  rw [getKey_eq_none_iff] at h
  refine List.eraseP_of_forall_not fun pair hpair heq => h ?_
  exact List.mem_map.mpr ⟨pair, hpair, of_decide_eq_true heq⟩

theorem nodup_removeKey (h : (pairs.map Prod.fst).Nodup) :
    ((removeKey pairs k).map Prod.fst).Nodup :=
  h.sublist (List.eraseP_sublist.map Prod.fst)

theorem getKey_removeKey (h : (pairs.map Prod.fst).Nodup) :
    getKey (removeKey pairs k) k' = if k = k' then none else getKey pairs k' := by
  induction pairs with
  | nil => simp [removeKey, getKey]
  | cons pair pairs ih =>
    rw [List.map_cons, List.nodup_cons] at h
    by_cases hk : pair.1 = k
    · rw [removeKey, List.eraseP_cons_of_pos (by simpa using hk)]
      split_ifs with hk'
      · rw [← hk', ← hk]
        exact getKey_eq_none_iff.mpr h.1
      · rw [getKey_cons, if_neg (hk ▸ hk')]
    · have hrest := ih h.2
      rw [removeKey] at hrest ⊢
      rw [List.eraseP_cons_of_neg (by simpa using hk), getKey_cons, getKey_cons, hrest]
      split_ifs with h1 h2
      · exact absurd (h1.trans h2.symm) hk
      · rfl
      · rfl
      · rfl

theorem nodup_insertKey (h : (pairs.map Prod.fst).Nodup) :
    ((insertKey pairs k v).map Prod.fst).Nodup := by
  rw [map_fst_insertKey]
  split_ifs with hmem
  · exact h
  · exact List.Nodup.append h (List.nodup_singleton k) (by simpa using hmem)

end

def isNull : Json → Bool
  | null => true
  | _ => false

def asBool : Json → Option Bool
  | bool b => some b
  | _ => none

section Filter

variable (api : ValueApi)

def filterNode : Json → List Text → Option Json
  | cur, [] => some cur
  | object pairs, seg :: path => (getKey pairs seg).bind fun next => filterNode next path
  | _, _ :: _ => none

def numbersOr (a b : Json) (onNumbers : F64 → F64 → Bool) (otherwise : Bool) : Bool :=
  match api.asF64 a, api.asF64 b with
  | some x, some y => onNumbers x y
  | _, _ => otherwise

def evalFilterExpr (val : Json) (filter : FilterExpr) : Bool :=
  match filterNode val filter.path with
  | none =>
    match filter.op with
    | .notExists => true
    | _ => false
  | some cur =>
    match filter.op with
    | .exists => !cur.isNull && cur.asBool.getD true
    | .notExists => cur.isNull || !cur.asBool.getD true
    | .eq target => numbersOr api cur target F64.eq (api.valueEq cur target)
    | .ne target => numbersOr api cur target (fun x y => !x.eq y) (!api.valueEq cur target)
    | .lt target => (api.asF64 cur).any fun v => v.lt target
    | .le target => (api.asF64 cur).any fun v => v.le target
    | .gt target => (api.asF64 cur).any fun v => target.lt v
    | .ge target => (api.asF64 cur).any fun v => target.le v

end Filter

/-! ## Visits of children -/

def arrayLen (xs : List Json) : Option ArrayLen :=
  if h : xs.length < 2 ^ 63 then some ⟨xs.length, h⟩ else none

def targetIndices (xs : List Json) (slices : List SliceIndex) : Option (List ℕ) :=
  (arrayLen xs).bind fun len =>
    slices.foldlM (fun out item => SliceIndex.resolveSliceIndices len item out) []

def targetIndex (xs : List Json) (idx : Int64) : Option (Option ℕ) :=
  (arrayLen xs).bind fun len => SliceIndex.normalizeIndex len idx.toInt

section Visits

variable (visit : Json → Option (Json × ℕ))

def visitAll : List Json → Option (List Json × ℕ)
  | [] => some ([], 0)
  | x :: xs => (visit x).bind fun (x, n) => (visitAll xs).map fun (xs, m) => (x :: xs, n + m)

def visitMembers : List (Text × Json) → Option (List (Text × Json) × ℕ)
  | [] => some ([], 0)
  | (k, x) :: pairs => (visit x).bind fun (x, n) =>
      (visitMembers pairs).map fun (pairs, m) => ((k, x) :: pairs, n + m)

def visitAt (xs : List Json) (i : ℕ) : Option (List Json × ℕ) :=
  match xs[i]? with
  | some x => (visit x).map fun (x, n) => (xs.set i x, n)
  | none => some (xs, 0)

def visitKey (pairs : List (Text × Json)) (k : Text) : Option (List (Text × Json) × ℕ) :=
  match getKey pairs k with
  | some x => (visit x).map fun (x, n) => (insertKey pairs k x, n)
  | none => some (pairs, 0)

end Visits

def visitEach {α β : Type} (visit : α → β → Option (α × ℕ)) (start : α) (targets : List β) :
    Option (α × ℕ) :=
  targets.foldlM (fun (node, n) target => (visit node target).map fun (node, m) => (node, n + m))
    (start, 0)

def mapNode {α : Type} (make : α → Json) (result : Option (α × ℕ)) : Option (Json × ℕ) :=
  result.map fun (inner, n) => (make inner, n)

def visitSegment (api : ValueApi) (visit : Json → Option (Json × ℕ)) (node : Json) :
    PathSegment → Option (Json × ℕ)
  | .field name =>
    match node with
    | object pairs => mapNode object (visitKey visit pairs name)
    | node => some (node, 0)
  | .multiField names =>
    match node with
    | object pairs => mapNode object (visitEach (visitKey visit) pairs names)
    | node => some (node, 0)
  | .index idx =>
    match node with
    | array xs => (targetIndex xs idx).bind fun actual =>
        mapNode array (visitEach (visitAt visit) xs actual.toList)
    | node => some (node, 0)
  | .multiIndex slices =>
    match node with
    | array xs => (targetIndices xs slices).bind fun indices =>
        mapNode array (visitEach (visitAt visit) xs indices)
    | node => some (node, 0)
  | .wildcard =>
    match node with
    | object pairs => mapNode object (visitMembers visit pairs)
    | array xs => mapNode array (visitAll visit xs)
    | node => some (node, 0)
  | .filter expr =>
    match node with
    | array xs => mapNode array
        (visitAll (fun x => if evalFilterExpr api x expr then visit x else some (x, 0)) xs)
    | node => some (node, 0)
  | .root => some (node, 0)
  | .recursive _ => some (node, 0)

/-! ## Changing nodes -/

section Mutate

variable (api : ValueApi) (f : Json → Json)

def mutateRecursive : ℕ → Json → List PathSegment → Option (Json × ℕ)
  | 0, _, _ => none
  | _ + 1, node, [] => some (f node, 1)
  | fuel + 1, node, .root :: tail => mutateRecursive fuel node tail
  | fuel + 1, node, .recursive target :: tail =>
    (mutateRecursive fuel node (target :: tail)).bind fun (node, n) =>
      (visitSegment api (fun child => mutateRecursive fuel child (.recursive target :: tail)) node
        .wildcard).map fun (node, m) => (node, n + m)
  | fuel + 1, node, segment :: tail =>
    visitSegment api (fun child => mutateRecursive fuel child tail) node segment

def mutatePathValues (fuel : ℕ) (root : Json) (path : Text) : Except Error (Option (Json × ℕ)) :=
  let s := JsonPath.trim path
  if JsonPath.isRootPath s then .ok (some (f root, 1))
  else
    match JsonPath.extractSimpleField s with
    | some name => .ok (visitSegment api (fun v => some (f v, 1)) root (.field name))
    | none => (JsonPath.parseJsonPath api path).map fun segments =>
        mutateRecursive api f fuel root segments

end Mutate

/-! ## Deleting nodes -/

section Delete

variable (api : ValueApi)

def removeIndices (xs : List Json) (indices : List ℕ) : List Json × ℕ :=
  indices.foldr (fun idx (xs, n) => if idx < xs.length then (xs.eraseIdx idx, n + 1) else (xs, n))
    (xs, 0)

def deleteSegment (node : Json) : PathSegment → Option (Json × ℕ)
  | .field name =>
    match node with
    | object pairs =>
      some (object (removeKey pairs name), if (getKey pairs name).isSome then 1 else 0)
    | node => some (node, 0)
  | .multiField names =>
    match node with
    | object pairs => mapNode object (visitEach (fun pairs name =>
        some (removeKey pairs name, if (getKey pairs name).isSome then 1 else 0)) pairs names)
    | node => some (node, 0)
  | .index idx =>
    match node with
    | array xs => (targetIndex xs idx).map fun actual =>
        (array (removeIndices xs actual.toList).1, (removeIndices xs actual.toList).2)
    | node => some (node, 0)
  | .multiIndex slices =>
    match node with
    | array xs => (targetIndices xs slices).map fun indices =>
        let sorted := (indices.insertionSort (· ≤ ·)).dedup
        (array (removeIndices xs sorted).1, (removeIndices xs sorted).2)
    | node => some (node, 0)
  | .wildcard =>
    match node with
    | object pairs => some (object [], pairs.length)
    | array xs => some (array [], xs.length)
    | node => some (node, 0)
  | .filter expr =>
    match node with
    | array xs =>
      let kept := xs.filter fun x => !evalFilterExpr api x expr
      some (array kept, xs.length - kept.length)
    | node => some (node, 0)
  | .root => some (node, 0)
  | .recursive _ => some (node, 0)

def knownToDescent : PathSegment → Bool
  | .field _ => true
  | .index _ => true
  | .wildcard => true
  | .filter _ => true
  | _ => false

def deleteVisit (visit : Json → Option (Json × ℕ)) (node : Json) : PathSegment → Option (Json × ℕ)
  | .multiIndex slices =>
    match node with
    | array xs => (targetIndices xs slices).bind fun indices =>
        mapNode array (visitEach (visitAt visit) xs (indices.insertionSort (· ≤ ·)).dedup)
    | node => some (node, 0)
  | segment => visitSegment api visit node segment

def deleteRecursive : ℕ → Json → List PathSegment → Option (Json × ℕ)
  | 0, _, _ => none
  | _ + 1, node, [] => some (node, 0)
  | fuel + 1, node, .recursive target :: tail =>
    (if knownToDescent target then deleteRecursive fuel node (target :: tail)
      else some (node, 0)).bind fun (node, n) =>
        (visitSegment api (fun child => deleteRecursive fuel child (.recursive target :: tail)) node
          .wildcard).map fun (node, m) => (node, n + m)
  | _ + 1, node, [segment] => deleteSegment api node segment
  | fuel + 1, node, segment :: tail =>
    deleteVisit api (fun child => deleteRecursive fuel child tail) node segment

def dropRoot : List PathSegment → List PathSegment
  | .root :: segments => segments
  | segments => segments

def deletePathValues (fuel : ℕ) (root : Json) (path : Text) : Except Error (Option (Json × ℕ)) :=
  let s := JsonPath.trim path
  if JsonPath.isRootPath s then .ok (some (root, 1))
  else
    match JsonPath.extractSimpleField s with
    | some name => .ok (deleteSegment api root (.field name))
    | none => (JsonPath.parseJsonPath api path).map fun segments =>
        match segments with
        | [] => some (root, 1)
        | [.root] => some (root, 1)
        | segments => deleteRecursive api fuel root (dropRoot segments)

end Delete

/-! ## Setting a path -/

section Set

variable (api : ValueApi)

def errParentPathDoesNotExist : Error :=
  .invalidData "Target path does not exist and parent cannot be found"

def errTargetParentNotObject : Error :=
  .invalidData "Target parent is not a JSON object to insert into"

def insertLast (newVal : Json) (node : Json) : PathSegment → Except Error (Option Json)
  | .field name =>
    match node with
    | object pairs => .ok (some (object (insertKey pairs name newVal)))
    | _ => .error errTargetParentNotObject
  | .index idx =>
    match node with
    | array xs =>
      if idx.toInt = xs.length then .ok (some (array (xs ++ [newVal])))
      else
        match targetIndex xs idx with
        | none => .ok none
        | some (some actual) => .ok (some (array (xs.set actual newVal)))
        | some none => .error errParentPathDoesNotExist
    | _ => .error errParentPathDoesNotExist
  | _ => .error errParentPathDoesNotExist

def insertBelow (newVal : Json) : List PathSegment → PathSegment → Json → Except Error (Option Json)
  | [], last, node => insertLast newVal node last
  | .field name :: parents, last, object pairs =>
    match getKey pairs name with
    | some next => (insertBelow newVal parents last next).map fun result =>
        result.map fun next => object (insertKey pairs name next)
    | none => .error errParentPathDoesNotExist
  | .index idx :: parents, last, array xs =>
    match targetIndex xs idx with
    | none => .ok none
    | some none => .error errParentPathDoesNotExist
    | some (some actual) =>
      match xs[actual]? with
      | some next => (insertBelow newVal parents last next).map fun result =>
          result.map fun next => array (xs.set actual next)
      | none => .error errParentPathDoesNotExist
  | _ :: _, _, _ => .error errParentPathDoesNotExist

def isRootSegment : PathSegment → Bool
  | .root => true
  | _ => false

def jsonSetPath (fuel : ℕ) (root : Json) (pathStr : Text) (newVal : Json) :
    Except Error (Option Json) :=
  let path := JsonPath.trim pathStr
  if JsonPath.isRootPath path then .ok (some newVal)
  else
    (mutatePathValues api (fun _ => newVal) fuel root path).bind fun mutated =>
      match mutated with
      | none => .ok none
      | some (node, n) =>
        if 0 < n then .ok (some node)
        else
          match JsonPath.extractSimpleField path with
          | some name => insertLast newVal node (.field name)
          | none => (JsonPath.parseJsonPath api path).bind fun segments =>
            match (segments.filter fun seg => !isRootSegment seg).reverse with
            | [] => .ok (some newVal)
            | last :: parents => insertBelow newVal parents.reverse last node

end Set

end Wedb.Json
