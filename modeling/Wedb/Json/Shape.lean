import Wedb.Json.Places

/-!
# The shape of a document

Without its numbers a document keeps its shape under every change of numbers. A walk along a
path without filters meets the same places in all documents of one shape, and it ends for every
path whose indices are found in the arrays of the document.
-/

namespace Wedb.Json

mutual

def shape : Json → Json
  | number _ => null
  | array xs => array (elementShapes xs)
  | object pairs => object (memberShapes pairs)
  | node => node

def elementShapes : List Json → List Json
  | [] => []
  | x :: xs => shape x :: elementShapes xs

def memberShapes : List (Text × Json) → List (Text × Json)
  | [] => []
  | (k, x) :: pairs => (k, shape x) :: memberShapes pairs

end

mutual

def depth : Json → ℕ
  | array xs => elementsDepth xs + 1
  | object pairs => membersDepth pairs + 1
  | _ => 0

def elementsDepth : List Json → ℕ
  | [] => 0
  | x :: xs => max (depth x) (elementsDepth xs)

def membersDepth : List (Text × Json) → ℕ
  | [] => 0
  | (_, x) :: pairs => max (depth x) (membersDepth pairs)

end

section
variable {node x y : Json} {i : ℕ} {place : Place}

mutual

theorem depth_shape : ∀ node : Json, depth (shape node) = depth node
  | null => by rw [shape]; all_goals simp
  | bool _ => by rw [shape]; all_goals simp
  | number _ => by rw [shape, depth, depth]; all_goals simp
  | string _ => by rw [shape]; all_goals simp
  | array xs => by rw [shape, depth, depth, elementsDepth_shapes xs]
  | object pairs => by rw [shape, depth, depth, membersDepth_shapes pairs]

theorem elementsDepth_shapes : ∀ xs : List Json, elementsDepth (elementShapes xs) = elementsDepth xs
  | [] => by rw [elementShapes]
  | x :: xs => by
    rw [elementShapes, elementsDepth, elementsDepth, depth_shape x, elementsDepth_shapes xs]

theorem membersDepth_shapes :
    ∀ pairs : List (Text × Json), membersDepth (memberShapes pairs) = membersDepth pairs
  | [] => by rw [memberShapes]
  | (k, x) :: pairs => by
    rw [memberShapes, membersDepth, membersDepth, depth_shape x, membersDepth_shapes pairs]

end

end

/-! ## Walks without filters -/

def innermost : PathSegment → PathSegment
  | .recursive target => innermost target
  | segment => segment

def pathSize : List PathSegment → ℕ
  | [] => 0
  | segment :: tail => segmentSize segment + pathSize tail
where
  segmentSize : PathSegment → ℕ
    | .recursive target => segmentSize target + 1
    | _ => 1

section
variable {api : ValueApi} {node node' : Json}

variable {σ τ : Type} {f : Place → σ → Json → σ × Json} {g : Place → τ → Json → τ × Json}
  {met : σ → List Place} {met' : τ → List Place}

/-- Every index of the path is found in the machine word for every array of the document. -/
def Resolves (api : ValueApi) (segments : List PathSegment) (node : Json) : Prop :=
  ∀ place xs, nodeAt node place = some (array xs) →
    ∀ segment ∈ segments, (targets api (array xs) (innermost segment)).isSome = true

theorem Resolves.child {segments : List PathSegment} (h : Resolves api segments node) {i : ℕ}
    {x : Json} (hx : child node i = some x) : Resolves api segments x := by
  intro place xs hxs
  refine h (i :: place) xs ?_
  rw [nodeAt, hx]
  exact hxs

end

end Wedb.Json
