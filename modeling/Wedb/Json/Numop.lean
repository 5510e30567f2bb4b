import Wedb.Json.Shape
import Wedb.Ordered.Binary64

/-!
# Arithmetic on the numbers of a document

The numbers that a path selects are read as doubles, the operand is added or multiplied in
doubles, and a result without a fraction is written back as an integer where it fits. An
infinite result gives the whole command up before anything is stored.
-/

namespace Wedb

inductive JsonNumberOp
  | incr
  | mul

namespace JsonNumberOp

def apply : JsonNumberOp → ExactNum ℚ → ExactNum ℚ → ExactNum ℚ
  | incr => Binary64.add
  | mul => Binary64.mul

def exact : JsonNumberOp → ℤ → ℤ → ℤ
  | incr => (· + ·)
  | mul => (· * ·)

end JsonNumberOp

namespace JsonNumber

def asF64 : JsonNumber → ExactNum ℚ
  | unsigned n => Binary64.ofRat n.toNat
  | signed n => Binary64.ofRat n.toInt
  | float x => x.value

def ofResult : ExactNum ℚ → Option JsonNumber
  | .fin r =>
    if r = r.floor ∧ -2 ^ 63 < r ∧ r < 2 ^ 63 then some (signed (Int64.ofInt r.floor))
    else some (float (F64.ofValue r))
  | _ => none

end JsonNumber

namespace Json

/-- What the closure of the walk has gathered, and the places that the walk has met. -/
structure NumOpState where
  resValues : List Json
  isInfiniteErr : Bool
  met : List Place

def NumOpState.start : NumOpState := ⟨[], false, []⟩

def numStep (op : JsonNumberOp) (delta : ExactNum ℚ) (n : JsonNumber) : Option JsonNumber :=
  JsonNumber.ofResult (op.apply n.asF64 delta)

def numVisit (op : JsonNumberOp) (delta : ExactNum ℚ) (place : Place) (st : NumOpState)
    (node : Json) : NumOpState × Json :=
  let met := st.met ++ [place]
  if st.isInfiniteErr then ({ st with met := met }, node)
  else
    match node.asNumber with
    | none => (⟨st.resValues ++ [null], false, met⟩, node)
    | some n =>
      match numStep op delta n with
      | none => (⟨st.resValues, true, met⟩, node)
      | some m => (⟨st.resValues ++ [number m], false, met⟩, number m)

section
variable (api : ValueApi)

def pathSegments (path : Text) : Except Error (List PathSegment) :=
  let s := JsonPath.trim path
  if JsonPath.isRootPath s then .ok []
  else
    match JsonPath.extractSimpleField s with
    | some name => .ok [.field name]
    | none => JsonPath.parseJsonPath api path

def walkPath {σ : Type} (f : Place → σ → Json → σ × Json) (st : σ) (root : Json) (path : Text) :
    Except Error (Option (σ × Json)) :=
  (pathSegments api path).map fun segments =>
    walkSegments api f (depth root + pathSize segments + 1) [] st root segments

end

/-! ## What is promised -/

/-- The numbers of a document are changed one place after the other. -/
inductive NumRun (op : JsonNumberOp) (delta : ExactNum ℚ) :
    Json → List Place → List Json → Json → Prop
  | done (node : Json) : NumRun op delta node [] [] node
  | skip {node node' : Json} {place : Place} {places : List Place} {results : List Json}
      (h : numberAt node place = none) (rest : NumRun op delta node places results node') :
      NumRun op delta node (place :: places) (null :: results) node'
  | step {node node' : Json} {place : Place} {places : List Place} {results : List Json}
      {n m : JsonNumber} (h : numberAt node place = some n) (hstep : numStep op delta n = some m)
      (rest : NumRun op delta (putAt node place (number m)) places results node') :
      NumRun op delta node (place :: places) (number m :: results) node'

section
variable {op : JsonNumberOp} {delta : ExactNum ℚ} {node node' root root' : Json} {place : Place}
  {places : List Place} {results : List Json} {st st' : NumOpState} {n m : JsonNumber} {z w d : ℤ}

def visited (op : JsonNumberOp) (delta : ExactNum ℚ) : ℕ → Option JsonNumber → Option JsonNumber
  | 0, n => n
  | k + 1, n => visited op delta k (n.bind (numStep op delta))

theorem visited_none (k : ℕ) : visited op delta k none = none := by
  induction k with
  | zero => rfl
  | succ k ih => exact ih

theorem NumRun.length (h : NumRun op delta node places results node') :
    results.length = places.length := by
  induction h with
  | done node => rfl
  | skip h rest ih => rw [List.length_cons, List.length_cons, ih]
  | step h hstep rest ih => rw [List.length_cons, List.length_cons, ih]

theorem NumRun.numberAt (h : NumRun op delta node places results node') (other : Place) :
    numberAt node' other = visited op delta (places.count other) (numberAt node other) := by
  induction h with
  | done node => rfl
  | @skip node node' place places results h rest ih =>
    rw [ih]
    by_cases heq : place = other
    · subst heq
      rw [h, visited_none, visited_none]
    · rw [List.count_cons_of_ne heq]
  | @step node node' place places results n m h hstep rest ih =>
    rw [ih, numberAt_putAt h]
    by_cases heq : place = other
    · subst heq
      rw [if_pos rfl, List.count_cons_self, visited, h, Option.bind_some, hstep]
    · rw [if_neg (Ne.symm heq), List.count_cons_of_ne heq]

end

/-! ## The command -/

section
variable (api : ValueApi) (readJson : Text → Option Json) (op : JsonNumberOp) (d : ℤ)
  (doc : Option Json) (path numStr : Text)

/-- The walk of the command with an operand. -/
def Walks (delta : ExactNum ℚ) (root : Json) (st : NumOpState) (root' : Json) : Prop :=
  walkPath api (numVisit op delta) .start root path = .ok (some (st, root'))

end

section
variable {api : ValueApi} {readJson : Text → Option Json} {op : JsonNumberOp} {d : ℤ}
  {path numStr : Text} {root walked : Json} {st : NumOpState} {delta : ExactNum ℚ}

theorem Walks.unique {st' : NumOpState} {walked' : Json} (h : Walks api op path delta root st walked)
    (h' : Walks api op path delta root st' walked') : st' = st ∧ walked' = walked :=
  Prod.mk.inj (Option.some.inj (Except.ok.inj (h'.symm.trans h)))

end

/-! ## Paths and numbers that fit -/

section
variable {api : ValueApi} {op : JsonNumberOp} {d z : ℤ} {path : Text} {root walked : Json}
  {st : NumOpState} {delta : ExactNum ℚ} {segments : List PathSegment}

end

end Json

end Wedb
