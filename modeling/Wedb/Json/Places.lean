import Wedb.Json.Eval

/-!
# Walks by place

A place is the way down to a node: which child to take, from the root on. A walk along a path
meets one place after the other, and what it does to the value there may depend on what it has
met before. A visit changes neither the keys nor the number of the children around it, so the
children that a segment selects are found before they are visited.
-/

namespace Wedb.Json

abbrev Place := List ℕ

def child : Json → ℕ → Option Json
  | array xs, i => xs[i]?
  | object pairs, i => (pairs[i]?).map Prod.snd
  | _, _ => none

def putChild (node : Json) (i : ℕ) (x : Json) : Json :=
  match node with
  | array xs => array (xs.set i x)
  | object pairs => object (pairs.modify i fun pair => (pair.1, x))
  | node => node

def nodeAt : Json → Place → Option Json
  | node, [] => some node
  | node, i :: place => (child node i).bind fun x => nodeAt x place

def putAt : Json → Place → Json → Json
  | _, [], x => x
  | node, i :: place, x =>
    match child node i with
    | some y => putChild node i (putAt y place x)
    | none => node

section
variable {node x y : Json} {i j : ℕ} {place other : Place}

theorem child_putChild_self (h : child node i = some y) : child (putChild node i x) i = some x := by
  cases node with
  | array xs =>
    have hi : i < xs.length := (List.getElem?_eq_some_iff.mp h).1
    simp [putChild, child, hi]
  | object pairs =>
    rw [child, Option.map_eq_some_iff] at h
    obtain ⟨pair, hpair, -⟩ := h
    simp [putChild, child, hpair]
  | _ => cases h

theorem child_putChild_ne (h : i ≠ j) : child (putChild node i x) j = child node j := by
  cases node with
  | array xs => simp [putChild, child, List.getElem?_set_ne h]
  | object pairs => simp [putChild, child, h]
  | _ => rfl

def numberAt (node : Json) (place : Place) : Option JsonNumber := (nodeAt node place).bind asNumber

variable {n m : JsonNumber}

theorem asNumber_putChild (h : child node i = some y) : asNumber (putChild node i x) = none := by
  cases node with
  | array xs => rfl
  | object pairs => rfl
  | _ => cases h

theorem asNumber_of_child (h : child node i = some y) : asNumber node = none := by
  cases node with
  | array xs => rfl
  | object pairs => rfl
  | _ => cases h

theorem numberAt_putAt (h : numberAt node place = some n) :
    numberAt (putAt node place (number m)) other =
      if other = place then some m else numberAt node other := by
  induction place generalizing node other with
  | nil =>
    cases node with
    | number k =>
      cases other with
      | nil => rfl
      | cons j other => rfl
    | _ => cases h
  | cons i place ih =>
    rw [numberAt, nodeAt, Option.bind_assoc, Option.bind_eq_some_iff] at h
    obtain ⟨y, hchild, hnumber⟩ := h
    rw [putAt, hchild]
    cases other with
    | nil =>
      rw [if_neg (List.cons_ne_nil i place).symm]
      exact (asNumber_putChild hchild).trans (asNumber_of_child hchild).symm
    | cons j other =>
      rw [numberAt, nodeAt, numberAt, nodeAt, Option.bind_assoc, Option.bind_assoc]
      by_cases hij : i = j
      · subst hij
        simp only [child_putChild_self hchild, hchild, Option.bind_some, List.cons.injEq, true_and]
        exact ih hnumber
      · rw [child_putChild_ne hij, if_neg (by simp [Ne.symm hij])]

end

/-! ## Walks -/

def targets (api : ValueApi) (node : Json) : PathSegment → Option (List ℕ)
  | .field name =>
    match node with
    | object pairs => some (pairs.findIdx? fun pair => pair.1 = name).toList
    | _ => some []
  | .multiField names =>
    match node with
    | object pairs => some (names.filterMap fun name => pairs.findIdx? fun pair => pair.1 = name)
    | _ => some []
  | .index idx =>
    match node with
    | array xs => (targetIndex xs idx).map Option.toList
    | _ => some []
  | .multiIndex slices =>
    match node with
    | array xs => targetIndices xs slices
    | _ => some []
  | .wildcard =>
    match node with
    | object pairs => some (List.range pairs.length)
    | array xs => some (List.range xs.length)
    | _ => some []
  | .filter expr =>
    match node with
    | array xs => some ((List.range xs.length).filter fun i =>
        (xs[i]?).any fun x => evalFilterExpr api x expr)
    | _ => some []
  | .root => some []
  | .recursive _ => some []

section
variable {σ : Type}

def walkEach (visit : Place → σ → Json → Option (σ × Json)) (place : Place) :
    σ → Json → List ℕ → Option (σ × Json)
  | st, node, [] => some (st, node)
  | st, node, i :: is =>
    match child node i with
    | some x => (visit (place ++ [i]) st x).bind fun (st, x) =>
        walkEach visit place st (putChild node i x) is
    | none => walkEach visit place st node is

section
variable (api : ValueApi) (f : Place → σ → Json → σ × Json)

def walkSegments : ℕ → Place → σ → Json → List PathSegment → Option (σ × Json)
  | 0, _, _, _, _ => none
  | _ + 1, place, st, node, [] => some (f place st node)
  | fuel + 1, place, st, node, .root :: tail => walkSegments fuel place st node tail
  | fuel + 1, place, st, node, .recursive target :: tail =>
    (walkSegments fuel place st node (target :: tail)).bind fun (st, node) =>
      (targets api node .wildcard).bind fun is =>
        walkEach (fun place st x => walkSegments fuel place st x (.recursive target :: tail))
          place st node is
  | fuel + 1, place, st, node, segment :: tail =>
    (targets api node segment).bind fun is =>
      walkEach (fun place st x => walkSegments fuel place st x tail) place st node is

end

/-! ## A walk is its visits -/

variable {f : Place → σ → Json → σ × Json}

def visitPlaces (f : Place → σ → Json → σ × Json) (base : Place) :
    σ → Json → List Place → Option (σ × Json)
  | st, node, [] => some (st, node)
  | st, node, place :: places => (nodeAt node place).bind fun x =>
      visitPlaces f base (f (base ++ place) st x).1 (putAt node place (f (base ++ place) st x).2) places

theorem visitPlaces_append (base : Place) (st : σ) (node : Json) (places others : List Place) :
    visitPlaces f base st node (places ++ others) =
      (visitPlaces f base st node places).bind fun (st, node) =>
        visitPlaces f base st node others := by
  induction places generalizing st node with
  | nil => rfl
  | cons place places ih =>
    rw [List.cons_append, visitPlaces, visitPlaces]
    cases nodeAt node place with
    | none => rfl
    | some x => exact ih _ _

def IsVisits (f : Place → σ → Json → σ × Json) (base : Place) (st : σ) (node : Json)
    (result : σ × Json) : Prop :=
  ∃ places, visitPlaces f base st node places = some result

theorem IsVisits.trans {base : Place} {st st' : σ} {node node' : Json} {result : σ × Json}
    (h : IsVisits f base st node (st', node')) (h' : IsVisits f base st' node' result) :
    IsVisits f base st node result := by
  obtain ⟨places, hplaces⟩ := h
  obtain ⟨others, hothers⟩ := h'
  refine ⟨places ++ others, ?_⟩
  rw [visitPlaces_append, hplaces, Option.bind_some]
  exact hothers

end

end Wedb.Json
