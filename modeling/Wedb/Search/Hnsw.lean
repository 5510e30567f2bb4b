import Mathlib.Data.List.Sort
import Wedb.Engine.Error
import Wedb.Ordered.Float64
import Wedb.Ordered.Heap
import Wedb.Ordered.SortedMap

/-!
# The in-memory vector graph

Nodes carry a vector and one list of neighbours per level up to their own. An
insertion walks greedily down to the level of the new node, searches each level
below for candidates, links the new node with the nearest of them in both directions
and prunes the lists that have grown too long. A deletion takes the node out of the
lists of its own neighbours and chooses a new entry point where it was the entry.

Distances between vectors are left open, and so are the random levels, the order
in which hash maps are walked and the order of equal items in heaps.
-/

namespace Wedb

inductive DistanceMetric
  | l2
  | ip
  | cosine
  deriving DecidableEq, Repr

/-- A node with its distance to the vector that is searched for. -/
structure Candidate where
  dist : F64
  nodeId : ℕ
  deriving DecidableEq, Repr

structure HnswNode where
  docId : Bytes
  nodeId : ℕ
  vector : List F64
  level : ℕ
  neighbors : List (List ℕ)
  deriving DecidableEq, Repr

def HnswNode.new (docId : Bytes) (nodeId : ℕ) (vector : List F64) (level : ℕ) : HnswNode :=
  ⟨docId, nodeId, vector, level, .replicate (level + 1) []⟩

/-- What the graph is run with: the arithmetic of distances, the walks over hash
maps and the two heaps. -/
structure HnswEnv where
  distance : DistanceMetric → List F64 → List F64 → F64
  walk : SortedMap ℕ HnswNode → List (ℕ × HnswNode)
  walk_perm : ∀ nodes, (walk nodes).Perm nodes.entries
  nearest : BinaryHeap fun c : Candidate => -c.dist.totalOrder
  furthest : BinaryHeap fun c : Candidate => c.dist.totalOrder

structure HnswGraph where
  dim : ℕ
  distanceMetric : DistanceMetric
  m : ℕ
  efConstruction : ℕ
  maxLevel : ℕ
  entryPoint : Option ℕ
  nodes : SortedMap ℕ HnswNode
  docToNode : SortedMap Bytes ℕ
  nextNodeId : ℕ

def computeVectorDistance (distance : List F64 → List F64 → F64) (v1 v2 : List F64) :
    Except Error F64 :=
  let len1 := v1.length
  let len2 := v2.length
  if len1 ≠ len2 then .error (.invalidData s!"vector dimension mismatch: {len1} vs {len2}")
  else if v1.isEmpty then .error (.invalidData "empty vector is invalid")
  else .ok (distance v1 v2)

namespace HnswGraph

def new (dim : ℕ) (distanceMetric : DistanceMetric) (m efConstruction : ℕ) : HnswGraph :=
  ⟨dim, distanceMetric, max m 2, max efConstruction 1, 0, none, ∅, ∅, 1⟩

def mMax (g : HnswGraph) (lvl : ℕ) : ℕ := if lvl = 0 then g.m * 2 else g.m

def setNeighbors (g : HnswGraph) (id lvl : ℕ) (ns : List ℕ) : HnswGraph :=
  match g.nodes.get id with
  | some node => { g with nodes := g.nodes.insert id { node with neighbors := node.neighbors.set lvl ns } }
  | none => g

def neighborsAt (g : HnswGraph) (id lvl : ℕ) : Option (List ℕ) :=
  (g.nodes.get id).bind fun node => node.neighbors[lvl]?

section
variable (env : HnswEnv) (g : HnswGraph)

def dist (v1 v2 : List F64) : Except Error F64 :=
  computeVectorDistance (env.distance g.distanceMetric) v1 v2

/-! ## The walk down to the level of a new node -/

def closerStep (vector : List F64) (st : Option ℕ × F64) (neighborId : ℕ) :
    Except Error (Option ℕ × F64) :=
  match g.nodes.get neighborId with
  | some neighborNode => do
    let d ← g.dist env vector neighborNode.vector
    if d.lt st.2 then return (some neighborId, d) else return st
  | none => .ok st

def greedy (vector : List F64) (lvl : ℕ) : ℕ → ℕ → Except Error ℕ
  | 0, currEp => .ok currEp
  | fuel + 1, currEp =>
    match g.nodes.get currEp with
    | none => .ok currEp
    | some epNode => do
      let currDist ← g.dist env vector epNode.vector
      let (closestEp, _) ←
        (epNode.neighbors.getD lvl []).foldlM (g.closerStep env vector) (none, currDist)
      match closestEp with
      | some nextEp => greedy vector lvl fuel nextEp
      | none => return currEp

def descend (vector : List F64) (nodeLevel currEp : ℕ) : Except Error ℕ :=
  (List.range' (nodeLevel + 1) (g.maxLevel - nodeLevel)).reverse.foldlM
    (fun ep lvl => g.greedy env vector lvl g.nodes.length ep) currEp

/-! ## The search of a level -/

/-- What the search of a level carries: the nodes seen, those to explore and the
best found. -/
structure Beam where
  visited : List ℕ
  explore : List Candidate
  result : List Candidate

def Beam.push (b : Beam) (cand : Candidate) : Beam :=
  { b with explore := env.nearest.push b.explore cand, result := env.furthest.push b.result cand }

def enterStep (query : List F64) (b : Beam) (ep : ℕ) : Except Error Beam :=
  match g.nodes.get ep with
  | some epNode => do
    let dist ← g.dist env query epNode.vector
    return { b.push env ⟨dist, ep⟩ with visited := ep :: b.visited }
  | none => .ok b

def Beam.trim (b : Beam) (ef : ℕ) : Beam :=
  if b.result.length > ef then
    match env.furthest.pop b.result with
    | some (_, rest) => { b with result := rest }
    | none => b
  else b

def visitStep (query : List F64) (ef : ℕ) (b : Beam) (neighborId : ℕ) : Except Error Beam :=
  if neighborId ∈ b.visited then .ok b
  else
    let b := { b with visited := neighborId :: b.visited }
    match g.nodes.get neighborId with
    | some neighborNode => do
      let dist ← g.dist env query neighborNode.vector
      let furthestDist := ((env.furthest.peek b.result).map Candidate.dist).getD .infinity
      if b.result.length < ef ∨ dist.lt furthestDist then
        return (b.push env ⟨dist, neighborId⟩).trim env ef
      else return b
    | none => .ok b

def exploreLoop (query : List F64) (ef level : ℕ) : ℕ → Beam → Except Error Beam
  | 0, b => .ok b
  | fuel + 1, b =>
    match env.nearest.pop b.explore with
    | none => .ok b
    | some (curr, rest) =>
      let b := { b with explore := rest }
      if (env.furthest.peek b.result).any fun furthest => furthest.dist.lt curr.dist then .ok b
      else do
        let b ← ((g.neighborsAt curr.nodeId level).getD []).foldlM (g.visitStep env query ef) b
        exploreLoop query ef level fuel b

def sortCandidates (cands : List Candidate) : List Candidate :=
  cands.insertionSort fun a b => a.dist.totalOrder ≤ b.dist.totalOrder

def searchLayerInternal (query : List F64) (entryPoints : List ℕ) (ef level : ℕ) :
    Except Error (List Candidate) := do
  let b ← entryPoints.foldlM (g.enterStep env query) ⟨[], [], []⟩
  let b ← g.exploreLoop env query ef level (entryPoints.length + g.nodes.length) b
  return sortCandidates b.result

def selectNeighbors (candidates : List Candidate) (mMax : ℕ) : List ℕ :=
  (candidates.take mMax).map Candidate.nodeId

def scoreOf (baseVec : List F64) (id : ℕ) : Option Candidate :=
  (g.nodes.get id).bind fun node =>
    match g.dist env baseVec node.vector with
    | .ok dist => some ⟨dist, id⟩
    | .error _ => none

def selectNeighborsFromIds (baseVec : List F64) (candidates : List ℕ) (mMax : ℕ) : List ℕ :=
  selectNeighbors (sortCandidates (candidates.filterMap (g.scoreOf env baseVec))) mMax

/-! ## Linking -/

def link (nodeId lvl : ℕ) (g : HnswGraph) (neighborId : ℕ) : HnswGraph :=
  match g.nodes.get neighborId with
  | none => g
  | some neighborNode =>
    match neighborNode.neighbors[lvl]? with
    | none => g
    | some ns =>
      let ns := if nodeId ∈ ns then ns else ns ++ [nodeId]
      let g := g.setNeighbors neighborId lvl ns
      if ns.length > g.mMax lvl then
        g.setNeighbors neighborId lvl
          (g.selectNeighborsFromIds env neighborNode.vector ns (g.mMax lvl))
      else g

def connect (nodeId lvl : ℕ) (candidates : List Candidate) : HnswGraph :=
  let selected := selectNeighbors candidates (g.mMax lvl)
  selected.foldl (link env nodeId lvl) (g.setNeighbors nodeId lvl selected)

def connectLevels (vector : List F64) (nodeId : ℕ) : ℕ → List ℕ → HnswGraph →
    Except Error Unit × HnswGraph
  | 0, _, g => (.ok (), g)
  | lvl + 1, currEps, g =>
    match g.searchLayerInternal env vector currEps g.efConstruction lvl with
    | .error err => (.error err, g)
    | .ok candidates =>
      connectLevels vector nodeId lvl (candidates.map Candidate.nodeId)
        (g.connect env nodeId lvl candidates)

/-! ## Deletions -/

def unlink (nodeId lvl : ℕ) (g : HnswGraph) (neighborId : ℕ) : HnswGraph :=
  match g.neighborsAt neighborId lvl with
  | some ns => g.setNeighbors neighborId lvl (ns.filter (· ≠ nodeId))
  | none => g

def unlinkAll (nodeId : ℕ) (removed : HnswNode) : HnswGraph :=
  removed.neighbors.zipIdx.foldl (fun g x => x.1.foldl (unlink nodeId x.2) g) g

def bestStep (st : Option ℕ × ℕ) (x : ℕ × HnswNode) : Option ℕ × ℕ :=
  if st.1.isNone ∨ x.2.level ≥ st.2 then (some x.1, x.2.level) else st

def chooseEntry : HnswGraph :=
  if g.nodes.isEmpty then { g with entryPoint := none, maxLevel := 0 }
  else
    let best := (env.walk g.nodes).foldl bestStep (none, 0)
    { g with entryPoint := best.1, maxLevel := best.2 }

def delete (docId : Bytes) : Bool × HnswGraph :=
  match g.docToNode.get docId with
  | none => (false, g)
  | some nodeId =>
    let g := { g with docToNode := g.docToNode.erase docId }
    match g.nodes.get nodeId with
    | none => (false, g)
    | some removed =>
      let g := { g with nodes := g.nodes.erase nodeId }.unlinkAll nodeId removed
      (true, if g.entryPoint = some nodeId then g.chooseEntry env else g)

/-! ## Insertions -/

def addNode (docId : Bytes) (vector : List F64) (nodeLevel : ℕ) : HnswGraph :=
  { g with
    nodes := g.nodes.insert g.nextNodeId (.new docId g.nextNodeId vector nodeLevel)
    docToNode := g.docToNode.insert docId g.nextNodeId
    nextNodeId := g.nextNodeId + 1 }

def joinNode (vector : List F64) (nodeId nodeLevel entry : ℕ) : Except Error ℕ × HnswGraph :=
  match g.descend env vector nodeLevel entry with
  | .error err => (.error err, g)
  | .ok currEp =>
    match connectLevels env vector nodeId (min nodeLevel g.maxLevel + 1) [currEp] g with
    | (.error err, g) => (.error err, g)
    | (.ok (), g) =>
      (.ok nodeId,
        if nodeLevel > g.maxLevel then { g with maxLevel := nodeLevel, entryPoint := some nodeId }
        else g)

/-- `nodeLevel` is the random level of the new node. -/
def insert (nodeLevel : ℕ) (docId : Bytes) (vector : List F64) : Except Error ℕ × HnswGraph :=
  let dim := g.dim
  let len := vector.length
  if dim ≠ 0 ∧ len ≠ dim then
    (.error (.invalidData s!"vector dimension mismatch: expected {dim}, got {len}"), g)
  else
    let g := if g.dim = 0 then { g with dim := vector.length } else g
    let g := if g.docToNode.contains docId then (g.delete env docId).2 else g
    let nodeId := g.nextNodeId
    let g := g.addNode docId vector nodeLevel
    match g.entryPoint with
    | none => (.ok nodeId, { g with entryPoint := some nodeId, maxLevel := nodeLevel })
    | some entry => g.joinNode env vector nodeId nodeLevel entry

def clear : HnswGraph :=
  { g with nodes := ∅, docToNode := ∅, entryPoint := none, maxLevel := 0, nextNodeId := 1 }

end

end HnswGraph

end Wedb
