import Wedb.Search.HnswForm

/-!
# Runs of the vector graph

The graph stays well formed in every run whose insertions can measure their
distances and whose removed nodes list every node that lists them. Pruning breaks the
latter: a node that drops a link is not found by the deletion of its other end.
-/

namespace Wedb

inductive HnswOp
  | insert (nodeLevel : ℕ) (docId : Bytes) (vector : List F64)
  | delete (docId : Bytes)
  | clear

namespace HnswOp

def run (env : HnswEnv) (g : HnswGraph) : HnswOp → HnswGraph
  | .insert nodeLevel docId vector => (g.insert env nodeLevel docId vector).2
  | .delete docId => (g.delete env docId).2
  | .clear => g.clear

/-- The distances are defined and the removed node lists every node that lists it. -/
def meets (g : HnswGraph) : HnswOp → Bool
  | .insert _ docId vector => g.accepts docId vector
  | .delete docId => g.isMutual docId
  | .clear => true

end HnswOp

/-- The states of the runs of a new graph whose steps are allowed. -/
inductive HnswReachable (env : HnswEnv) (allowed : HnswGraph → HnswOp → Bool) : HnswGraph → Prop
  | start (dim : ℕ) (distanceMetric : DistanceMetric) (m efConstruction : ℕ) :
    HnswReachable env allowed (.new dim distanceMetric m efConstruction)
  | step {g : HnswGraph} {op : HnswOp} : HnswReachable env allowed g → allowed g op = true →
    HnswReachable env allowed (op.run env g)

variable {env : HnswEnv} {g : HnswGraph} {allowed : HnswGraph → HnswOp → Bool}

namespace HnswGraph

theorem inv_of_empty (hnodes : g.nodes = ∅) (hdocs : g.docToNode = ∅) (hentry : g.entryPoint = none) :
    g.Inv := by
  have hnone : ∀ id node, g.nodes.get id ≠ some node := by
    intro id node hget
    rw [hnodes] at hget
    cases hget
  have hat : ∀ id lvl ns, g.neighborsAt id lvl ≠ some ns := by
    intro id lvl ns hns
    rw [neighborsAt, hnodes] at hns
    cases hns
  refine ⟨⟨fun docId id => ?_, ⟨iff_of_true hentry hnodes, fun ep hep => ?_, fun id node hget => ?_⟩,
    ⟨fun id node hget => ?_, fun id lvl ns hns => ?_⟩⟩, fun id node hget => ?_⟩
  · rw [hdocs]
    exact iff_of_false (by simp) fun h => hnone id h.choose h.choose_spec.1
  · rw [hentry] at hep
    cases hep
  · exact absurd hget (hnone id node)
  · exact absurd hget (hnone id node)
  · exact absurd hns (hat id lvl ns)
  · exact absurd hget (hnone id node)

end HnswGraph

theorem HnswOp.run_inv (h : g.Inv) {op : HnswOp} (hmeets : op.meets g = true) : (op.run env g).Inv := by
  cases op with
  | insert nodeLevel docId vector => exact (HnswGraph.insert_inv env h nodeLevel hmeets).1
  | delete docId => exact HnswGraph.delete_inv env h hmeets
  | clear => exact HnswGraph.inv_of_empty rfl rfl rfl

theorem HnswReachable.inv (hr : HnswReachable env (fun g op => op.meets g) g) : g.Inv := by
  induction hr with
  | start dim distanceMetric m efConstruction => exact HnswGraph.inv_of_empty rfl rfl rfl
  | step _ hmeets ih => exact HnswOp.run_inv ih hmeets

/-- Where no step measures undefined distances or removes a node that is listed one way,
the graph is well formed and an insertion that fails changes nothing. -/
theorem hnsw_wellFormed (hr : HnswReachable env (fun g op => op.meets g) g) :
    g.WellFormed ∧ ∀ nodeLevel docId vector err, g.accepts docId vector = true →
      (g.insert env nodeLevel docId vector).1 = .error err →
      (g.insert env nodeLevel docId vector).2 = g :=
  ⟨hr.inv.toWellFormed, fun nodeLevel _ _ err hok =>
    (HnswGraph.insert_inv env hr.inv nodeLevel hok).2 err⟩

def smallNumbers : List F64 :=
  [⟨0⟩, ⟨0x3FF0000000000000⟩, ⟨0x4000000000000000⟩, ⟨0x4008000000000000⟩, ⟨0x4010000000000000⟩,
    ⟨0x4014000000000000⟩]

def lineDistance (v w : List F64) : F64 :=
  let i := smallNumbers.idxOf (v.headD .zero)
  let j := smallNumbers.idxOf (w.headD .zero)
  smallNumbers.getD (max i j - min i j) .zero

def lineEnv : HnswEnv where
  distance _ := lineDistance
  walk nodes := nodes.entries
  walk_perm _ := .refl _
  nearest := .ofSelectMax _
  furthest := .ofSelectMax _

def insertNumber (n : ℕ) : HnswOp := .insert 0 [.ofNat n] [smallNumbers.getD n .zero]

def replayHnsw (env : HnswEnv) (allowed : HnswGraph → HnswOp → Bool) :
    HnswGraph → List HnswOp → Option HnswGraph
  | g, [] => some g
  | g, op :: ops => if allowed g op then replayHnsw env allowed (op.run env g) ops else none

theorem HnswReachable.replay {g' : HnswGraph} {ops : List HnswOp} (hr : HnswReachable env allowed g)
    (h : replayHnsw env allowed g ops = some g') : HnswReachable env allowed g' := by
  induction ops generalizing g with
  | nil =>
    cases h
    exact hr
  | cons op ops ih =>
    rw [replayHnsw] at h
    split_ifs at h with hallowed
    exact ih (hr.step hallowed) h

theorem hnsw_wellFormed_sample : ∃ g, HnswReachable lineEnv (fun g op => op.meets g) g ∧
    g.nodes.length = 1 ∧ g.WellFormed := by
  have hrun : (replayHnsw lineEnv (fun g op => op.meets g) (.new 1 .l2 2 10)
      [insertNumber 0, insertNumber 1, .delete [0]]).map (fun g => g.nodes.length) = some 1 := by
    decide +kernel
  obtain ⟨g, hg, hlen⟩ := Option.map_eq_some_iff.mp hrun
  have hreach := HnswReachable.replay (.start 1 .l2 2 10) hg
  exact ⟨g, hreach, hlen, (hnsw_wellFormed hreach).1⟩

/-- The node of one drops its link to the node of five, which still names it afterwards. -/
theorem hnsw_dangling : ¬∀ env g, HnswReachable env (fun _ _ => true) g →
    g.WellFormed ∧ ∀ nodeLevel docId vector err,
      (g.insert env nodeLevel docId vector).1 = .error err →
      (g.insert env nodeLevel docId vector).2 = g := by
  intro hclaim
  have hrun : (replayHnsw lineEnv (fun _ _ => true) (.new 1 .l2 2 10)
      [insertNumber 1, insertNumber 2, insertNumber 3, insertNumber 4, insertNumber 5, insertNumber 0,
        .delete [1]]).map (fun g => (g.neighborsAt 5 0, g.nodes.get 1)) =
      some (some [4, 3, 2, 1], none) := by
    decide +kernel
  obtain ⟨g, hg, heq⟩ := Option.map_eq_some_iff.mp hrun
  rw [Prod.mk.injEq] at heq
  obtain ⟨hat, hnone⟩ := heq
  have hwell := (hclaim lineEnv g (HnswReachable.replay (.start 1 .l2 2 10) hg)).1
  obtain ⟨node, hget, -⟩ := (hwell.linked.lists 5 0 _ hat).reaches 1 (by simp)
  rw [hnone] at hget
  cases hget

end Wedb
