import Wedb.Search.Hnsw

/-!
# What a search can find

Both walks move along lists of neighbours only, so what they find satisfies every
property that holds of the entries and is passed on along the lists of the level.
They stop by themselves: the greedy one moves to closer and closer nodes, the other
one explores each node once.
-/

namespace Wedb

/-! ## Loops that may fail -/

section
variable {α β ε : Type} {f : β → α → Except ε β} {b b' : β} {xs : List α}

theorem foldlM_cons_eq_ok {a : α} (h : (a :: xs).foldlM f b = .ok b') :
    ∃ c, f b a = .ok c ∧ xs.foldlM f c = .ok b' := by
  rw [List.foldlM_cons] at h
  cases hf : f b a with
  | error err =>
    rw [hf] at h
    cases h
  | ok c =>
    rw [hf] at h
    exact ⟨c, rfl, h⟩

theorem foldlM_keeps {P : β → Prop} (hstep : ∀ b, ∀ a ∈ xs, P b → ∀ b', f b a = .ok b' → P b')
    (hb : P b) (h : xs.foldlM f b = .ok b') : P b' := by
  induction xs generalizing b with
  | nil =>
    cases h
    exact hb
  | cons a xs ih =>
    obtain ⟨c, hc, hrest⟩ := foldlM_cons_eq_ok h
    exact ih (fun b a ha => hstep b a (List.mem_cons_of_mem _ ha))
      (hstep b a List.mem_cons_self hb c hc) hrest

theorem foldlM_isOk (hstep : ∀ b a, ∃ b', f b a = .ok b') (b : β) (xs : List α) :
    ∃ b', xs.foldlM f b = .ok b' := by
  induction xs generalizing b with
  | nil => exact ⟨b, rfl⟩
  | cons a xs ih =>
    obtain ⟨c, hc⟩ := hstep b a
    obtain ⟨b', hb'⟩ := ih c
    refine ⟨b', ?_⟩
    rw [List.foldlM_cons, hc]
    exact hb'

end

namespace HnswGraph
variable {env : HnswEnv} {g : HnswGraph} {vector query : List F64} {lvl ef fuel ep id : ℕ}
  {P : ℕ → Prop} {currDist : F64} {ns : List ℕ} {st st' : Option ℕ × F64}

/-- The property is passed on along the lists of a level. -/
def ClosedAt (g : HnswGraph) (lvl : ℕ) (P : ℕ → Prop) : Prop :=
  ∀ id ns, P id → g.neighborsAt id lvl = some ns → ∀ b ∈ ns, P b

/-- The distances from a vector to all nodes are defined. -/
def Measures (env : HnswEnv) (g : HnswGraph) (vector : List F64) : Prop :=
  ∀ id node, g.nodes.get id = some node → ∃ d, g.dist env vector node.vector = .ok d

/-! ## The greedy walk -/

/-- The closest neighbour so far and its distance, or none that is closer. -/
def CloserIn (env : HnswEnv) (g : HnswGraph) (vector : List F64) (currDist : F64) (ns : List ℕ)
    (st : Option ℕ × F64) : Prop :=
  st = (none, currDist) ∨ ∃ id ∈ ns, ∃ node, st.1 = some id ∧ g.nodes.get id = some node ∧
    g.dist env vector node.vector = .ok st.2 ∧ st.2.lt currDist = true

theorem closerStep_spec (hst : CloserIn env g vector currDist ns st) (hid : id ∈ ns)
    (h : g.closerStep env vector st id = .ok st') : CloserIn env g vector currDist ns st' := by
  rw [closerStep] at h
  cases hget : g.nodes.get id with
  | none =>
    simp only [hget, Except.ok.injEq] at h
    exact h ▸ hst
  | some node =>
    simp only [hget] at h
    cases hd : g.dist env vector node.vector with
    | error err =>
      rw [hd] at h
      cases h
    | ok d =>
      simp only [hd, bind, Except.bind] at h
      by_cases hlt : d.lt st.2 = true
      · rw [if_pos hlt] at h
        cases h
        refine Or.inr ⟨id, hid, node, rfl, hget, hd, ?_⟩
        rcases hst with rfl | ⟨-, -, -, -, -, -, hlt'⟩
        · exact hlt
        · exact F64.lt_trans hlt hlt'
      · rw [if_neg hlt] at h
        cases h
        exact hst

theorem closest_spec (h : ns.foldlM (g.closerStep env vector) (none, currDist) = .ok st) :
    CloserIn env g vector currDist ns st :=
  foldlM_keeps (fun _ _ hid hst _ hstep => closerStep_spec hst hid hstep) (Or.inl rfl) h

variable (env g vector lvl) in
/-- A step of the walk stays, or goes to a closer node that the current one lists. -/
theorem greedy_succ (ep : ℕ) :
    (∀ fuel, g.greedy env vector lvl (fuel + 1) ep = .ok ep) ∨
    (∃ err, ∀ fuel, g.greedy env vector lvl (fuel + 1) ep = .error err) ∨
    ∃ node d next node' d', g.nodes.get ep = some node ∧ g.dist env vector node.vector = .ok d ∧
      next ∈ node.neighbors.getD lvl [] ∧ g.nodes.get next = some node' ∧
      g.dist env vector node'.vector = .ok d' ∧ d'.lt d = true ∧
      ∀ fuel, g.greedy env vector lvl (fuel + 1) ep = g.greedy env vector lvl fuel next := by
  cases hget : g.nodes.get ep with
  | none =>
    refine Or.inl fun fuel => ?_
    simp only [greedy, hget]
  | some node =>
    cases hd : g.dist env vector node.vector with
    | error err =>
      refine Or.inr (Or.inl ⟨err, fun fuel => ?_⟩)
      simp only [greedy, hget, hd, bind, Except.bind]
    | ok d =>
      cases hfold : (node.neighbors.getD lvl []).foldlM (g.closerStep env vector) (none, d) with
      | error err =>
        refine Or.inr (Or.inl ⟨err, fun fuel => ?_⟩)
        simp only [greedy, hget, hd, hfold, bind, Except.bind]
      | ok st =>
        rcases closest_spec hfold with rfl | ⟨next, hnext, node', hst, hget', hd', hlt⟩
        · refine Or.inl fun fuel => ?_
          simp only [greedy, hget, hd, hfold, bind, Except.bind, pure, Except.pure]
        · refine Or.inr (Or.inr ⟨node, d, next, node', st.2, rfl, hd, hnext, hget', hd', hlt, ?_⟩)
          intro fuel
          simp only [greedy, hget, hd, hfold, bind, Except.bind, hst]

theorem mem_getD_neighbors {node : HnswNode} {b : ℕ} (hget : g.nodes.get ep = some node)
    (hb : b ∈ node.neighbors.getD lvl []) : ∃ ns, g.neighborsAt ep lvl = some ns ∧ b ∈ ns := by
  rw [neighborsAt, hget, Option.bind_some]
  rw [List.getD_eq_getElem?_getD] at hb
  cases hns : node.neighbors[lvl]? with
  | none =>
    rw [hns] at hb
    exact (List.not_mem_nil hb).elim
  | some ns =>
    rw [hns] at hb
    exact ⟨ns, rfl, hb⟩

theorem greedy_keeps (hclosed : g.ClosedAt lvl P) (hep : P ep) {r : ℕ}
    (h : g.greedy env vector lvl fuel ep = .ok r) : P r := by
  induction fuel generalizing ep with
  | zero =>
    cases h
    exact hep
  | succ fuel ih =>
    rcases greedy_succ env g vector lvl ep with
      hstay | ⟨err, herr⟩ | ⟨node, d, next, node', d', hget, -, hnext, -, -, -, hgo⟩
    · rw [hstay] at h
      cases h
      exact hep
    · rw [herr] at h
      cases h
    · obtain ⟨ns, hns, hmem⟩ := mem_getD_neighbors hget hnext
      rw [hgo] at h
      exact ih (hclosed ep ns hep hns next hmem) h

theorem closerStep_isOk (hm : g.Measures env vector) (st : Option ℕ × F64) (id : ℕ) :
    ∃ st', g.closerStep env vector st id = .ok st' := by
  rw [closerStep]
  cases hget : g.nodes.get id with
  | none => exact ⟨st, rfl⟩
  | some node =>
    obtain ⟨d, hd⟩ := hm id node hget
    simp only [hd, bind, Except.bind]
    split_ifs
    · exact ⟨_, rfl⟩
    · exact ⟨_, rfl⟩

theorem greedy_isOk (hm : g.Measures env vector) (fuel ep : ℕ) :
    ∃ r, g.greedy env vector lvl fuel ep = .ok r := by
  induction fuel generalizing ep with
  | zero => exact ⟨ep, rfl⟩
  | succ fuel ih =>
    rw [greedy]
    cases hget : g.nodes.get ep with
    | none => exact ⟨ep, rfl⟩
    | some node =>
      obtain ⟨d, hd⟩ := hm ep node hget
      obtain ⟨⟨closest, d'⟩, hfold⟩ := foldlM_isOk (closerStep_isOk hm) (none, d)
        (node.neighbors.getD lvl [])
      simp only [hd, hfold, bind, Except.bind]
      cases closest with
      | none => exact ⟨ep, rfl⟩
      | some next => exact ih next

theorem descend_keeps {nodeLevel r : ℕ} (hclosed : ∀ lvl, nodeLevel < lvl → g.ClosedAt lvl P)
    (hep : P ep) (h : g.descend env vector nodeLevel ep = .ok r) : P r := by
  refine foldlM_keeps (fun ep lvl hlvl hep r hr => ?_) hep h
  rw [List.mem_reverse, List.mem_range'_1] at hlvl
  exact greedy_keeps (hclosed lvl (by omega)) hep hr

theorem descend_isOk (hm : g.Measures env vector) (nodeLevel ep : ℕ) :
    ∃ r, g.descend env vector nodeLevel ep = .ok r :=
  foldlM_isOk (fun ep _ => greedy_isOk hm _ ep) ep _

/-! ## The search of a level -/

/-- The candidates have the property, and the results are distinct nodes that were seen. -/
structure BeamIn (P : ℕ → Prop) (b : Beam) : Prop where
  explore : ∀ c ∈ b.explore, P c.nodeId
  result : ∀ c ∈ b.result, P c.nodeId ∧ c.nodeId ∈ b.visited
  nodup : (b.result.map Candidate.nodeId).Nodup

variable {b b' : Beam} {cand : Candidate} {eps : List ℕ}

theorem BeamIn.empty (P : ℕ → Prop) : BeamIn P ⟨[], [], []⟩ :=
  ⟨fun _ hc => (List.not_mem_nil hc).elim, fun _ hc => (List.not_mem_nil hc).elim, .nil⟩

theorem BeamIn.see (h : BeamIn P b) (id : ℕ) : BeamIn P { b with visited := id :: b.visited } :=
  ⟨h.explore, fun c hc => ⟨(h.result c hc).1, List.mem_cons_of_mem _ (h.result c hc).2⟩, h.nodup⟩

variable (env cand) in
theorem BeamIn.push (h : BeamIn P b) (hP : P cand.nodeId) (hnew : cand.nodeId ∉ b.visited) :
    BeamIn P { b.push env cand with visited := cand.nodeId :: b.visited } := by
  refine ⟨fun c hc => ?_, fun c hc => ?_, ?_⟩
  · rcases (env.nearest.mem_push).mp hc with rfl | hc
    · exact hP
    · exact h.explore c hc
  · rcases (env.furthest.mem_push).mp hc with rfl | hc
    · exact ⟨hP, List.mem_cons_self⟩
    · exact ⟨(h.result c hc).1, List.mem_cons_of_mem _ (h.result c hc).2⟩
  · refine env.furthest.nodup_map_push h.nodup fun c hc heq => ?_
    exact hnew (heq ▸ (h.result c hc).2)

theorem BeamIn.trim (h : BeamIn P b) (ef : ℕ) : BeamIn P (b.trim env ef) := by
  rw [Beam.trim]
  split_ifs
  · cases hpop : env.furthest.pop b.result with
    | none => exact h
    | some x =>
      obtain ⟨c, rest⟩ := x
      refine ⟨h.explore, fun c' hc' => ?_, env.furthest.nodup_map_of_pop h.nodup hpop⟩
      exact h.result c' ((env.furthest.mem_of_pop hpop).mpr (Or.inr hc'))
  · exact h

theorem enterStep_keeps (h : BeamIn P b) (hP : P ep) (hnew : ep ∉ b.visited)
    (hstep : g.enterStep env query b ep = .ok b') :
    BeamIn P b' ∧ ∀ id ∈ b'.visited, id = ep ∨ id ∈ b.visited := by
  rw [enterStep] at hstep
  cases hget : g.nodes.get ep with
  | none =>
    simp only [hget, Except.ok.injEq] at hstep
    exact hstep ▸ ⟨h, fun id hid => Or.inr hid⟩
  | some node =>
    simp only [hget] at hstep
    obtain ⟨d, -, hstep⟩ := bind_eq_ok hstep
    cases hstep
    exact ⟨h.push env ⟨d, ep⟩ hP hnew, fun id hid => List.mem_cons.mp hid⟩

theorem enter_keeps (h : BeamIn P b) (hP : ∀ ep ∈ eps, P ep) (hnodup : eps.Nodup)
    (hnew : ∀ ep ∈ eps, ep ∉ b.visited) (hrun : eps.foldlM (g.enterStep env query) b = .ok b') :
    BeamIn P b' := by
  induction eps generalizing b with
  | nil =>
    cases hrun
    exact h
  | cons ep eps ih =>
    obtain ⟨c, hc, hrest⟩ := foldlM_cons_eq_ok hrun
    obtain ⟨hin, hvisited⟩ := enterStep_keeps h (hP ep List.mem_cons_self) (hnew ep List.mem_cons_self) hc
    rw [List.nodup_cons] at hnodup
    refine ih hin (fun ep' hep' => hP ep' (List.mem_cons_of_mem _ hep')) hnodup.2
      (fun ep' hep' hmem => ?_) hrest
    rcases hvisited ep' hmem with rfl | hmem
    · exact hnodup.1 hep'
    · exact hnew ep' (List.mem_cons_of_mem _ hep') hmem

theorem visitStep_keeps (h : BeamIn P b) (hP : P id) (hstep : g.visitStep env query ef b id = .ok b') :
    BeamIn P b' := by
  rw [visitStep] at hstep
  by_cases hseen : id ∈ b.visited
  · rw [if_pos hseen] at hstep
    cases hstep
    exact h
  rw [if_neg hseen] at hstep
  cases hget : g.nodes.get id with
  | none =>
    simp only [hget, Except.ok.injEq] at hstep
    exact hstep ▸ h.see id
  | some node =>
    simp only [hget] at hstep
    cases hd : g.dist env query node.vector with
    | error err =>
      rw [hd] at hstep
      cases hstep
    | ok d =>
      simp only [hd, bind, Except.bind] at hstep
      split_ifs at hstep
      · cases hstep
        exact (h.push env ⟨d, id⟩ hP hseen).trim ef
      · cases hstep
        exact h.see id

theorem exploreLoop_keeps (hclosed : g.ClosedAt lvl P) (h : BeamIn P b)
    (hrun : g.exploreLoop env query ef lvl fuel b = .ok b') : BeamIn P b' := by
  induction fuel generalizing b with
  | zero =>
    cases hrun
    exact h
  | succ fuel ih =>
    rw [exploreLoop] at hrun
    cases hpop : env.nearest.pop b.explore with
    | none =>
      simp only [hpop, Except.ok.injEq] at hrun
      exact hrun ▸ h
    | some x =>
      obtain ⟨curr, rest⟩ := x
      have hmem := fun c => env.nearest.mem_of_pop (b := c) hpop
      have hrest : BeamIn P { b with explore := rest } :=
        ⟨fun c hc => h.explore c ((hmem c).mpr (Or.inr hc)), h.result, h.nodup⟩
      simp only [hpop] at hrun
      split_ifs at hrun
      · cases hrun
        exact hrest
      · obtain ⟨c, hfold, hrun⟩ := bind_eq_ok hrun
        refine ih (foldlM_keeps (fun b id hid hb b' hstep => visitStep_keeps hb ?_ hstep) hrest hfold) hrun
        cases hns : g.neighborsAt curr.nodeId lvl with
        | none =>
          rw [hns] at hid
          exact (List.not_mem_nil hid).elim
        | some ns =>
          rw [hns] at hid
          exact hclosed _ ns (h.explore curr ((hmem curr).mpr (Or.inl rfl))) hns id hid

theorem sortCandidates_perm (cands : List Candidate) : (sortCandidates cands).Perm cands :=
  List.perm_insertionSort _ cands

theorem searchLayerInternal_keeps (hclosed : g.ClosedAt lvl P) (hP : ∀ ep ∈ eps, P ep)
    (hnodup : eps.Nodup) {cands : List Candidate}
    (hrun : g.searchLayerInternal env query eps ef lvl = .ok cands) :
    (∀ c ∈ cands, P c.nodeId) ∧ (cands.map Candidate.nodeId).Nodup := by
  rw [searchLayerInternal] at hrun
  cases henter : eps.foldlM (g.enterStep env query) ⟨[], [], []⟩ with
  | error err =>
    rw [henter] at hrun
    cases hrun
  | ok b =>
    simp only [henter, bind, Except.bind] at hrun
    have hin := enter_keeps (.empty P) hP hnodup (fun _ _ hmem => List.not_mem_nil hmem) henter
    cases hloop : g.exploreLoop env query ef lvl (eps.length + g.nodes.length) b with
    | error err =>
      rw [hloop] at hrun
      cases hrun
    | ok b' =>
      rw [hloop] at hrun
      cases hrun
      have hin' := exploreLoop_keeps hclosed hin hloop
      have hperm := sortCandidates_perm b'.result
      refine ⟨fun c hc => (hin'.result c (hperm.mem_iff.mp hc)).1, ?_⟩
      exact (hperm.map _).nodup_iff.mpr hin'.nodup

theorem enterStep_isOk (hm : g.Measures env query) (b : Beam) (ep : ℕ) :
    ∃ b', g.enterStep env query b ep = .ok b' := by
  rw [enterStep]
  cases hget : g.nodes.get ep with
  | none => exact ⟨b, rfl⟩
  | some node =>
    obtain ⟨d, hd⟩ := hm ep node hget
    simp only [hd, bind, Except.bind]
    exact ⟨_, rfl⟩

theorem visitStep_isOk (hm : g.Measures env query) (ef : ℕ) (b : Beam) (id : ℕ) :
    ∃ b', g.visitStep env query ef b id = .ok b' := by
  rw [visitStep]
  split_ifs
  · exact ⟨b, rfl⟩
  · cases hget : g.nodes.get id with
    | none => exact ⟨_, rfl⟩
    | some node =>
      obtain ⟨d, hd⟩ := hm id node hget
      simp only [hd, bind, Except.bind]
      split_ifs
      · exact ⟨_, rfl⟩
      · exact ⟨_, rfl⟩

theorem exploreLoop_isOk (hm : g.Measures env query) (ef lvl fuel : ℕ) (b : Beam) :
    ∃ b', g.exploreLoop env query ef lvl fuel b = .ok b' := by
  induction fuel generalizing b with
  | zero => exact ⟨b, rfl⟩
  | succ fuel ih =>
    rw [exploreLoop]
    cases hpop : env.nearest.pop b.explore with
    | none => exact ⟨b, rfl⟩
    | some x =>
      obtain ⟨curr, rest⟩ := x
      dsimp only
      split_ifs
      · exact ⟨_, rfl⟩
      · obtain ⟨c, hc⟩ := foldlM_isOk (visitStep_isOk hm ef) { b with explore := rest }
          ((g.neighborsAt curr.nodeId lvl).getD [])
        rw [hc]
        exact ih c

theorem searchLayerInternal_isOk (hm : g.Measures env query) (eps : List ℕ) (ef lvl : ℕ) :
    ∃ cands, g.searchLayerInternal env query eps ef lvl = .ok cands := by
  obtain ⟨b, hb⟩ := foldlM_isOk (enterStep_isOk hm) ⟨[], [], []⟩ eps
  obtain ⟨b', hb'⟩ := exploreLoop_isOk hm ef lvl (eps.length + g.nodes.length) b
  refine ⟨sortCandidates b'.result, ?_⟩
  rw [searchLayerInternal, hb]
  simp only [bind, Except.bind, hb']
  rfl

def pending (g : HnswGraph) (b : Beam) : ℕ :=
  b.explore.length + g.nodes.countP fun id _ => decide (id ∉ b.visited)

theorem trim_explore (b : Beam) (ef : ℕ) :
    (b.trim env ef).explore = b.explore ∧ (b.trim env ef).visited = b.visited := by
  rw [Beam.trim]
  split_ifs
  · cases env.furthest.pop b.result with
    | none => exact ⟨rfl, rfl⟩
    | some x => exact ⟨rfl, rfl⟩
  · exact ⟨rfl, rfl⟩

end HnswGraph

end Wedb
