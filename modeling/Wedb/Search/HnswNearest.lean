import Wedb.Ordered.ScoreOrder
import Wedb.Search.HnswForm

/-!
# What a search finds where all nodes list each other

The first node that is explored lists all others, so the search has seen every node of the
level when it goes on, and what it has kept of them are the nearest. A scan of all vectors
that sorts their distances finds the same ones.
-/

namespace Wedb

namespace HnswGraph

section
variable (env : HnswEnv) (g : HnswGraph) (query : List F64)

/-- The documents nearest to a vector; `efRuntime` is the one of the call, or else the graph's. -/
def searchKnn (k efRuntime : ℕ) : Except Error (List (F64 × Bytes)) :=
  if k = 0 ∨ g.nodes.isEmpty then .ok []
  else
    match g.entryPoint with
    | none => .ok []
    | some entry => do
      let currEp ← g.descend env query 0 entry
      let candidates ← g.searchLayerInternal env query [currEp] (max efRuntime k) 0
      return (candidates.take k).filterMap fun c =>
        (g.nodes.get c.nodeId).map fun node => (c.dist, node.docId)

def scored (ids : List ℕ) : List Candidate := ids.filterMap (g.scoreOf env query)

def measured : List (F64 × Bytes) :=
  g.nodes.entries.map fun x => (env.distance g.distanceMetric query x.2.vector, x.2.docId)

end

def documents (g : HnswGraph) : List (Bytes × List F64) :=
  g.nodes.entries.map fun x => (x.2.docId, x.2.vector)

end HnswGraph

def linearScan (distance : List F64 → List F64 → F64) (query : List F64)
    (fieldMap : List (Bytes × List F64)) (k : ℕ) : List (F64 × Bytes) :=
  let distances := fieldMap.filterMap fun x =>
    match computeVectorDistance distance query x.2 with
    | .ok dist => some (dist, x.1)
    | .error _ => none
  (distances.insertionSort fun a b => ((a.1.partialCmp b.1).getD .eq).isLE = true).take k

namespace HnswGraph
variable {env : HnswEnv} {g : HnswGraph} {query : List F64} {key : Candidate → ℤ}
  {lvl ef fuel id ep : ℕ} {ns eps : List ℕ} {b b' : Beam} {c : Candidate} {P : ℕ → Prop}

/-! ## Steps of a search -/

theorem scoreOf_eq_some : g.scoreOf env query id = some c ↔
    ∃ node, g.nodes.get id = some node ∧ g.dist env query node.vector = .ok c.dist ∧ c.nodeId = id := by
  rw [scoreOf]
  cases hget : g.nodes.get id with
  | none => simp
  | some node =>
    obtain ⟨dist, nodeId⟩ := c
    cases hd : g.dist env query node.vector with
    | error err => simp [hd]
    | ok d => simp [hd, eq_comm]

theorem scoreOf_isSome (hm : g.Measures env query) {node : HnswNode} (hget : g.nodes.get id = some node) :
    ∃ c, g.scoreOf env query id = some c := by
  obtain ⟨d, hd⟩ := hm id node hget
  exact ⟨⟨d, id⟩, scoreOf_eq_some.mpr ⟨node, hget, hd, rfl⟩⟩

theorem enterStep_of_scoreOf (h : g.scoreOf env query ep = some c) :
    g.enterStep env query b ep = .ok { b.push env c with visited := ep :: b.visited } := by
  obtain ⟨node, hget, hd, hid⟩ := scoreOf_eq_some.mp h
  obtain ⟨dist, nodeId⟩ := c
  subst hid
  rw [enterStep, hget]
  simp only [hd]
  rfl

def furthestDist (env : HnswEnv) (b : Beam) : F64 :=
  ((env.furthest.peek b.result).map Candidate.dist).getD .infinity

theorem visitStep_of_mem (h : id ∈ b.visited) : g.visitStep env query ef b id = .ok b := by
  rw [visitStep, if_pos h]

theorem visitStep_of_scoreOf (hnew : id ∉ b.visited) (h : g.scoreOf env query id = some c) :
    g.visitStep env query ef b id = .ok
      (if b.result.length < ef ∨ c.dist.lt (furthestDist env b) = true then
        (Beam.push env { b with visited := id :: b.visited } c).trim env ef
      else { b with visited := id :: b.visited }) := by
  obtain ⟨node, hget, hd, hid⟩ := scoreOf_eq_some.mp h
  obtain ⟨dist, nodeId⟩ := c
  subst hid
  rw [visitStep, if_neg hnew, hget]
  simp only [hd]
  by_cases hbetter : b.result.length < ef ∨ dist.lt (furthestDist env b) = true
  · rw [if_pos hbetter]
    exact if_pos hbetter
  · rw [if_neg hbetter]
    exact if_neg hbetter

/-- The key agrees with the order of the heaps, and with the comparison of distances. -/
structure RanksBy (env : HnswEnv) (g : HnswGraph) (query : List F64) (key : Candidate → ℤ) : Prop where
  of_totalOrder : ∀ a b : Candidate, a.dist.totalOrder ≤ b.dist.totalOrder → key a ≤ key b
  of_not_lt : ∀ id id' a b, g.scoreOf env query id = some a → g.scoreOf env query id' = some b →
    a.dist.lt b.dist = false → key b ≤ key a

/-- Of the nodes seen the nearest are kept, and every one kept is still to be explored or not. -/
structure BeamKeeps (env : HnswEnv) (g : HnswGraph) (query : List F64) (key : Candidate → ℤ) (ef : ℕ)
    (b : Beam) : Prop where
  nodup : b.visited.Nodup
  result : KeepsLeast key ef (g.scored env query b.visited) b.result

theorem mem_scored {ids : List ℕ} : c ∈ g.scored env query ids ↔
    ∃ id ∈ ids, g.scoreOf env query id = some c := List.mem_filterMap

theorem BeamKeeps.scoreOf_result (h : BeamKeeps env g query key ef b) (hc : c ∈ b.result) :
    ∃ id, g.scoreOf env query id = some c := by
  obtain ⟨dropped, hseen, -⟩ := h.result.others
  obtain ⟨id, -, hid⟩ := mem_scored.mp (hseen.mem_iff.mpr (List.mem_append_left dropped hc))
  exact ⟨id, hid⟩

theorem scored_cons_some (h : g.scoreOf env query id = some c) (ids : List ℕ) :
    g.scored env query (id :: ids) = c :: g.scored env query ids := List.filterMap_cons_some h

theorem BeamKeeps.visitStep (hrank : RanksBy env g query key) (hef : 0 < ef)
    (h : BeamKeeps env g query key ef b) (hid : ∃ c, g.scoreOf env query id = some c)
    (hstep : g.visitStep env query ef b id = .ok b') : BeamKeeps env g query key ef b' := by
  by_cases hseen : id ∈ b.visited
  · rw [visitStep_of_mem hseen] at hstep
    cases hstep
    exact h
  obtain ⟨c, hc⟩ := hid
  have hnodup : (id :: b.visited).Nodup := List.nodup_cons.mpr ⟨hseen, h.nodup⟩
  have hscored := scored_cons_some hc b.visited
  rw [visitStep_of_scoreOf hseen hc, Except.ok.injEq] at hstep
  have hpush := env.furthest.push_perm b.result c
  by_cases hroom : b.result.length < ef
  · rw [if_pos (Or.inl hroom), Beam.trim, if_neg] at hstep
    · subst hstep
      exact ⟨hnodup, by rw [Beam.push]; dsimp only; rw [hscored]; exact (h.result.add hroom c).perm hpush⟩
    · rw [Beam.push]
      dsimp only
      rw [env.furthest.length_push]
      omega
  · have hfull : b.result.length = ef := le_antisymm h.result.length (not_lt.mp hroom)
    have hne : b.result ≠ [] := List.ne_nil_of_length_pos (hfull ▸ hef)
    obtain ⟨f, rest, hpop⟩ := env.furthest.exists_pop hne
    have hdist : furthestDist env b = f.dist := by
      rw [furthestDist, BinaryHeap.peek, hpop]
      rfl
    have hf : f ∈ b.result := (env.furthest.mem_of_pop hpop).mpr (Or.inl rfl)
    have hmax : ∀ a ∈ b.result, key a ≤ key f := by
      intro a ha
      rcases (env.furthest.mem_of_pop hpop).mp ha with rfl | ha
      · exact le_refl _
      · exact hrank.of_totalOrder a f (env.furthest.pop_max hpop a ha)
    rw [hdist] at hstep
    by_cases hlt : c.dist.lt f.dist = true
    · have hcf : key c ≤ key f := by
        refine hrank.of_totalOrder c f ?_
        simp only [F64.lt, Bool.and_eq_true, decide_eq_true_eq] at hlt
        exact (F64.totalOrder_lt_of_order_lt hlt.2).le
      have hpushed : env.furthest.push b.result c ≠ [] := by
        refine List.ne_nil_of_length_pos ?_
        rw [env.furthest.length_push]
        omega
      obtain ⟨x, kept, hpop'⟩ := env.furthest.exists_pop hpushed
      rw [if_pos (Or.inr hlt), Beam.trim, if_pos] at hstep
      · rw [Beam.push] at hstep
        dsimp only at hstep
        rw [hpop'] at hstep
        subst hstep
        refine ⟨hnodup, ?_⟩
        dsimp only
        rw [hscored]
        refine h.result.swap hfull (hpush.symm.trans (env.furthest.pop_perm hpop')) (fun a ha => ?_)
          ⟨f, hf, hcf⟩
        exact hrank.of_totalOrder a x (env.furthest.pop_max hpop' a ha)
      · rw [Beam.push]
        dsimp only
        rw [env.furthest.length_push]
        omega
    · rw [if_neg (not_or.mpr ⟨hroom, hlt⟩)] at hstep
      subst hstep
      obtain ⟨idf, hidf⟩ := h.scoreOf_result hf
      have hfc := hrank.of_not_lt id idf c f hc hidf (Bool.eq_false_iff.mpr hlt)
      refine ⟨hnodup, ?_⟩
      dsimp only
      rw [hscored]
      exact h.result.skip hfull fun a ha => (hmax a ha).trans hfc

theorem visitStep_sees (hid : ∃ c, g.scoreOf env query id = some c)
    (hstep : g.visitStep env query ef b id = .ok b') :
    (∀ x, x ∈ b'.visited ↔ x = id ∨ x ∈ b.visited) ∧
      ∀ c ∈ b'.explore, c.nodeId = id ∨ c ∈ b.explore := by
  by_cases hseen : id ∈ b.visited
  · rw [visitStep_of_mem hseen] at hstep
    cases hstep
    refine ⟨fun x => ?_, fun c hc => Or.inr hc⟩
    rw [or_iff_right_of_imp]
    rintro rfl
    exact hseen
  obtain ⟨c, hc⟩ := hid
  have hcid : c.nodeId = id := scoreOf_nodeId hc
  rw [visitStep_of_scoreOf hseen hc, Except.ok.injEq] at hstep
  by_cases hbetter : b.result.length < ef ∨ c.dist.lt (furthestDist env b) = true
  · rw [if_pos hbetter] at hstep
    obtain ⟨hexplore, hvisited⟩ := @trim_explore env
      (Beam.push env { b with visited := id :: b.visited } c) ef
    rw [hstep] at hexplore hvisited
    refine ⟨fun x => ?_, fun x hx => ?_⟩
    · rw [hvisited]
      exact List.mem_cons
    · rw [hexplore] at hx
      rcases env.nearest.mem_push.mp hx with rfl | hx
      · exact Or.inl hcid
      · exact Or.inr hx
  · rw [if_neg hbetter] at hstep
    subst hstep
    exact ⟨fun x => List.mem_cons, fun x hx => Or.inr hx⟩

theorem visit_keeps (hrank : RanksBy env g query key) (hef : 0 < ef)
    (hns : ∀ id ∈ ns, ∃ c, g.scoreOf env query id = some c) (h : BeamKeeps env g query key ef b)
    (hrun : ns.foldlM (g.visitStep env query ef) b = .ok b') :
    BeamKeeps env g query key ef b' ∧ (∀ x, x ∈ b'.visited ↔ x ∈ ns ∨ x ∈ b.visited) ∧
      ∀ c ∈ b'.explore, c.nodeId ∈ ns ∨ c ∈ b.explore := by
  induction ns generalizing b with
  | nil =>
    cases hrun
    exact ⟨h, fun x => by simp, fun c hc => Or.inr hc⟩
  | cons id ns ih =>
    obtain ⟨b₁, hstep, hrest⟩ := foldlM_cons_eq_ok hrun
    have hid := hns id List.mem_cons_self
    obtain ⟨hvisited, hexplore⟩ := visitStep_sees hid hstep
    obtain ⟨hkeeps, hvisited', hexplore'⟩ := ih
      (fun id' hid' => hns id' (List.mem_cons_of_mem id hid')) (h.visitStep hrank hef hid hstep) hrest
    refine ⟨hkeeps, fun x => ?_, fun c hc => ?_⟩
    · rw [hvisited', hvisited, List.mem_cons, or_left_comm, or_assoc]
    · rcases hexplore' c hc with hmem | hmem
      · exact Or.inl (List.mem_cons_of_mem id hmem)
      · rcases hexplore c hmem with rfl | hmem
        · exact Or.inl List.mem_cons_self
        · exact Or.inr hmem

theorem visit_of_seen (hns : ∀ id ∈ ns, id ∈ b.visited) :
    ns.foldlM (g.visitStep env query ef) b = .ok b := by
  induction ns with
  | nil => rfl
  | cons id ns ih =>
    rw [List.foldlM_cons, visitStep_of_mem (hns id List.mem_cons_self)]
    exact ih fun id' hid' => hns id' (List.mem_cons_of_mem id hid')

theorem enter_keepsLeast (h : BeamKeeps env g query key ef b) (hsame : ∀ c ∈ b.result, c ∈ b.explore)
    (heps : ∀ ep ∈ eps, ∃ c, g.scoreOf env query ep = some c) (hnodup : eps.Nodup)
    (hnew : ∀ ep ∈ eps, ep ∉ b.visited) (hroom : b.result.length + eps.length ≤ ef)
    (hrun : eps.foldlM (g.enterStep env query) b = .ok b') :
    BeamKeeps env g query key ef b' ∧ (∀ c ∈ b'.result, c ∈ b'.explore) ∧
      (∀ x, x ∈ b'.visited ↔ x ∈ eps ∨ x ∈ b.visited) ∧
      b'.result.length = b.result.length + eps.length := by
  induction eps generalizing b with
  | nil =>
    cases hrun
    exact ⟨h, hsame, fun x => by simp, rfl⟩
  | cons ep eps ih =>
    obtain ⟨b₁, hstep, hrest⟩ := foldlM_cons_eq_ok hrun
    obtain ⟨c, hc⟩ := heps ep List.mem_cons_self
    rw [enterStep_of_scoreOf hc] at hstep
    cases hstep
    rw [List.nodup_cons] at hnodup
    rw [List.length_cons] at hroom
    have hfresh := hnew ep List.mem_cons_self
    have hkeeps : BeamKeeps env g query key ef { b.push env c with visited := ep :: b.visited } := by
      refine ⟨List.nodup_cons.mpr ⟨hfresh, h.nodup⟩, ?_⟩
      rw [Beam.push]
      dsimp only
      rw [scored_cons_some hc]
      exact (h.result.add (by omega) c).perm (env.furthest.push_perm b.result c)
    have hsame₁ : ∀ x ∈ (b.push env c).result, x ∈ (b.push env c).explore := by
      intro x hx
      rcases env.furthest.mem_push.mp hx with rfl | hx
      · exact env.nearest.mem_push.mpr (Or.inl rfl)
      · exact env.nearest.mem_push.mpr (Or.inr (hsame x hx))
    have hnew₁ : ∀ ep' ∈ eps, ep' ∉ ep :: b.visited := by
      intro ep' hep' hmem
      rcases List.mem_cons.mp hmem with rfl | hmem
      · exact hnodup.1 hep'
      · exact hnew ep' (List.mem_cons_of_mem ep hep') hmem
    have hlength₁ : (b.push env c).result.length = b.result.length + 1 :=
      env.furthest.length_push b.result c
    obtain ⟨hkeeps', hsame', hvisited', hlength'⟩ := ih hkeeps hsame₁
      (fun ep' hep' => heps ep' (List.mem_cons_of_mem ep hep')) hnodup.2 hnew₁
      (by dsimp only; omega) hrest
    refine ⟨hkeeps', hsame', fun x => ?_, ?_⟩
    · rw [hvisited', List.mem_cons, List.mem_cons, or_left_comm, or_assoc]
    · rw [hlength', List.length_cons]
      dsimp only
      omega

/-! ## Complete levels -/

/-- On the level the nodes with the property list each other and no others. -/
structure CompleteAt (g : HnswGraph) (lvl : ℕ) (P : ℕ → Prop) : Prop where
  present : ∀ id, P id → ∃ node, g.nodes.get id = some node
  lists : ∀ id, P id → ∃ ns, g.neighborsAt id lvl = some ns ∧ ns.Nodup ∧ ∀ b, b ∈ ns ↔ b ≠ id ∧ P b

/-- Once all nodes have been seen, exploring further ones changes nothing. -/
theorem exploreLoop_settled (hc : g.CompleteAt lvl P) (hall : ∀ id, P id → id ∈ b.visited)
    (hexplore : ∀ c ∈ b.explore, P c.nodeId)
    (hrun : g.exploreLoop env query ef lvl fuel b = .ok b') :
    b'.result = b.result ∧ b'.visited = b.visited := by
  induction fuel generalizing b with
  | zero =>
    cases hrun
    exact ⟨rfl, rfl⟩
  | succ fuel ih =>
    rw [exploreLoop] at hrun
    cases hpop : env.nearest.pop b.explore with
    | none =>
      simp only [hpop, Except.ok.injEq] at hrun
      exact hrun ▸ ⟨rfl, rfl⟩
    | some x =>
      obtain ⟨curr, rest⟩ := x
      have hmem := fun c => env.nearest.mem_of_pop (b := c) hpop
      have hcurr := hexplore curr ((hmem curr).mpr (Or.inl rfl))
      obtain ⟨ns, hat, -, hns⟩ := hc.lists curr.nodeId hcurr
      simp only [hpop] at hrun
      split_ifs at hrun
      · cases hrun
        exact ⟨rfl, rfl⟩
      · have hvisit : ((g.neighborsAt curr.nodeId lvl).getD []).foldlM (g.visitStep env query ef)
            { b with explore := rest } = .ok { b with explore := rest } := by
          rw [hat]
          exact visit_of_seen fun id hid => hall id ((hns id).mp hid).2
        rw [hvisit] at hrun
        have hrest : ∀ c ∈ rest, P c.nodeId := fun c hcr => hexplore c ((hmem c).mpr (Or.inr hcr))
        exact ih (b := { b with explore := rest }) hall hrest hrun

theorem BeamKeeps.empty (env : HnswEnv) (g : HnswGraph) (query : List F64) (key : Candidate → ℤ)
    (ef : ℕ) : BeamKeeps env g query key ef ⟨[], [], []⟩ :=
  ⟨List.nodup_nil, .nil key ef⟩

theorem not_furthest_lt {curr : Candidate} {rest : List Candidate}
    (hsame : ∀ c ∈ b.result, c ∈ b.explore) (hpop : env.nearest.pop b.explore = some (curr, rest)) :
    ¬((env.furthest.peek b.result).any fun furthest => furthest.dist.lt curr.dist) = true := by
  rw [BinaryHeap.peek]
  cases hpeek : env.furthest.pop b.result with
  | none => exact Bool.false_ne_true
  | some x =>
    obtain ⟨f, others⟩ := x
    have hf : f ∈ b.explore := hsame f ((env.furthest.mem_of_pop hpeek).mpr (Or.inl rfl))
    have hle : curr.dist.totalOrder ≤ f.dist.totalOrder := by
      rcases (env.nearest.mem_of_pop hpop).mp hf with rfl | hrest
      · exact le_refl _
      · exact neg_le_neg_iff.mp (env.nearest.pop_max hpop f hrest)
    intro hlt
    rw [Option.map_some, Option.any_some, F64.lt, Bool.and_eq_true, decide_eq_true_eq] at hlt
    exact absurd (F64.totalOrder_lt_of_order_lt hlt.2) (not_lt.mpr hle)

theorem sortCandidates_sorted (cands : List Candidate) :
    (sortCandidates cands).Pairwise fun a b => a.dist.totalOrder ≤ b.dist.totalOrder := by
  have htotal : Std.Total fun a b : Candidate => a.dist.totalOrder ≤ b.dist.totalOrder :=
    ⟨fun a b => le_total _ _⟩
  have htrans : IsTrans Candidate fun a b => a.dist.totalOrder ≤ b.dist.totalOrder :=
    ⟨fun _ _ _ hab hbc => hab.trans hbc⟩
  exact List.pairwise_insertionSort _ cands

theorem searchLayerInternal_complete (hrank : RanksBy env g query key) (hm : g.Measures env query)
    (hc : g.CompleteAt lvl P) (hne : eps ≠ []) (hnodup : eps.Nodup) (hP : ∀ ep ∈ eps, P ep)
    (hef : eps.length ≤ ef) :
    ∃ cands visited, g.searchLayerInternal env query eps ef lvl = .ok cands ∧ visited.Nodup ∧
      (∀ id, id ∈ visited ↔ P id) ∧ KeepsLeast key ef (g.scored env query visited) cands ∧
      cands.Pairwise fun a b => a.dist.totalOrder ≤ b.dist.totalOrder := by
  have hpos : 0 < eps.length := List.length_pos_iff.mpr hne
  have hscore : ∀ id, P id → ∃ c, g.scoreOf env query id = some c := by
    intro id hid
    obtain ⟨node, hget⟩ := hc.present id hid
    exact scoreOf_isSome hm hget
  obtain ⟨b₁, henter⟩ := foldlM_isOk (enterStep_isOk hm) ⟨[], [], []⟩ eps
  have hin := enter_keeps (.empty (· ∈ eps)) (fun _ hep => hep) hnodup
    (fun _ _ hmem => List.not_mem_nil hmem) henter
  obtain ⟨hkeeps, hsame, hvisited, hlength⟩ := enter_keepsLeast (.empty env g query key ef)
    (fun _ hmem => absurd hmem List.not_mem_nil) (fun ep hep => hscore ep (hP ep hep)) hnodup
    (fun _ _ hmem => List.not_mem_nil hmem) (by simpa using hef) henter
  have hresult : b₁.result ≠ [] := List.ne_nil_of_length_pos (by rw [hlength]; omega)
  obtain ⟨c₀, hc₀⟩ := List.exists_mem_of_ne_nil _ hresult
  obtain ⟨curr, rest, hpop⟩ := env.nearest.exists_pop (List.ne_nil_of_mem (hsame c₀ hc₀))
  have hcurr := hin.explore curr ((env.nearest.mem_of_pop hpop).mpr (Or.inl rfl))
  obtain ⟨ns, hat, -, hns⟩ := hc.lists curr.nodeId (hP _ hcurr)
  obtain ⟨b₂, hvisit⟩ := foldlM_isOk (visitStep_isOk hm ef) { b₁ with explore := rest } ns
  obtain ⟨hkeeps₂, hvisited₂, hexplore₂⟩ := visit_keeps hrank (hpos.trans_le hef)
    (fun id hid => hscore id ((hns id).mp hid).2)
    (⟨hkeeps.nodup, hkeeps.result⟩ : BeamKeeps env g query key ef { b₁ with explore := rest }) hvisit
  have hseen : ∀ id, id ∈ b₂.visited ↔ P id := by
    intro id
    rw [hvisited₂, hvisited]
    constructor
    · rintro (hmem | hmem | hmem)
      · exact ((hns id).mp hmem).2
      · exact hP id hmem
      · exact absurd hmem List.not_mem_nil
    · intro hid
      by_cases heq : id = curr.nodeId
      · exact Or.inr (Or.inl (heq ▸ hcurr))
      · exact Or.inl ((hns id).mpr ⟨heq, hid⟩)
  have hexplore : ∀ c ∈ b₂.explore, P c.nodeId := by
    intro c hmem
    rcases hexplore₂ c hmem with hmem | hmem
    · exact ((hns _).mp hmem).2
    · exact hP _ (hin.explore c ((env.nearest.mem_of_pop hpop).mpr (Or.inr hmem)))
  obtain ⟨fuel, hfuel⟩ : ∃ fuel, eps.length + g.nodes.length = fuel + 1 :=
    ⟨eps.length + g.nodes.length - 1, by omega⟩
  obtain ⟨b₃, hloop⟩ := exploreLoop_isOk hm ef lvl fuel b₂
  obtain ⟨hresult₃, -⟩ := exploreLoop_settled hc (fun id hid => (hseen id).mpr hid) hexplore hloop
  have hrun : g.exploreLoop env query ef lvl (eps.length + g.nodes.length) b₁ = .ok b₃ := by
    rw [hfuel, exploreLoop, hpop]
    simp only [if_neg (not_furthest_lt hsame hpop), hat, Option.getD_some, hvisit]
    exact hloop
  refine ⟨sortCandidates b₃.result, b₂.visited, ?_, hkeeps₂.nodup, hseen, ?_, sortCandidates_sorted _⟩
  · rw [searchLayerInternal, henter]
    simp only [bind, Except.bind, hrun]
    rfl
  · rw [hresult₃]
    exact hkeeps₂.result.perm (sortCandidates_perm _)

/-! ## Levels that may be left by links -/

theorem greedy_present (hep : ∃ node, g.nodes.get ep = some node) {r : ℕ}
    (h : g.greedy env query lvl fuel ep = .ok r) : ∃ node, g.nodes.get r = some node := by
  induction fuel generalizing ep with
  | zero =>
    cases h
    exact hep
  | succ fuel ih =>
    rcases greedy_succ env g query lvl ep with
      hstay | ⟨err, herr⟩ | ⟨-, -, next, node', -, -, -, -, hget', -, -, hgo⟩
    · rw [hstay] at h
      cases h
      exact hep
    · rw [herr] at h
      cases h
    · rw [hgo] at h
      exact ih ⟨node', hget'⟩ h

theorem descend_present {nodeLevel r : ℕ} (hep : ∃ node, g.nodes.get ep = some node)
    (h : g.descend env query nodeLevel ep = .ok r) : ∃ node, g.nodes.get r = some node :=
  foldlM_keeps (P := fun id => ∃ node, g.nodes.get id = some node)
    (fun _ _ _ hid _ hr => greedy_present hid hr) hep h

/-- The candidates exist, and once there is a result there always is one. -/
structure BeamFinds (g : HnswGraph) (b : Beam) : Prop where
  present : ∀ c ∈ b.result, ∃ node, g.nodes.get c.nodeId = some node
  nonempty : b.result ≠ []

theorem visitStep_finds (h : BeamFinds g b) (hstep : g.visitStep env query ef b id = .ok b') :
    BeamFinds g b' := by
  rw [visitStep] at hstep
  split_ifs at hstep
  · cases hstep
    exact h
  cases hget : g.nodes.get id with
  | none =>
    simp only [hget, Except.ok.injEq] at hstep
    exact hstep ▸ ⟨h.present, h.nonempty⟩
  | some node =>
    simp only [hget] at hstep
    cases hd : g.dist env query node.vector with
    | error err =>
      rw [hd] at hstep
      cases hstep
    | ok d =>
      simp only [hd, bind, Except.bind] at hstep
      split_ifs at hstep
      · cases hstep
        have hpushed : ∀ c ∈ env.furthest.push b.result ⟨d, id⟩, ∃ node, g.nodes.get c.nodeId = some node := by
          intro c hc
          rcases env.furthest.mem_push.mp hc with rfl | hc
          · exact ⟨node, hget⟩
          · exact h.present c hc
        have hlength := env.furthest.length_push b.result ⟨d, id⟩
        have hpos : 0 < b.result.length := List.length_pos_iff.mpr h.nonempty
        rw [Beam.trim]
        split_ifs
        · rw [Beam.push]
          dsimp only
          cases hpop : env.furthest.pop (env.furthest.push b.result ⟨d, id⟩) with
          | none => exact ⟨hpushed, List.ne_nil_of_length_pos (by dsimp only; omega)⟩
          | some x =>
            obtain ⟨f, kept⟩ := x
            have hpopped := env.furthest.length_of_pop hpop
            refine ⟨fun c hc => ?_, List.ne_nil_of_length_pos (by dsimp only; omega)⟩
            exact hpushed c ((env.furthest.mem_of_pop hpop).mpr (Or.inr hc))
        · exact ⟨hpushed, List.ne_nil_of_length_pos (by rw [Beam.push]; dsimp only; omega)⟩
      · cases hstep
        exact ⟨h.present, h.nonempty⟩

theorem exploreLoop_finds (h : BeamFinds g b) (hrun : g.exploreLoop env query ef lvl fuel b = .ok b') :
    BeamFinds g b' := by
  induction fuel generalizing b with
  | zero =>
    cases hrun
    exact h
  | succ fuel ih =>
    rw [exploreLoop] at hrun
    cases hpop : env.nearest.pop b.explore with
    | none =>
      simp only [hpop, Except.ok.injEq] at hrun
      exact hrun ▸ h
    | some x =>
      obtain ⟨curr, rest⟩ := x
      have hrest : BeamFinds g { b with explore := rest } := ⟨h.present, h.nonempty⟩
      simp only [hpop] at hrun
      split_ifs at hrun
      · cases hrun
        exact hrest
      · obtain ⟨b₁, hfold, hrun⟩ := bind_eq_ok hrun
        exact ih (foldlM_keeps (fun _ _ _ hb _ hstep => visitStep_finds hb hstep) hrest hfold) hrun

theorem enter_finds (hne : eps ≠ [] ∨ b.result ≠ [])
    (heps : ∀ ep ∈ eps, ∃ c, g.scoreOf env query ep = some c)
    (h : ∀ c ∈ b.result, ∃ node, g.nodes.get c.nodeId = some node)
    (hrun : eps.foldlM (g.enterStep env query) b = .ok b') : BeamFinds g b' := by
  induction eps generalizing b with
  | nil =>
    cases hrun
    exact ⟨h, hne.resolve_left fun hnil => hnil rfl⟩
  | cons ep eps ih =>
    obtain ⟨b₁, hstep, hrest⟩ := foldlM_cons_eq_ok hrun
    obtain ⟨c, hc⟩ := heps ep List.mem_cons_self
    rw [enterStep_of_scoreOf hc] at hstep
    cases hstep
    have hlength : (b.push env c).result.length = b.result.length + 1 :=
      env.furthest.length_push b.result c
    refine ih (Or.inr (List.ne_nil_of_length_pos (by dsimp only; omega)))
      (fun ep' hep' => heps ep' (List.mem_cons_of_mem ep hep')) (fun x hx => ?_) hrest
    rcases env.furthest.mem_push.mp hx with rfl | hx
    · obtain ⟨node, hget, -, hid⟩ := scoreOf_eq_some.mp hc
      exact ⟨node, hid ▸ hget⟩
    · exact h x hx

theorem searchLayerInternal_finds (hm : g.Measures env query) (hne : eps ≠ [])
    (heps : ∀ ep ∈ eps, ∃ node, g.nodes.get ep = some node) {cands : List Candidate}
    (hrun : g.searchLayerInternal env query eps ef lvl = .ok cands) :
    cands ≠ [] ∧ ∀ c ∈ cands, ∃ node, g.nodes.get c.nodeId = some node := by
  obtain ⟨b₁, henter⟩ := foldlM_isOk (enterStep_isOk hm) ⟨[], [], []⟩ eps
  obtain ⟨b₂, hloop⟩ := exploreLoop_isOk hm ef lvl (eps.length + g.nodes.length) b₁
  have hfinds := exploreLoop_finds (enter_finds (Or.inl hne) (fun ep hep => by
    obtain ⟨node, hget⟩ := heps ep hep
    exact scoreOf_isSome hm hget) (fun _ hc => absurd hc List.not_mem_nil) henter) hloop
  rw [searchLayerInternal, henter] at hrun
  simp only [bind, Except.bind, hloop] at hrun
  cases hrun
  have hperm := sortCandidates_perm b₂.result
  refine ⟨fun hnil => hfinds.nonempty ?_, fun c hc => hfinds.present c (hperm.mem_iff.mp hc)⟩
  rw [hnil] at hperm
  exact hperm.symm.eq_nil

/-! ## The nearest documents -/

/-- The distances from a vector are numbers. -/
def Numbers (env : HnswEnv) (g : HnswGraph) (query : List F64) : Prop :=
  ∀ id node, g.nodes.get id = some node →
    (env.distance g.distanceMetric query node.vector).isNan = false

theorem computeVectorDistance_eq {distance : List F64 → List F64 → F64} {v w : List F64} {d : F64}
    (h : computeVectorDistance distance v w = .ok d) : d = distance v w := by
  rw [computeVectorDistance] at h
  split_ifs at h
  exact (Except.ok.inj h).symm

theorem scoreOf_of_get (hm : g.Measures env query) {node : HnswNode} (hget : g.nodes.get id = some node) :
    g.scoreOf env query id = some ⟨env.distance g.distanceMetric query node.vector, id⟩ := by
  obtain ⟨d, hd⟩ := hm id node hget
  rw [← computeVectorDistance_eq hd]
  exact scoreOf_eq_some.mpr ⟨node, hget, hd, rfl⟩

theorem ranksBy_order (hnum : g.Numbers env query) :
    RanksBy env g query fun c => c.dist.order where
  of_totalOrder _ _ h := F64.order_le_of_totalOrder_le h
  of_not_lt := by
    intro id id' a b ha hb hlt
    obtain ⟨node, hget, hd, -⟩ := scoreOf_eq_some.mp ha
    obtain ⟨node', hget', hd', -⟩ := scoreOf_eq_some.mp hb
    have hna : a.dist.isNan = false := computeVectorDistance_eq hd ▸ hnum id node hget
    have hnb : b.dist.isNan = false := computeVectorDistance_eq hd' ▸ hnum id' node' hget'
    rw [← Bool.not_eq_true, F64.lt_iff hna hnb, not_lt] at hlt
    exact hlt

def toDoc (g : HnswGraph) (c : Candidate) : F64 × Bytes :=
  (c.dist, ((g.nodes.get c.nodeId).map HnswNode.docId).getD [])

theorem toDoc_of_get {node : HnswNode} (hget : g.nodes.get c.nodeId = some node) :
    (g.nodes.get c.nodeId).map (fun node => (c.dist, node.docId)) = some (g.toDoc c) := by
  rw [toDoc, hget]
  rfl

theorem scored_map_toDoc (hm : g.Measures env query) {visited : List ℕ} (hnodup : visited.Nodup)
    (hall : ∀ id, id ∈ visited ↔ ∃ node, g.nodes.get id = some node) :
    ((g.scored env query visited).map g.toDoc).Perm (g.measured env query) := by
  have hkeys : visited.Perm g.nodes.keys :=
    (List.perm_ext_iff_of_nodup hnodup g.nodes.nodup_keys).mpr fun id =>
      (hall id).trans SortedMap.mem_keys.symm
  have hentries : (g.scored env query g.nodes.keys).map g.toDoc = g.measured env query := by
    have hscored : g.scored env query g.nodes.keys = g.nodes.entries.map fun x =>
        ⟨env.distance g.distanceMetric query x.2.vector, x.1⟩ := by
      rw [scored, SortedMap.keys, List.filterMap_map, ← List.filterMap_eq_map]
      exact List.filterMap_congr fun x hx => scoreOf_of_get hm (SortedMap.get_of_mem hx)
    rw [hscored, List.map_map, measured]
    refine List.map_congr_left fun x hx => ?_
    rw [Function.comp_apply, toDoc, SortedMap.get_of_mem hx]
    rfl
  rw [← hentries]
  exact (hkeys.filterMap _).map _

theorem searchKnn_firstOf (hm : g.Measures env query) (hnum : g.Numbers env query)
    (hc : g.CompleteAt 0 fun id => ∃ node, g.nodes.get id = some node)
    (habsent : g.entryPoint = none → g.nodes = ∅)
    (hpresent : ∀ ep, g.entryPoint = some ep → ∃ node, g.nodes.get ep = some node)
    (k efRuntime : ℕ) : ∃ results, g.searchKnn env query k efRuntime = .ok results ∧
      FirstOf (fun r => r.1.order) k (g.measured env query) results := by
  rw [searchKnn]
  by_cases htrivial : k = 0 ∨ g.nodes.isEmpty = true
  · rw [if_pos htrivial]
    refine ⟨[], rfl, ?_, List.Pairwise.nil, g.measured env query, .refl _, fun _ ha => ?_⟩
    · rcases htrivial with rfl | hempty
      · rw [Nat.zero_min]
        rfl
      · rw [measured, List.isEmpty_iff.mp hempty]
        exact (Nat.min_zero k).symm
    · exact absurd ha List.not_mem_nil
  · rw [if_neg htrivial]
    rw [not_or] at htrivial
    cases hentry : g.entryPoint with
    | none =>
      rw [habsent hentry] at htrivial
      exact absurd rfl htrivial.2
    | some entry =>
      obtain ⟨currEp, hdescend⟩ := descend_isOk hm 0 entry
      have hep := descend_present (hpresent entry hentry) hdescend
      have hef : [currEp].length ≤ max efRuntime k := by
        rw [List.length_singleton]
        omega
      obtain ⟨cands, visited, hrun, hnodup, hall, hkeeps, hsorted⟩ := searchLayerInternal_complete
        (ranksBy_order hnum) hm hc (List.cons_ne_nil currEp []) (List.nodup_singleton currEp)
        (fun ep hmem => (List.mem_singleton.mp hmem).symm ▸ hep) hef
      have hfirst := hkeeps.firstOf_take (.refl cands)
        (hsorted.imp F64.order_le_of_totalOrder_le) (le_max_right efRuntime k)
      have hget : ∀ c ∈ g.scored env query visited, ∃ node, g.nodes.get c.nodeId = some node := by
        intro c hmem
        obtain ⟨id, -, hid⟩ := mem_scored.mp hmem
        obtain ⟨node, hget, -, heq⟩ := scoreOf_eq_some.mp hid
        exact ⟨node, heq ▸ hget⟩
      have hresults : (cands.take k).filterMap (fun c =>
          (g.nodes.get c.nodeId).map fun node => (c.dist, node.docId)) = (cands.take k).map g.toDoc := by
        rw [← List.filterMap_eq_map]
        refine List.filterMap_congr fun c hmem => ?_
        obtain ⟨rest, hperm, -⟩ := hfirst.others
        obtain ⟨node, hnode⟩ := hget c (hperm.mem_iff.mpr (List.mem_append_left rest hmem))
        exact toDoc_of_get hnode
      refine ⟨(cands.take k).map g.toDoc, ?_, ?_⟩
      · simp only [hdescend, hrun, bind, Except.bind]
        rw [hresults]
        rfl
      · have hdocs : FirstOf (fun r : F64 × Bytes => r.1.order) k
            ((g.scored env query visited).map g.toDoc) ((cands.take k).map g.toDoc) :=
          hfirst.map fun _ _ => rfl
        exact hdocs.of_perm (scored_map_toDoc hm hnodup hall).symm

theorem linearScan_firstOf (hm : g.Measures env query) (hnum : g.Numbers env query)
    {fieldMap : List (Bytes × List F64)} (hperm : fieldMap.Perm g.documents) (k : ℕ) :
    FirstOf (fun r => r.1.order) k (g.measured env query)
      (linearScan (env.distance g.distanceMetric) query fieldMap k) := by
  have hmeasured : g.documents.filterMap (fun x =>
      match computeVectorDistance (env.distance g.distanceMetric) query x.2 with
      | .ok dist => some (dist, x.1)
      | .error _ => none) = g.measured env query := by
    rw [documents, List.filterMap_map, measured, ← List.filterMap_eq_map]
    refine List.filterMap_congr fun x hx => ?_
    obtain ⟨d, hd⟩ := hm x.1 x.2 (SortedMap.get_of_mem hx)
    have hcompute : computeVectorDistance (env.distance g.distanceMetric) query x.2.vector = .ok d := hd
    rw [Function.comp_apply, Function.comp_apply, hcompute, computeVectorDistance_eq hcompute]
  have hdistances := hperm.filterMap fun x =>
    match computeVectorDistance (env.distance g.distanceMetric) query x.2 with
    | .ok dist => some (dist, x.1)
    | .error _ => none
  rw [hmeasured] at hdistances
  rw [linearScan]
  generalize fieldMap.filterMap _ = distances at hdistances
  have hnan : ∀ a ∈ distances, a.1.isNan = false := by
    intro a ha
    obtain ⟨x, hx, rfl⟩ := List.mem_map.mp (hdistances.mem_iff.mp ha)
    exact hnum x.1 x.2 (SortedMap.get_of_mem hx)
  have hsort : distances.insertionSort (fun a b => ((a.1.partialCmp b.1).getD .eq).isLE = true) =
      distances.insertionSort fun a b => a.1.order ≤ b.1.order := by
    have hsame := List.map_insertionSort
      (r := fun a b : F64 × Bytes => ((a.1.partialCmp b.1).getD .eq).isLE = true)
      (s := fun a b : F64 × Bytes => a.1.order ≤ b.1.order) id distances fun a ha b hb => by
        rw [F64.isLE_partialCmp (hnan a ha) (hnan b hb)]
        rfl
    rwa [List.map_id, List.map_id] at hsame
  have htotal : Std.Total fun a b : F64 × Bytes => a.1.order ≤ b.1.order := ⟨fun a b => le_total _ _⟩
  have htrans : IsTrans (F64 × Bytes) fun a b => a.1.order ≤ b.1.order :=
    ⟨fun _ _ _ hab hbc => hab.trans hbc⟩
  rw [hsort]
  exact firstOf_take_of_sorted ((List.perm_insertionSort _ distances).trans hdistances)
    (List.pairwise_insertionSort _ distances)

theorem forall₂_eq_of_order {xs ys : List (F64 × Bytes)} (hx : ∀ x ∈ xs, x.1.isNan = false)
    (hy : ∀ y ∈ ys, y.1.isNan = false)
    (h : xs.map (fun x => x.1.order) = ys.map fun y => y.1.order) :
    List.Forall₂ (fun x y => x.1.eq y.1 = true) xs ys := by
  induction xs generalizing ys with
  | nil =>
    rw [List.map_nil, eq_comm, List.map_eq_nil_iff] at h
    subst h
    exact .nil
  | cons x xs ih =>
    cases ys with
    | nil => cases h
    | cons y ys =>
      rw [List.map_cons, List.map_cons, List.cons.injEq] at h
      refine .cons ((F64.eq_iff (hx x List.mem_cons_self) (hy y List.mem_cons_self)).mpr h.1) ?_
      exact ih (fun z hz => hx z (List.mem_cons_of_mem x hz))
        (fun z hz => hy z (List.mem_cons_of_mem y hz)) h.2

end HnswGraph

end Wedb
