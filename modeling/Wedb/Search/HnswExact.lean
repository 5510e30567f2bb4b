import Wedb.Search.HnswNearest
import Wedb.Search.HnswRuns

/-!
# Small graphs

While there are no more nodes than a list of the lowest level holds and a search for neighbours
keeps, all nodes list each other on the lowest level, whatever the levels above look like. A
search of such a graph returns what a scan of all vectors returns.
-/

namespace Wedb

namespace HnswGraph
variable {env : HnswEnv} {g g' g'' : HnswGraph} {vector query : List F64} {docId : Bytes}
  {id lvl nodeId bound nodeLevel entry : ℕ} {ns ids eps : List ℕ} {cands : List Candidate}

/-- The lists name only numbers below a bound. -/
def Named (g : HnswGraph) (bound : ℕ) : Prop :=
  ∀ id lvl ns, g.neighborsAt id lvl = some ns → ∀ b ∈ ns, b < bound

/-- The nodes other than a new one. -/
def Others (g : HnswGraph) (nodeId id : ℕ) : Prop :=
  id ≠ nodeId ∧ ∃ node, g.nodes.get id = some node

/-- All nodes list each other on the lowest level. -/
structure Small (g : HnswGraph) : Prop where
  docs : g.DocsOk
  absent : g.entryPoint = none ↔ g.nodes = ∅
  present : ∀ ep, g.entryPoint = some ep → ∃ node, g.nodes.get ep = some node
  fresh : ∀ id node, g.nodes.get id = some node → id < g.nextNodeId
  named : g.Named g.nextNodeId
  vectors : ∀ id node, g.nodes.get id = some node → node.vector.length = g.dim ∧ node.vector ≠ []
  complete : g.CompleteAt 0 fun id => ∃ node, g.nodes.get id = some node

/-! ## What linking leaves as it is -/

theorem SameShape.present_iff (h : SameShape g g') :
    (∃ node, g'.nodes.get id = some node) ↔ ∃ node, g.nodes.get id = some node := by
  constructor
  · rintro ⟨node, hget⟩
    obtain ⟨node', hget', -⟩ := h.symm.get hget
    exact ⟨node', hget'⟩
  · rintro ⟨node, hget⟩
    obtain ⟨node', hget', -⟩ := h.get hget
    exact ⟨node', hget'⟩

theorem SameShape.length (h : SameShape g g') : g'.nodes.length = g.nodes.length := by
  have hle : ∀ {g g' : HnswGraph}, SameShape g g' → g'.nodes.length ≤ g.nodes.length := by
    intro g g' h
    refine SortedMap.length_le_of_get fun id hid => ?_
    rw [Option.isSome_iff_exists] at hid ⊢
    exact h.present_iff.mp hid
  exact le_antisymm (hle h) (hle h.symm)

theorem SameShape.vectors (h : SameShape g g') {dim : ℕ} (hvectors : ∀ id node, g.nodes.get id = some node →
      node.vector.length = dim ∧ node.vector ≠ []) :
    ∀ id node, g'.nodes.get id = some node → node.vector.length = dim ∧ node.vector ≠ [] := by
  intro id node' hget'
  obtain ⟨node, hget, hbare⟩ := h.symm.get hget'
  have hvector : (bare node).vector = (bare node').vector := by rw [hbare]
  have hsame : node.vector = node'.vector := hvector
  exact hsame ▸ hvectors id node hget

theorem connectLevels_shape (env : HnswEnv) (vector : List F64) (nodeId n : ℕ) (eps : List ℕ)
    (g : HnswGraph) : SameShape g (connectLevels env vector nodeId n eps g).2 := by
  induction n generalizing eps g with
  | zero => exact .refl g
  | succ lvl ih =>
    rw [connectLevels]
    cases g.searchLayerInternal env vector eps g.efConstruction lvl with
    | error err => exact .refl g
    | ok cands => exact (connect_shape env g nodeId lvl cands).trans (ih _ _)

theorem length_joinNode (env : HnswEnv) (g : HnswGraph) (vector : List F64) (nodeId nodeLevel entry : ℕ) :
    (g.joinNode env vector nodeId nodeLevel entry).2.nodes.length = g.nodes.length := by
  rw [joinNode]
  cases g.descend env vector nodeLevel entry with
  | error err => rfl
  | ok currEp =>
    have hshape := connectLevels_shape env vector nodeId (min nodeLevel g.maxLevel + 1) [currEp] g
    dsimp only
    generalize connectLevels env vector nodeId (min nodeLevel g.maxLevel + 1) [currEp] g = r at *
    obtain ⟨res, g'⟩ := r
    cases res with
    | error err => exact hshape.length
    | ok u =>
      dsimp only
      split_ifs
      · exact hshape.length
      · exact hshape.length

/-- Only lists of one level have changed, and they name no new numbers. -/
structure Relinks (lvl bound : ℕ) (g g' : HnswGraph) : Prop where
  shape : SameShape g g'
  frame : ∀ id lvl', lvl' ≠ lvl → g'.neighborsAt id lvl' = g.neighborsAt id lvl'
  named : g'.Named bound

theorem Relinks.refl (h : g.Named bound) (lvl : ℕ) : Relinks lvl bound g g :=
  ⟨.refl g, fun _ _ _ => rfl, h⟩

theorem Relinks.trans (h : Relinks lvl bound g g') (h' : Relinks lvl bound g' g'') :
    Relinks lvl bound g g'' :=
  ⟨h.shape.trans h'.shape, fun id lvl' hne => (h'.frame id lvl' hne).trans (h.frame id lvl' hne), h'.named⟩

theorem Relinks.setNeighbors (h : g.Named bound) (hns : ∀ b ∈ ns, b < bound) (id lvl : ℕ) :
    Relinks lvl bound g (g.setNeighbors id lvl ns) := by
  refine ⟨setNeighbors_shape g id lvl ns, fun id' lvl' hne => ?_, fun id' lvl' ns' hat => ?_⟩
  · rw [neighborsAt_setNeighbors, if_neg fun heq => hne heq.2.symm]
  · rw [neighborsAt_setNeighbors] at hat
    split_ifs at hat
    · obtain ⟨_, -, rfl⟩ := Option.map_eq_some_iff.mp hat
      exact hns
    · exact h id' lvl' ns' hat

theorem mem_of_selectNeighborsFromIds {base : List F64} {k : ℕ}
    (h : id ∈ g.selectNeighborsFromIds env base ids k) : id ∈ ids := by
  have hperm := (sortCandidates_perm (ids.filterMap (g.scoreOf env base))).map Candidate.nodeId
  exact (scored_sublist env g base ids).subset
    (hperm.mem_iff.mp ((selectNeighbors_sublist _ _).subset h))

theorem link_relinks (env : HnswEnv) (h : g.Named bound) (hid : nodeId < bound) (lvl id : ℕ) :
    Relinks lvl bound g (link env nodeId lvl g id) := by
  rw [link]
  cases hget : g.nodes.get id with
  | none => exact .refl h lvl
  | some node =>
    dsimp only
    cases hns : node.neighbors[lvl]? with
    | none => exact .refl h lvl
    | some ns =>
      have hat : g.neighborsAt id lvl = some ns := by rw [neighborsAt, hget]; exact hns
      have hsmall : ∀ b ∈ (if nodeId ∈ ns then ns else ns ++ [nodeId]), b < bound := by
        intro b hb
        split_ifs at hb
        · exact h id lvl ns hat b hb
        · rcases List.mem_append.mp hb with hb | hb
          · exact h id lvl ns hat b hb
          · exact List.mem_singleton.mp hb ▸ hid
      dsimp only
      generalize (if nodeId ∈ ns then ns else ns ++ [nodeId]) = ns' at hsmall
      by_cases hlong : ns'.length > (g.setNeighbors id lvl ns').mMax lvl
      · rw [if_pos hlong, setNeighbors_setNeighbors]
        exact .setNeighbors h (fun b hb => hsmall b (mem_of_selectNeighborsFromIds hb)) id lvl
      · rw [if_neg hlong]
        exact .setNeighbors h hsmall id lvl

theorem foldl_link_relinks (env : HnswEnv) (h : g.Named bound) (hid : nodeId < bound) (lvl : ℕ)
    (ids : List ℕ) : Relinks lvl bound g (ids.foldl (link env nodeId lvl) g) := by
  induction ids generalizing g with
  | nil => exact .refl h lvl
  | cons id ids ih =>
    have hone := link_relinks env h hid lvl id
    exact hone.trans (ih hone.named)

theorem connect_relinks (env : HnswEnv) (h : g.Named bound) (hid : nodeId < bound) (lvl : ℕ)
    (hcands : ∀ c ∈ cands, c.nodeId < bound) :
    Relinks lvl bound g (g.connect env nodeId lvl cands) := by
  have hselected : ∀ b ∈ selectNeighbors cands (g.mMax lvl), b < bound := by
    intro b hb
    obtain ⟨c, hc, rfl⟩ := List.mem_map.mp ((selectNeighbors_sublist cands _).subset hb)
    exact hcands c hc
  have hone := Relinks.setNeighbors h hselected nodeId lvl
  exact hone.trans (foldl_link_relinks env hone.named hid lvl _)

/-! ## Linking on the lowest level -/

theorem link_of_room (env : HnswEnv) (hat : g.neighborsAt id lvl = some ns) (hnew : nodeId ∉ ns)
    (hroom : ns.length < g.mMax lvl) :
    link env nodeId lvl g id = g.setNeighbors id lvl (ns ++ [nodeId]) := by
  rw [neighborsAt, Option.bind_eq_some_iff] at hat
  obtain ⟨node, hget, hns⟩ := hat
  rw [link, hget]
  dsimp only
  rw [hns]
  dsimp only
  rw [if_neg hnew, if_neg]
  rw [(setNeighbors_shape g id lvl _).mMax lvl, List.length_append, List.length_singleton]
  omega

theorem foldl_link_of_room (env : HnswEnv) (hnodup : ids.Nodup)
    (hids : ∀ id ∈ ids, ∃ ns, g.neighborsAt id lvl = some ns ∧ nodeId ∉ ns ∧ ns.length < g.mMax lvl)
    (id : ℕ) : (ids.foldl (link env nodeId lvl) g).neighborsAt id lvl =
      if id ∈ ids then (g.neighborsAt id lvl).map fun ns => ns ++ [nodeId]
      else g.neighborsAt id lvl := by
  induction ids generalizing g with
  | nil => rw [if_neg List.not_mem_nil]; rfl
  | cons first ids ih =>
    obtain ⟨ns, hat, hnew, hroom⟩ := hids first List.mem_cons_self
    rw [List.nodup_cons] at hnodup
    have hshape := setNeighbors_shape g first lvl (ns ++ [nodeId])
    have hlist : ∀ id', (g.setNeighbors first lvl (ns ++ [nodeId])).neighborsAt id' lvl =
        if first = id' then some (ns ++ [nodeId]) else g.neighborsAt id' lvl := by
      intro id'
      rw [neighborsAt_setNeighbors, hat]
      simp only [and_true, Option.map_some]
    rw [List.foldl_cons, link_of_room env hat hnew hroom, ih hnodup.2, hlist]
    · by_cases heq : first = id
      · subst heq
        rw [if_neg hnodup.1, if_pos rfl, if_pos List.mem_cons_self, hat]
        rfl
      · simp only [if_neg heq, List.mem_cons, Ne.symm heq, false_or]
    · intro id' hid'
      obtain ⟨ns', hat', hnew', hroom'⟩ := hids id' (List.mem_cons_of_mem first hid')
      refine ⟨ns', ?_, hnew', (hshape.mMax lvl).symm ▸ hroom'⟩
      rw [hlist, if_neg (fun heq : first = id' => hnodup.1 (heq ▸ hid'))]
      exact hat'

theorem length_lt_of_others (hself : ∃ node, g.nodes.get nodeId = some node) (hnodup : ids.Nodup)
    (hids : ∀ id ∈ ids, g.Others nodeId id) : ids.length < g.nodes.length := by
  have hcons : (nodeId :: ids).Nodup := List.nodup_cons.mpr ⟨fun hmem => (hids _ hmem).1 rfl, hnodup⟩
  have hsub : nodeId :: ids ⊆ g.nodes.keys := by
    intro id hid
    rcases List.mem_cons.mp hid with rfl | hid
    · exact SortedMap.mem_keys.mpr hself
    · exact SortedMap.mem_keys.mpr (hids id hid).2
  have hle := (hcons.subperm hsub).length_le
  rw [SortedMap.keys, List.length_map] at hle
  exact hle

theorem connect_complete (env : HnswEnv) (hc : g.CompleteAt 0 (g.Others nodeId))
    (hnew : g.neighborsAt nodeId 0 = some []) (hroom : g.nodes.length ≤ 2 * g.m)
    (hnodup : (cands.map Candidate.nodeId).Nodup)
    (hall : ∀ id, id ∈ cands.map Candidate.nodeId ↔ g.Others nodeId id) :
    (g.connect env nodeId 0 cands).CompleteAt 0 fun id =>
      ∃ node, (g.connect env nodeId 0 cands).nodes.get id = some node := by
  have hself : ∃ node, g.nodes.get nodeId = some node := by
    rw [neighborsAt, Option.bind_eq_some_iff] at hnew
    obtain ⟨node, hget, -⟩ := hnew
    exact ⟨node, hget⟩
  have hmax : g.mMax 0 = g.m * 2 := if_pos rfl
  have hfew : ∀ {xs : List ℕ}, xs.Nodup → (∀ id ∈ xs, g.Others nodeId id) → xs.length < g.mMax 0 := by
    intro xs hxs hothers
    have hlt := length_lt_of_others hself hxs hothers
    omega
  have hselected : selectNeighbors cands (g.mMax 0) = cands.map Candidate.nodeId := by
    have hlt := hfew hnodup fun id hid => (hall id).mp hid
    rw [List.length_map] at hlt
    rw [selectNeighbors, List.take_of_length_le hlt.le]
  have hshape := setNeighbors_shape g nodeId 0 (cands.map Candidate.nodeId)
  have hlist : ∀ id, (g.setNeighbors nodeId 0 (cands.map Candidate.nodeId)).neighborsAt id 0 =
      if nodeId = id then some (cands.map Candidate.nodeId) else g.neighborsAt id 0 := by
    intro id
    rw [neighborsAt_setNeighbors, hnew]
    simp only [and_true, Option.map_some]
  have hpresent : ∀ id, (∃ node, (g.connect env nodeId 0 cands).nodes.get id = some node) ↔
      ∃ node, g.nodes.get id = some node := fun id => (connect_shape env g nodeId 0 cands).present_iff
  have hother : ∀ id ∈ cands.map Candidate.nodeId, ∃ ns, g.neighborsAt id 0 = some ns ∧
      (g.setNeighbors nodeId 0 (cands.map Candidate.nodeId)).neighborsAt id 0 = some ns ∧
        ns.Nodup ∧ ∀ b, b ∈ ns ↔ b ≠ id ∧ g.Others nodeId b := by
    intro id hid
    obtain ⟨ns, hns, hnsNodup, hmem⟩ := hc.lists id ((hall id).mp hid)
    refine ⟨ns, hns, ?_, hnsNodup, hmem⟩
    rw [hlist, if_neg (Ne.symm ((hall id).mp hid).1), hns]
  have hroom' : ∀ id ∈ cands.map Candidate.nodeId, ∃ ns,
      (g.setNeighbors nodeId 0 (cands.map Candidate.nodeId)).neighborsAt id 0 = some ns ∧
        nodeId ∉ ns ∧ ns.length < (g.setNeighbors nodeId 0 (cands.map Candidate.nodeId)).mMax 0 := by
    intro id hid
    obtain ⟨ns, -, hns, hnsNodup, hmem⟩ := hother id hid
    refine ⟨ns, hns, fun hself => ((hmem nodeId).mp hself).2.1 rfl, ?_⟩
    rw [hshape.mMax 0]
    exact hfew hnsNodup fun b hb => ((hmem b).mp hb).2
  have hat := foldl_link_of_room env hnodup hroom'
  rw [connect, hselected] at hpresent ⊢
  refine ⟨fun id hid => hid, fun id hid => ?_⟩
  rw [hpresent] at hid
  by_cases heq : nodeId = id
  · subst heq
    refine ⟨cands.map Candidate.nodeId, ?_, hnodup, fun b => ?_⟩
    · rw [hat, if_neg fun hmem => ((hall nodeId).mp hmem).1 rfl, hlist, if_pos rfl]
    · rw [hall, hpresent]
      rfl
  · have hid' : id ∈ cands.map Candidate.nodeId := (hall id).mpr ⟨Ne.symm heq, hid⟩
    obtain ⟨ns, -, hns, hnsNodup, hmem⟩ := hother id hid'
    refine ⟨ns ++ [nodeId], ?_, ?_, fun b => ?_⟩
    · rw [hat, if_pos hid', hns]
      rfl
    · refine hnsNodup.append (List.nodup_singleton nodeId) ?_
      rw [List.disjoint_singleton]
      exact fun hself => ((hmem nodeId).mp hself).2.1 rfl
    · rw [List.mem_append, List.mem_singleton, hmem, hpresent]
      constructor
      · rintro (⟨hne, hothers⟩ | rfl)
        · exact ⟨hne, hothers.2⟩
        · exact ⟨heq, hself⟩
      · rintro ⟨hne, hb⟩
        by_cases hself' : b = nodeId
        · exact Or.inr hself'
        · exact Or.inl ⟨hne, hself', hb⟩

/-! ## Linking on all levels -/

theorem ranksBy_zero (env : HnswEnv) (g : HnswGraph) (query : List F64) :
    RanksBy env g query fun _ => 0 :=
  ⟨fun _ _ _ => le_refl 0, fun _ _ _ _ _ _ _ => le_refl 0⟩

theorem CompleteAt.congr {P Q : ℕ → Prop} (h : g.CompleteAt lvl P) (hPQ : ∀ id, Q id ↔ P id)
    (hpresent : ∀ id, (∃ node, g'.nodes.get id = some node) ↔ ∃ node, g.nodes.get id = some node)
    (hat : ∀ id, g'.neighborsAt id lvl = g.neighborsAt id lvl) : g'.CompleteAt lvl Q := by
  refine ⟨fun id hid => (hpresent id).mpr (h.present id ((hPQ id).mp hid)), fun id hid => ?_⟩
  obtain ⟨ns, hns, hnodup, hmem⟩ := h.lists id ((hPQ id).mp hid)
  exact ⟨ns, (hat id).trans hns, hnodup, fun b => by rw [hmem, hPQ]⟩

/-- What a search may start from: existing nodes other than the new one. -/
structure EntriesOk (g : HnswGraph) (nodeId : ℕ) (eps : List ℕ) : Prop where
  nonempty : eps ≠ []
  nodup : eps.Nodup
  others : ∀ ep ∈ eps, g.Others nodeId ep

/-- A search of any level that does not list the new node finds entries for the next one. -/
theorem searchLayerInternal_entries (hm : g.Measures env vector) (hun : g.Unlisted nodeId bound)
    (hlvl : lvl < bound) (heps : EntriesOk g nodeId eps) {ef : ℕ}
    (hrun : g.searchLayerInternal env vector eps ef lvl = .ok cands) :
    EntriesOk g nodeId (cands.map Candidate.nodeId) := by
  have hclosed : g.ClosedAt lvl (· ≠ nodeId) := fun id ns _ hat b hb heq =>
    hun id lvl ns hlvl hat (heq ▸ hb)
  obtain ⟨hne, hnodup⟩ := searchLayerInternal_keeps hclosed (fun ep hep => (heps.others ep hep).1)
    heps.nodup hrun
  obtain ⟨hnonempty, hpresent⟩ := searchLayerInternal_finds hm heps.nonempty
    (fun ep hep => (heps.others ep hep).2) hrun
  refine ⟨fun hnil => hnonempty (List.map_eq_nil_iff.mp hnil), hnodup, fun ep hep => ?_⟩
  obtain ⟨c, hc, rfl⟩ := List.mem_map.mp hep
  exact ⟨hne c hc, hpresent c hc⟩

/-- A search of the lowest level finds all nodes but the new one, where it keeps enough. -/
theorem searchLayerInternal_all (hm : g.Measures env vector) (hc : g.CompleteAt 0 (g.Others nodeId))
    (hself : ∃ node, g.nodes.get nodeId = some node) (heps : EntriesOk g nodeId eps) {ef : ℕ}
    (hef : g.nodes.length ≤ ef) :
    ∃ cands, g.searchLayerInternal env vector eps ef 0 = .ok cands ∧
      (cands.map Candidate.nodeId).Nodup ∧
      ∀ id, id ∈ cands.map Candidate.nodeId ↔ g.Others nodeId id := by
  have hfew := length_lt_of_others hself heps.nodup heps.others
  obtain ⟨cands, visited, hrun, hnodup, hall, hkeeps, -⟩ := searchLayerInternal_complete
    (ranksBy_zero env g vector) hm hc heps.nonempty heps.nodup heps.others (hfew.le.trans hef)
  have hlength : (g.scored env vector visited).length ≤ ef := by
    have hlt := length_lt_of_others hself hnodup fun id hid => (hall id).mp hid
    have hle : (g.scored env vector visited).length ≤ visited.length := List.length_filterMap_le _ _
    omega
  have hids : (g.scored env vector visited).map Candidate.nodeId = visited := by
    have hscored : g.scored env vector visited = visited.map fun id =>
        ⟨((g.scoreOf env vector id).map Candidate.dist).getD .zero, id⟩ := by
      rw [scored, ← List.filterMap_eq_map]
      refine List.filterMap_congr fun id hid => ?_
      obtain ⟨node, hget⟩ := ((hall id).mp hid).2
      obtain ⟨c, hc⟩ := scoreOf_isSome hm hget
      rw [Function.comp_apply, hc, ← scoreOf_nodeId hc]
      rfl
    rw [hscored, List.map_map]
    exact List.map_id' visited
  have hperm := (hkeeps.all hlength).map Candidate.nodeId
  rw [hids] at hperm
  exact ⟨cands, hrun, hperm.nodup_iff.mpr hnodup, fun id => hperm.mem_iff.trans (hall id)⟩

/-- Linking a new node from its highest level down makes the lowest level complete. -/
theorem connectLevels_complete (env : HnswEnv) (hm : g.Measures env vector)
    (hc : g.CompleteAt 0 (g.Others nodeId)) (hnew : g.neighborsAt nodeId 0 = some [])
    (hun : g.Unlisted nodeId (lvl + 1)) (hnamed : g.Named (nodeId + 1))
    (hfresh : ∀ id node, g.nodes.get id = some node → id < nodeId + 1)
    (heps : EntriesOk g nodeId eps) (hroom : g.nodes.length ≤ min (2 * g.m) g.efConstruction) :
    ∃ g', connectLevels env vector nodeId (lvl + 1) eps g = (.ok (), g') ∧ SameShape g g' ∧
      g'.Named (nodeId + 1) ∧ g'.CompleteAt 0 fun id => ∃ node, g'.nodes.get id = some node := by
  have hself : ∃ node, g.nodes.get nodeId = some node := by
    rw [neighborsAt, Option.bind_eq_some_iff] at hnew
    obtain ⟨node, hget, -⟩ := hnew
    exact ⟨node, hget⟩
  induction lvl generalizing g eps with
  | zero =>
    obtain ⟨cands, hrun, hnodup, hall⟩ := searchLayerInternal_all hm hc hself heps
      (hroom.trans (min_le_right _ _))
    have hcands : ∀ c ∈ cands, c.nodeId < nodeId + 1 := by
      intro c hmem
      obtain ⟨-, node, hget⟩ := (hall c.nodeId).mp (List.mem_map_of_mem hmem)
      exact hfresh c.nodeId node hget
    have hrelinks := connect_relinks env hnamed (Nat.lt_succ_self nodeId) 0 hcands
    refine ⟨g.connect env nodeId 0 cands, ?_, hrelinks.shape, hrelinks.named, ?_⟩
    · rw [connectLevels, hrun]
      rfl
    · exact connect_complete env hc hnew (hroom.trans (min_le_left _ _)) hnodup hall
  | succ lvl ih =>
    obtain ⟨cands, hrun⟩ := searchLayerInternal_isOk hm eps g.efConstruction (lvl + 1)
    have hentries := searchLayerInternal_entries hm hun (Nat.lt_succ_self (lvl + 1)) heps hrun
    have hcands : ∀ c ∈ cands, c.nodeId < nodeId + 1 := by
      intro c hmem
      obtain ⟨-, node, hget⟩ := hentries.others c.nodeId (List.mem_map_of_mem hmem)
      exact hfresh c.nodeId node hget
    have hrelinks := connect_relinks env hnamed (Nat.lt_succ_self nodeId) (lvl + 1) hcands
    have hshape := hrelinks.shape
    have hothers : ∀ id, (g.connect env nodeId (lvl + 1) cands).Others nodeId id ↔ g.Others nodeId id :=
      fun id => and_congr_right fun _ => hshape.present_iff
    have hzero : ∀ id, (g.connect env nodeId (lvl + 1) cands).neighborsAt id 0 = g.neighborsAt id 0 :=
      fun id => hrelinks.frame id 0 (Nat.succ_ne_zero lvl).symm
    obtain ⟨g', hrest, hshape', hnamed', hcomplete⟩ := ih (hshape.measures hm)
      (hc.congr hothers (fun id => hshape.present_iff) hzero) ((hzero nodeId).trans hnew)
      (fun id lvl' ns hlt hat => hun id lvl' ns (Nat.lt_succ_of_lt hlt)
        ((hrelinks.frame id lvl' (by omega)).symm.trans hat))
      hrelinks.named
      (fun id node hget => by
        obtain ⟨node', hget', -⟩ := hshape.symm.get hget
        exact hfresh id node' hget')
      ⟨hentries.nonempty, hentries.nodup, fun ep hep => (hothers ep).mpr (hentries.others ep hep)⟩
      (by rw [hshape.length, hshape.fields]; exact hroom) (hshape.present_iff.mpr hself)
    refine ⟨g', ?_, hshape.trans hshape', hnamed', hcomplete⟩
    rw [connectLevels, hrun]
    exact hrest

/-! ## Insertions -/

theorem small_of_empty (hnodes : g.nodes = ∅) (hdocs : g.docToNode = ∅) (hentry : g.entryPoint = none) :
    g.Small := by
  have hnone : ∀ id node, g.nodes.get id ≠ some node := by
    intro id node hget
    rw [hnodes] at hget
    cases hget
  refine ⟨(inv_of_empty hnodes hdocs hentry).docs, iff_of_true hentry hnodes, fun ep hep => ?_,
    fun id node hget => absurd hget (hnone id node), fun id lvl ns hat => ?_,
    fun id node hget => absurd hget (hnone id node), fun id hid => hid, fun id hid => ?_⟩
  · rw [hentry] at hep
    cases hep
  · rw [neighborsAt, Option.bind_eq_some_iff] at hat
    obtain ⟨node, hget, -⟩ := hat
    exact absurd hget (hnone id node)
  · obtain ⟨node, hget⟩ := hid
    exact absurd hget (hnone id node)

/-- The graph that a new node is linked in. -/
structure Joins (g : HnswGraph) (nodeId : ℕ) : Prop where
  complete : g.CompleteAt 0 (g.Others nodeId)
  bare : g.neighborsAt nodeId 0 = some []
  unlisted : ∀ bound, g.Unlisted nodeId bound
  named : g.Named (nodeId + 1)
  fresh : ∀ id node, g.nodes.get id = some node → id < nodeId + 1

theorem addNode_joins (h : g.Small) (docId : Bytes) (vector : List F64) (nodeLevel : ℕ) :
    (g.addNode docId vector nodeLevel).Joins g.nextNodeId := by
  have hget : ∀ id, id ≠ g.nextNodeId →
      (g.addNode docId vector nodeLevel).nodes.get id = g.nodes.get id := by
    intro id hne
    rw [get_addNode, if_neg (Ne.symm hne)]
  have hold : ∀ id, (g.addNode docId vector nodeLevel).Others g.nextNodeId id ↔
      ∃ node, g.nodes.get id = some node := by
    intro id
    constructor
    · rintro ⟨hne, hnode⟩
      rwa [hget id hne] at hnode
    · rintro ⟨node, hnode⟩
      have hne : id ≠ g.nextNodeId := (h.fresh id node hnode).ne
      exact ⟨hne, node, (hget id hne).trans hnode⟩
  have hat : ∀ id, id ≠ g.nextNodeId → ∀ lvl,
      (g.addNode docId vector nodeLevel).neighborsAt id lvl = g.neighborsAt id lvl := by
    intro id hne lvl
    rw [neighborsAt, hget id hne, neighborsAt]
  have hlow : ∀ id lvl ns, (g.addNode docId vector nodeLevel).neighborsAt id lvl = some ns →
      ∀ b ∈ ns, b < g.nextNodeId := by
    intro id lvl ns hns b hb
    rcases neighborsAt_addNode hns with rfl | hns
    · exact absurd hb List.not_mem_nil
    · exact h.named id lvl ns hns b hb
  refine ⟨⟨fun id hid => hid.2, fun id hid => ?_⟩, ?_, fun bound id lvl ns _ hns hmem => ?_,
    fun id lvl ns hns b hb => (hlow id lvl ns hns b hb).trans (Nat.lt_succ_self _), ?_⟩
  · obtain ⟨ns, hns, hnodup, hmem⟩ := h.complete.lists id ((hold id).mp hid)
    exact ⟨ns, (hat id hid.1 0).trans hns, hnodup, fun b => by rw [hmem, hold]⟩
  · rw [neighborsAt, get_addNode, if_pos rfl]
    rfl
  · exact lt_irrefl _ (hlow id lvl ns hns _ hmem)
  · intro id node hnode
    by_cases heq : id = g.nextNodeId
    · omega
    · rw [hget id heq] at hnode
      exact Nat.lt_succ_of_lt (h.fresh id node hnode)

theorem measures_of_vectors (env : HnswEnv) (hvectors : ∀ id node, g.nodes.get id = some node →
      node.vector.length = g.dim ∧ node.vector ≠ []) (hquery : query.length = g.dim) :
    g.Measures env query := by
  intro id node hget
  obtain ⟨hlen, hne⟩ := hvectors id node hget
  refine computeVectorDistance_ok _ (hquery.trans hlen.symm) fun hnil => hne ?_
  rw [hnil, List.length_nil] at hquery
  exact List.length_eq_zero_iff.mp (hlen.trans hquery.symm)

theorem addNode_vectors (h : g.Small) (docId : Bytes) (nodeLevel : ℕ) (hlen : vector.length = g.dim)
    (hne : vector ≠ []) : ∀ id node, (g.addNode docId vector nodeLevel).nodes.get id = some node →
      node.vector.length = g.dim ∧ node.vector ≠ [] := by
  intro id node hget
  rw [get_addNode] at hget
  split_ifs at hget
  · cases hget
    exact ⟨hlen, hne⟩
  · exact h.vectors id node hget

theorem Small.withEntry (h : g.Small) {entryPoint : Option ℕ} (maxLevel : ℕ)
    (habsent : entryPoint = none ↔ g.nodes = ∅)
    (hpresent : ∀ ep, entryPoint = some ep → ∃ node, g.nodes.get ep = some node) :
    Small { g with entryPoint, maxLevel } :=
  ⟨h.docs, habsent, hpresent, h.fresh, h.named, h.vectors, h.complete.present, h.complete.lists⟩

theorem length_addNode (h : g.Small) (docId : Bytes) (vector : List F64) (nodeLevel : ℕ) :
    (g.addNode docId vector nodeLevel).nodes.length = g.nodes.length + 1 := by
  refine SortedMap.length_insert_of_get_none _ (Option.eq_none_iff_forall_ne_some.mpr fun node hget => ?_)
  exact lt_irrefl _ (h.fresh _ node hget)

theorem joinNode_small (env : HnswEnv) (nodeLevel : ℕ) (h : g.Small) (hdoc : g.docToNode.get docId = none)
    (hentry : g.entryPoint = some entry) (hlen : vector.length = g.dim) (hne : vector ≠ [])
    (hroom : g.nodes.length + 1 ≤ min (2 * g.m) g.efConstruction) :
    ∃ g', (g.addNode docId vector nodeLevel).joinNode env vector g.nextNodeId nodeLevel entry =
      (.ok g.nextNodeId, g') ∧ g'.Small := by
  have hjoins := addNode_joins h docId vector nodeLevel
  have hvectors := addNode_vectors h docId nodeLevel hlen hne
  have hm := measures_of_vectors env hvectors hlen
  obtain ⟨epNode, hep⟩ := h.present entry hentry
  have hother : (g.addNode docId vector nodeLevel).Others g.nextNodeId entry := by
    have hold := (h.fresh entry epNode hep).ne
    refine ⟨hold, epNode, ?_⟩
    rw [get_addNode, if_neg (Ne.symm hold)]
    exact hep
  obtain ⟨currEp, hdescend⟩ := descend_isOk hm nodeLevel entry
  have hcurr : (g.addNode docId vector nodeLevel).Others g.nextNodeId currEp := by
    refine ⟨descend_keeps (P := (· ≠ g.nextNodeId)) (fun lvl _ id ns _ hat b hb heq => ?_) hother.1
      hdescend, descend_present hother.2 hdescend⟩
    exact hjoins.unlisted (lvl + 1) id lvl ns (Nat.lt_succ_self lvl) hat (heq ▸ hb)
  obtain ⟨g', hrun, hshape, hnamed, hcomplete⟩ := connectLevels_complete env hm hjoins.complete
    hjoins.bare (hjoins.unlisted (min nodeLevel (g.addNode docId vector nodeLevel).maxLevel + 1))
    hjoins.named hjoins.fresh
    (⟨List.cons_ne_nil currEp [], List.nodup_singleton currEp, fun ep hmem =>
      (List.mem_singleton.mp hmem).symm ▸ hcurr⟩ : EntriesOk _ g.nextNodeId [currEp])
    (by rw [length_addNode h]; exact hroom)
  have hnext : g'.nextNodeId = g.nextNodeId + 1 := by
    rw [hshape.fields]
    rfl
  have hdim : g'.dim = g.dim := by
    rw [hshape.fields]
    rfl
  have hpoint : g'.entryPoint = some entry := by
    rw [hshape.fields]
    exact hentry
  have hnew : ∃ node, g'.nodes.get g.nextNodeId = some node := by
    refine hshape.present_iff.mpr ⟨.new docId g.nextNodeId vector nodeLevel, ?_⟩
    rw [get_addNode, if_pos rfl]
  have hnonempty : g'.nodes ≠ ∅ := by
    obtain ⟨node, hnode⟩ := hnew
    intro hnil
    rw [hnil] at hnode
    cases hnode
  have hsmall : g'.Small := by
    refine ⟨hshape.docs (addNode_docs h.docs h.fresh hdoc vector nodeLevel),
      iff_of_false (by simp [hpoint]) hnonempty, fun ep hep' => ?_, fun id node hget => ?_,
      hnext ▸ hnamed, hdim ▸ hshape.vectors hvectors, hcomplete⟩
    · rw [hpoint] at hep'
      cases hep'
      exact hshape.present_iff.mpr hother.2
    · obtain ⟨node', hget', -⟩ := hshape.symm.get hget
      exact hnext ▸ hjoins.fresh id node' hget'
  rw [joinNode, hdescend]
  dsimp only
  rw [hrun]
  dsimp only
  split_ifs
  · refine ⟨_, rfl, hsmall.withEntry nodeLevel (iff_of_false (by simp) hnonempty) fun ep hep' => ?_⟩
    cases hep'
    exact hnew
  · exact ⟨_, rfl, hsmall⟩

/-! ## Deletions -/

/-- Without a node that all others list, the others still list each other. -/
theorem unlinkAll_small (h : g.Small) {removed : HnswNode} (hdoc : g.docToNode.get docId = some nodeId)
    (hget : g.nodes.get nodeId = some removed) {entryPoint : Option ℕ} (maxLevel : ℕ)
    (habsent : entryPoint = none ↔ ((g.dropDoc docId nodeId).unlinkAll nodeId removed).nodes = ∅)
    (hpresent : ∀ ep, entryPoint = some ep →
      ∃ node, ((g.dropDoc docId nodeId).unlinkAll nodeId removed).nodes.get ep = some node) :
    Small { (g.dropDoc docId nodeId).unlinkAll nodeId removed with entryPoint, maxLevel } := by
  obtain ⟨hshape, hat⟩ := unlinkAll_spec nodeId removed (g.dropDoc docId nodeId)
  have hdocs := docs_of_dropDoc h.docs hdoc hshape
  have hdrop : ∀ id, id ≠ nodeId → (g.dropDoc docId nodeId).nodes.get id = g.nodes.get id :=
    fun id hne => SortedMap.get_erase_of_ne g.nodes (Ne.symm hne)
  have hkept : ∀ id node, (g.dropDoc docId nodeId).nodes.get id = some node →
      id ≠ nodeId ∧ g.nodes.get id = some node := by
    intro id node hnode
    rw [dropDoc, SortedMap.get_erase] at hnode
    split_ifs at hnode with heq
    exact ⟨Ne.symm heq, hnode⟩
  have hlists : ∀ id lvl ns, (g.dropDoc docId nodeId).neighborsAt id lvl = some ns →
      g.neighborsAt id lvl = some ns := by
    intro id lvl ns hns
    rw [neighborsAt, Option.bind_eq_some_iff] at hns ⊢
    obtain ⟨node, hnode, hns⟩ := hns
    exact ⟨node, (hkept id node hnode).2, hns⟩
  have hthere : ∀ id, (∃ node, ((g.dropDoc docId nodeId).unlinkAll nodeId removed).nodes.get id =
      some node) ↔ id ≠ nodeId ∧ ∃ node, g.nodes.get id = some node := by
    intro id
    rw [hshape.present_iff]
    constructor
    · intro hpresent
      obtain ⟨node, hnode⟩ := hpresent
      exact ⟨(hkept id node hnode).1, node, (hkept id node hnode).2⟩
    · intro hother
      obtain ⟨hne, node, hnode⟩ := hother
      exact ⟨node, (hdrop id hne).trans hnode⟩
  have hnext : ((g.dropDoc docId nodeId).unlinkAll nodeId removed).nextNodeId = g.nextNodeId := by
    rw [hshape.fields]
    rfl
  have hdim : ((g.dropDoc docId nodeId).unlinkAll nodeId removed).dim = g.dim := by
    rw [hshape.fields]
    rfl
  have hvectors := hshape.vectors fun id node hnode => h.vectors id node (hkept id node hnode).2
  generalize (g.dropDoc docId nodeId).unlinkAll nodeId removed = g' at *
  refine ⟨hdocs, habsent, hpresent, fun id node hnode => ?_, fun id lvl ns hns b hb => ?_,
    fun id node hnode => ?_, fun id hid => hid, fun id hid => ?_⟩
  · obtain ⟨-, node', hnode'⟩ := (hthere id).mp ⟨node, hnode⟩
    exact hnext.symm ▸ h.fresh id node' hnode'
  · have hns' : g'.neighborsAt id lvl = some ns := hns
    rw [hat, dropWhere] at hns'
    refine hnext.symm ▸ ?_
    split_ifs at hns'
    · obtain ⟨ns₀, hns₀, rfl⟩ := Option.map_eq_some_iff.mp hns'
      exact h.named id lvl ns₀ (hlists id lvl ns₀ hns₀) b (List.mem_of_mem_filter hb)
    · exact h.named id lvl ns (hlists id lvl ns hns') b hb
  · exact hdim.symm ▸ hvectors id node hnode
  · obtain ⟨hne, node, hnode⟩ := (hthere id).mp hid
    obtain ⟨ns, hns, hnodup, hmem⟩ := h.complete.lists id ⟨node, hnode⟩
    obtain ⟨own, hown, -, hownMem⟩ := h.complete.lists nodeId ⟨removed, hget⟩
    have hlisted : id ∈ removed.neighbors.getD 0 [] := by
      rw [neighborsAt, hget, Option.bind_some] at hown
      rw [List.getD_eq_getElem?_getD, hown]
      exact (hownMem id).mpr ⟨hne, node, hnode⟩
    have hsame : (g.dropDoc docId nodeId).neighborsAt id 0 = some ns := by
      rw [neighborsAt, hdrop id hne]
      exact hns
    refine ⟨ns.filter (· ≠ nodeId), ?_, hnodup.filter _, fun b => ?_⟩
    · refine (hat id 0).trans ?_
      rw [dropWhere, if_pos hlisted, hsame]
      rfl
    · rw [List.mem_filter, hmem, decide_eq_true_eq]
      refine Iff.trans ?_ (and_congr_right fun _ => (hthere b).symm)
      rw [and_assoc, and_comm (a := ∃ node, g.nodes.get b = some node)]

theorem delete_small (env : HnswEnv) (h : g.Small) (docId : Bytes) : (g.delete env docId).2.Small := by
  cases hdoc : g.docToNode.get docId with
  | none =>
    rw [delete_absent env hdoc]
    exact h
  | some nodeId =>
    obtain ⟨removed, hget, -, heq⟩ := delete_eq env h.docs hdoc
    obtain ⟨hshape, -⟩ := unlinkAll_spec nodeId removed (g.dropDoc docId nodeId)
    have hsmall := fun entryPoint => @unlinkAll_small g docId nodeId h removed hdoc hget entryPoint
    have hpoint : ((g.dropDoc docId nodeId).unlinkAll nodeId removed).entryPoint = g.entryPoint := by
      rw [hshape.fields]
      rfl
    have hkept : ∀ id, id ≠ nodeId → (∃ node, g.nodes.get id = some node) →
        ∃ node, ((g.dropDoc docId nodeId).unlinkAll nodeId removed).nodes.get id = some node := by
      intro id hne hold
      obtain ⟨node, hnode⟩ := hold
      exact hshape.present_iff.mpr ⟨node, (SortedMap.get_erase_of_ne g.nodes (Ne.symm hne)).trans hnode⟩
    rw [heq]
    generalize (g.dropDoc docId nodeId).unlinkAll nodeId removed = g' at *
    by_cases hentry : g.entryPoint = some nodeId
    · have hok := chooseEntry_entryOk env g'
      obtain ⟨ep, maxLevel, hfields⟩ := chooseEntry_fields env g'
      rw [if_pos hentry]
      rw [hfields] at hok ⊢
      refine hsmall ep maxLevel hok.absent fun ep' hep' => ?_
      obtain ⟨node, hnode, -⟩ := hok.present ep' hep'
      exact ⟨node, hnode⟩
    · rw [if_neg hentry]
      have hsome : g.entryPoint ≠ none := by
        intro hnone
        rw [h.absent.mp hnone] at hget
        cases hget
      have hpresent : ∀ ep, g'.entryPoint = some ep → ∃ node, g'.nodes.get ep = some node := by
        intro ep hep
        rw [hpoint] at hep
        exact hkept ep (fun heq => hentry (heq ▸ hep)) (h.present ep hep)
      refine hsmall g'.entryPoint g'.maxLevel (iff_of_false (hpoint.symm ▸ hsome) fun hempty => ?_)
        hpresent
      obtain ⟨ep, hep⟩ := Option.ne_none_iff_exists'.mp hsome
      obtain ⟨node, hnode⟩ := hpresent ep (hpoint.trans hep)
      rw [hempty] at hnode
      cases hnode

/-! ## Runs -/

theorem Small.withDim (h : g.Small) (dim : ℕ) (hempty : g.dim ≠ dim → g.nodes = ∅) :
    Small { g with dim } := by
  refine ⟨h.docs, h.absent, h.present, h.fresh, h.named, fun id node hget => ?_, h.complete.present,
    h.complete.lists⟩
  by_cases heq : g.dim = dim
  · exact heq ▸ h.vectors id node hget
  · have hget' : g.nodes.get id = some node := hget
    rw [hempty heq] at hget'
    cases hget'

theorem removeOld_small (env : HnswEnv) (h : g.Small) (docId : Bytes) :
    (g.removeOld env docId).Small ∧ (g.removeOld env docId).docToNode.get docId = none := by
  rw [removeOld]
  cases hdoc : g.docToNode.get docId with
  | none =>
    rw [if_neg (by simp [SortedMap.contains, hdoc])]
    exact ⟨h, hdoc⟩
  | some nodeId =>
    rw [if_pos (by simp [SortedMap.contains, hdoc])]
    exact ⟨delete_small env h docId, (delete_withoutDoc env h.docs hdoc).absent⟩

theorem removeOld_fields (env : HnswEnv) (h : g.Small) (docId : Bytes) :
    (g.removeOld env docId).dim = g.dim ∧ (g.removeOld env docId).m = g.m ∧
      (g.removeOld env docId).efConstruction = g.efConstruction := by
  rw [removeOld]
  split_ifs with hcontains
  · obtain ⟨nodeId, hdoc⟩ := Option.isSome_iff_exists.mp hcontains
    obtain ⟨removed, -, -, heq⟩ := delete_eq env h.docs hdoc
    obtain ⟨hshape, -⟩ := unlinkAll_spec nodeId removed (g.dropDoc docId nodeId)
    have hfields : ∀ g' : HnswGraph, SameShape (g.dropDoc docId nodeId) g' →
        g'.dim = g.dim ∧ g'.m = g.m ∧ g'.efConstruction = g.efConstruction := by
      intro g' hshape
      rw [hshape.fields]
      exact ⟨rfl, rfl, rfl⟩
    rw [heq]
    split_ifs
    · obtain ⟨ep, maxLevel, hchosen⟩ := chooseEntry_fields env
        ((g.dropDoc docId nodeId).unlinkAll nodeId removed)
      rw [hchosen]
      have hsame := hfields _ hshape
      exact hsame
    · exact hfields _ hshape
  · exact ⟨rfl, rfl, rfl⟩

/-- A non-empty vector of the dimension of the graph joins it, while there is room. -/
theorem insert_small (env : HnswEnv) (h : g.Small) (nodeLevel : ℕ) (docId : Bytes) (hne : vector ≠ [])
    (hroom : (g.insert env nodeLevel docId vector).2.nodes.length ≤ min (2 * g.m) g.efConstruction) :
    (g.insert env nodeLevel docId vector).2.Small := by
  rw [insert] at hroom ⊢
  by_cases hreject : g.dim ≠ 0 ∧ vector.length ≠ g.dim
  · rw [if_pos hreject]
    exact h
  rw [if_neg hreject] at hroom ⊢
  have hdim : (if g.dim = 0 then { g with dim := vector.length } else g).Small ∧
      vector.length = (if g.dim = 0 then { g with dim := vector.length } else g).dim ∧
      (if g.dim = 0 then { g with dim := vector.length } else g).m = g.m ∧
      (if g.dim = 0 then { g with dim := vector.length } else g).efConstruction = g.efConstruction := by
    split_ifs with hzero
    · refine ⟨h.withDim vector.length fun _ => SortedMap.ext_get fun id => ?_, rfl, rfl, rfl⟩
      cases hget : g.nodes.get id with
      | none => rfl
      | some node =>
        obtain ⟨hlen, hnonempty⟩ := h.vectors id node hget
        exact absurd (List.length_eq_zero_iff.mp (hlen.trans hzero)) hnonempty
    · exact ⟨h, not_not.mp fun hlen => hreject ⟨hzero, hlen⟩, rfl, rfl⟩
  dsimp only at hroom ⊢
  generalize (if g.dim = 0 then { g with dim := vector.length } else g) = g₀ at hdim hroom ⊢
  obtain ⟨hsmall₀, hlen₀, hm₀, hef₀⟩ := hdim
  obtain ⟨hsmall, hdoc⟩ := removeOld_small env hsmall₀ docId
  obtain ⟨hlen, hm, hef⟩ := removeOld_fields env hsmall₀ docId
  rw [← removeOld] at hroom ⊢
  rw [← hlen] at hlen₀
  rw [hm₀.symm.trans hm.symm, hef₀.symm.trans hef.symm] at hroom
  generalize g₀.removeOld env docId = g₁ at hsmall hdoc hlen₀ hroom ⊢
  cases hentry : g₁.entryPoint with
  | none =>
    have hentry' : (g₁.addNode docId vector nodeLevel).entryPoint = none := hentry
    have hempty := hsmall.absent.mp hentry
    have hjoins := addNode_joins hsmall docId vector nodeLevel
    rw [hentry']
    have honly : ∀ id, (∃ node, (g₁.addNode docId vector nodeLevel).nodes.get id = some node) ↔
        id = g₁.nextNodeId := by
      intro id
      rw [get_addNode, hempty]
      split_ifs with heq
      · exact iff_of_true ⟨_, rfl⟩ heq.symm
      · refine iff_of_false ?_ (Ne.symm heq)
        rintro ⟨node, hnode⟩
        cases hnode
    have hsingle : (g₁.addNode docId vector nodeLevel).CompleteAt 0 fun id =>
        ∃ node, (g₁.addNode docId vector nodeLevel).nodes.get id = some node := by
      refine ⟨fun id hid => hid, fun id hid => ⟨[], ?_, List.nodup_nil, fun b => ?_⟩⟩
      · rw [(honly id).mp hid]
        exact hjoins.bare
      · rw [honly b, (honly id).mp hid]
        exact iff_of_false List.not_mem_nil fun hb => hb.1 hb.2
    refine ⟨addNode_docs hsmall.docs hsmall.fresh hdoc vector nodeLevel,
      iff_of_false (by simp) fun hnil => ?_, fun ep hep => ?_, hjoins.fresh, hjoins.named,
      addNode_vectors hsmall docId nodeLevel hlen₀ hne, hsingle.present, hsingle.lists⟩
    · obtain ⟨node, hnode⟩ := (honly g₁.nextNodeId).mpr rfl
      have hnil' : (g₁.addNode docId vector nodeLevel).nodes = ∅ := hnil
      rw [hnil'] at hnode
      cases hnode
    · cases hep
      exact (honly g₁.nextNodeId).mpr rfl
  | some entry =>
    have hentry' : (g₁.addNode docId vector nodeLevel).entryPoint = some entry := hentry
    rw [hentry'] at hroom ⊢
    dsimp only at hroom ⊢
    rw [length_joinNode, length_addNode hsmall] at hroom
    obtain ⟨g', hjoin, hsmall'⟩ := joinNode_small env nodeLevel hsmall hdoc hentry hlen₀ hne hroom
    rw [hjoin]
    exact hsmall'

theorem nodup_measured (env : HnswEnv) (h : g.DocsOk) (query : List F64) :
    ((g.measured env query).map Prod.snd).Nodup := by
  rw [measured, List.map_map]
  have hentries : g.nodes.entries.Nodup := g.nodes.nodup_keys.of_map
  refine List.Nodup.map_on (fun x hx y hy heq => ?_) hentries
  have hx' := SortedMap.get_of_mem hx
  have hy' := SortedMap.get_of_mem hy
  have hid : x.1 = y.1 := by
    have hsome := (h x.2.docId x.1).mpr ⟨x.2, hx', rfl⟩
    have hdoc : x.2.docId = y.2.docId := heq
    rw [hdoc, (h y.2.docId y.1).mpr ⟨y.2, hy', rfl⟩] at hsome
    exact (Option.some.inj hsome).symm
  rw [hid, hy', Option.some.injEq] at hx'
  exact Prod.ext hid hx'.symm

theorem isNan_of_mem_measured (hnum : g.Numbers env query) {r : F64 × Bytes}
    (hr : r ∈ g.measured env query) : r.1.isNan = false := by
  obtain ⟨x, hx, rfl⟩ := List.mem_map.mp hr
  exact hnum x.1 x.2 (SortedMap.get_of_mem hx)

end HnswGraph

namespace HnswOp

def hasVector : HnswOp → Bool
  | insert _ _ vector => !vector.isEmpty
  | delete _ => true
  | clear => true

def staysSmall (env : HnswEnv) (g : HnswGraph) (op : HnswOp) : Bool :=
  decide ((op.run env g).nodes.length ≤ min (2 * g.m) g.efConstruction)

theorem run_small {env : HnswEnv} {g : HnswGraph} {op : HnswOp} (h : g.Small)
    (hvector : op.hasVector = true) (hsmall : op.staysSmall env g = true) : (op.run env g).Small := by
  cases op with
  | insert nodeLevel docId vector =>
    rw [staysSmall, decide_eq_true_eq] at hsmall
    rw [hasVector, Bool.not_eq_true', List.isEmpty_eq_false_iff] at hvector
    exact HnswGraph.insert_small env h nodeLevel docId hvector hsmall
  | delete docId => exact HnswGraph.delete_small env h docId
  | clear => exact HnswGraph.small_of_empty rfl rfl rfl

end HnswOp

theorem HnswReachable.small {env : HnswEnv} {g : HnswGraph}
    (hr : HnswReachable env (fun g op => op.hasVector && op.staysSmall env g) g) : g.Small := by
  induction hr with
  | start dim distanceMetric m efConstruction => exact HnswGraph.small_of_empty rfl rfl rfl
  | step _ hallowed ih =>
    rw [Bool.and_eq_true] at hallowed
    exact HnswOp.run_small ih hallowed.1 hallowed.2

/-- Of a small graph a search returns the nearest documents, each once and in the order of
their distances, and a scan of all vectors returns the same distances. -/
theorem searchKnn_exact {env : HnswEnv} {g : HnswGraph}
    (hr : HnswReachable env (fun g op => op.hasVector && op.staysSmall env g) g) {query : List F64}
    (hquery : query.length = g.dim) (hnum : g.Numbers env query) (k efRuntime : ℕ) :
    ∃ results, g.searchKnn env query k efRuntime = .ok results ∧
      results.length = min k g.nodes.length ∧ (results.map Prod.snd).Nodup ∧
      FirstOf (fun r => r.1.order) k (g.measured env query) results ∧
      ∀ fieldMap : List (Bytes × List F64), fieldMap.Perm g.documents →
        List.Forall₂ (fun a b => a.1.eq b.1 = true) results
          (linearScan (env.distance g.distanceMetric) query fieldMap k) := by
  have h := hr.small
  have hm := HnswGraph.measures_of_vectors env h.vectors hquery
  obtain ⟨results, hrun, hfirst⟩ := HnswGraph.searchKnn_firstOf hm hnum h.complete h.absent.mp
    h.present k efRuntime
  have hnan : ∀ {first : List (F64 × Bytes)},
      FirstOf (fun r => r.1.order) k (g.measured env query) first → ∀ r ∈ first, r.1.isNan = false := by
    intro first hfirst r hr
    obtain ⟨rest, hperm, -⟩ := hfirst.others
    exact HnswGraph.isNan_of_mem_measured hnum (hperm.mem_iff.mpr (List.mem_append_left rest hr))
  refine ⟨results, hrun, ?_, ?_, hfirst, fun fieldMap hperm => ?_⟩
  · rw [hfirst.length, HnswGraph.measured, List.length_map]
    rfl
  · obtain ⟨rest, hperm, -⟩ := hfirst.others
    have hnodup := (hperm.map Prod.snd).nodup_iff.mp (HnswGraph.nodup_measured env h.docs query)
    rw [List.map_append] at hnodup
    exact hnodup.of_append_left
  · have hscan := HnswGraph.linearScan_firstOf hm hnum hperm k
    exact HnswGraph.forall₂_eq_of_order (hnan hfirst) (hnan hscan)
      (hfirst.map_key.trans hscan.map_key.symm)

/-- Three points of a line, of which one is replaced and one is deleted. -/
theorem searchKnn_exact_line : ∃ g results,
    HnswReachable lineEnv (fun g op => op.hasVector && op.staysSmall lineEnv g) g ∧
      g.nodes.length = 2 ∧ g.searchKnn lineEnv [⟨0⟩] 1 10 = .ok results ∧ results.length = 1 := by
  have hrun : (replayHnsw lineEnv (fun g op => op.hasVector && op.staysSmall lineEnv g) (.new 1 .l2 2 10)
      [insertNumber 1, insertNumber 2, insertNumber 3, insertNumber 1, .delete [2]]).map
        (fun g => (g.nodes.length, g.dim, g.nodes.entries.all fun x =>
          !(lineEnv.distance g.distanceMetric [⟨0⟩] x.2.vector).isNan)) = some (2, 1, true) := by
    decide +kernel
  obtain ⟨g, hg, hfacts⟩ := Option.map_eq_some_iff.mp hrun
  rw [Prod.mk.injEq, Prod.mk.injEq] at hfacts
  obtain ⟨hlen, hdim, hnan⟩ := hfacts
  have hreach := HnswReachable.replay (.start 1 .l2 2 10) hg
  have hnum : g.Numbers lineEnv [⟨0⟩] := by
    intro id node hget
    have hone := List.all_eq_true.mp hnan (id, node) (SortedMap.get_eq_some.mp hget)
    rwa [Bool.not_eq_true'] at hone
  have hquery : [F64.zero].length = g.dim := hdim.symm
  obtain ⟨results, hsearch, hcount, -⟩ := searchKnn_exact hreach hquery hnum 1 10
  exact ⟨g, results, hreach, hlen, hsearch, by rw [hcount, hlen]; rfl⟩

end Wedb
