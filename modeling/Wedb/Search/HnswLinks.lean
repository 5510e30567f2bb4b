import Wedb.Search.HnswSearch

/-!
# Lists of neighbours

Linking changes lists of neighbours and nothing else about a graph. A list that is
replaced by one of distinct existing nodes of the level, within its limit, leaves
all lists well formed, and both the selection and the pruning give such lists.
-/

namespace Wedb.HnswGraph

/-- Distinct other nodes that reach the level, as many as the level allows. -/
structure ListOk (g : HnswGraph) (id lvl : ℕ) (ns : List ℕ) : Prop where
  nodup : ns.Nodup
  irrefl : id ∉ ns
  length : ns.length ≤ g.mMax lvl
  reaches : ∀ b ∈ ns, ∃ node, g.nodes.get b = some node ∧ lvl ≤ node.level

/-- Every node has one list per level up to its own, and all lists are well formed. -/
structure Linked (g : HnswGraph) : Prop where
  levels : ∀ id node, g.nodes.get id = some node →
    node.nodeId = id ∧ node.neighbors.length = node.level + 1
  lists : ∀ id lvl ns, g.neighborsAt id lvl = some ns → g.ListOk id lvl ns

def bare (node : HnswNode) : HnswNode :=
  { node with neighbors := .replicate node.neighbors.length [] }

/-- The graphs differ in lists only. -/
structure SameShape (g g' : HnswGraph) : Prop where
  fields : g' = { g with nodes := g'.nodes }
  nodes : ∀ id, (g'.nodes.get id).map bare = (g.nodes.get id).map bare

variable {env : HnswEnv} {g g' g'' : HnswGraph} {vector : List F64} {id lvl nodeId bound : ℕ}
  {ns : List ℕ} {node : HnswNode} {cands : List Candidate}

namespace SameShape

theorem refl (g : HnswGraph) : SameShape g g := ⟨rfl, fun _ => rfl⟩

theorem symm (h : SameShape g g') : SameShape g' g :=
  ⟨by rw [h.fields], fun id => (h.nodes id).symm⟩

theorem trans (h : SameShape g g') (h' : SameShape g' g'') : SameShape g g'' :=
  ⟨by rw [h'.fields, h.fields], fun id => (h'.nodes id).trans (h.nodes id)⟩

theorem get (h : SameShape g g') (hget : g.nodes.get id = some node) :
    ∃ node', g'.nodes.get id = some node' ∧ bare node' = bare node := by
  have hnodes := h.nodes id
  rw [hget, Option.map_some, Option.map_eq_some_iff] at hnodes
  exact hnodes

theorem level_get (h : SameShape g g') (hget : g.nodes.get id = some node) :
    ∃ node', g'.nodes.get id = some node' ∧ node'.level = node.level := by
  obtain ⟨node', hget', hbare⟩ := h.get hget
  have hlevel : (bare node').level = (bare node).level := by rw [hbare]
  exact ⟨node', hget', hlevel⟩

theorem levels (h : SameShape g g') (hlevels : ∀ id node, g.nodes.get id = some node →
      node.nodeId = id ∧ node.neighbors.length = node.level + 1) :
    ∀ id node, g'.nodes.get id = some node →
      node.nodeId = id ∧ node.neighbors.length = node.level + 1 := by
  intro id node' hget'
  obtain ⟨node, hget, hbare⟩ := h.symm.get hget'
  obtain ⟨hid, hlen⟩ := hlevels id node hget
  have hid' : (bare node).nodeId = (bare node').nodeId := by rw [hbare]
  have hlevel : (bare node).level = (bare node').level := by rw [hbare]
  have hlen' : (bare node).neighbors.length = (bare node').neighbors.length := by rw [hbare]
  simp only [bare, List.length_replicate] at hid' hlevel hlen'
  exact ⟨hid' ▸ hid, by omega⟩

theorem mMax (h : SameShape g g') (lvl : ℕ) : g'.mMax lvl = g.mMax lvl := by
  rw [h.fields]
  rfl

theorem listOk (h : SameShape g g') (hok : g.ListOk id lvl ns) : g'.ListOk id lvl ns := by
  refine ⟨hok.nodup, hok.irrefl, h.mMax lvl ▸ hok.length, fun b hb => ?_⟩
  obtain ⟨node, hget, hle⟩ := hok.reaches b hb
  obtain ⟨node', hget', hlevel⟩ := h.level_get hget
  exact ⟨node', hget', hlevel ▸ hle⟩

theorem measures (h : SameShape g g') (hm : g.Measures env vector) : g'.Measures env vector := by
  intro id node' hget'
  obtain ⟨node, hget, hbare⟩ := h.symm.get hget'
  obtain ⟨d, hd⟩ := hm id node hget
  have hvector : (bare node).vector = (bare node').vector := by rw [hbare]
  refine ⟨d, ?_⟩
  rw [h.fields, show node'.vector = node.vector from hvector.symm]
  exact hd

end SameShape

/-! ## Replacing a list -/

theorem get_setNeighbors (g : HnswGraph) (id lvl : ℕ) (ns : List ℕ) (id' : ℕ) :
    (g.setNeighbors id lvl ns).nodes.get id' =
      if id = id' then
        (g.nodes.get id).map fun node => { node with neighbors := node.neighbors.set lvl ns }
      else g.nodes.get id' := by
  rw [setNeighbors]
  cases hget : g.nodes.get id with
  | none =>
    split_ifs with heq
    · rw [← heq, hget]
      rfl
    · rfl
  | some node =>
    dsimp only
    rw [SortedMap.get_insert]
    rfl

theorem setNeighbors_fields (g : HnswGraph) (id lvl : ℕ) (ns : List ℕ) :
    g.setNeighbors id lvl ns = { g with nodes := (g.setNeighbors id lvl ns).nodes } := by
  rw [setNeighbors]
  cases g.nodes.get id with
  | none => rfl
  | some node => rfl

theorem setNeighbors_shape (g : HnswGraph) (id lvl : ℕ) (ns : List ℕ) :
    SameShape g (g.setNeighbors id lvl ns) := by
  refine ⟨setNeighbors_fields g id lvl ns, fun id' => ?_⟩
  rw [get_setNeighbors]
  split_ifs with heq
  · rw [← heq]
    cases g.nodes.get id with
    | none => rfl
    | some node => simp [bare]
  · rfl

theorem neighborsAt_setNeighbors (g : HnswGraph) (id lvl : ℕ) (ns : List ℕ) (id' lvl' : ℕ) :
    (g.setNeighbors id lvl ns).neighborsAt id' lvl' =
      if id = id' ∧ lvl = lvl' then (g.neighborsAt id lvl).map fun _ => ns
      else g.neighborsAt id' lvl' := by
  rw [neighborsAt, get_setNeighbors, neighborsAt, neighborsAt]
  by_cases heq : id = id'
  · subst heq
    rw [if_pos rfl]
    cases g.nodes.get id with
    | none =>
      split_ifs
      · rfl
      · rfl
    | some node =>
      simp only [Option.map_some, Option.bind_some, List.getElem?_set, true_and]
      by_cases hlvl : lvl = lvl'
      · subst hlvl
        rw [if_pos rfl, if_pos rfl]
        by_cases hlt : lvl < node.neighbors.length
        · rw [if_pos hlt, List.getElem?_eq_getElem hlt]
          rfl
        · rw [if_neg hlt, List.getElem?_eq_none (by omega)]
          rfl
      · rw [if_neg hlvl, if_neg hlvl]
  · rw [if_neg heq, if_neg fun h => heq h.1]

theorem setNeighbors_setNeighbors (g : HnswGraph) (id lvl : ℕ) (ns ns' : List ℕ) :
    (g.setNeighbors id lvl ns).setNeighbors id lvl ns' = g.setNeighbors id lvl ns' := by
  cases hget : g.nodes.get id with
  | none =>
    have hsame : ∀ ns, g.setNeighbors id lvl ns = g := fun ns => by rw [setNeighbors, hget]
    rw [hsame, hsame]
  | some node =>
    have hone : ∀ ns, g.setNeighbors id lvl ns =
        { g with nodes := g.nodes.insert id { node with neighbors := node.neighbors.set lvl ns } } :=
      fun ns => by rw [setNeighbors, hget]
    rw [hone, hone, setNeighbors]
    dsimp only
    rw [SortedMap.get_insert_self]
    dsimp only
    rw [List.set_set]
    refine congrArg (fun nodes => { g with nodes }) (SortedMap.ext_get fun a => ?_)
    rw [SortedMap.get_insert, SortedMap.get_insert, SortedMap.get_insert]
    split_ifs
    · rfl
    · rfl

theorem Linked.setNeighbors (h : g.Linked) (hns : g.ListOk id lvl ns) :
    (g.setNeighbors id lvl ns).Linked := by
  have hshape := setNeighbors_shape g id lvl ns
  refine ⟨hshape.levels h.levels, fun id' lvl' ns' hat => ?_⟩
  rw [neighborsAt_setNeighbors] at hat
  split_ifs at hat with heq
  · obtain ⟨rfl, rfl⟩ := heq
    rw [Option.map_eq_some_iff] at hat
    obtain ⟨_, -, rfl⟩ := hat
    exact hshape.listOk hns
  · exact hshape.listOk (h.lists id' lvl' ns' hat)

/-! ## Selections -/

theorem selectNeighbors_sublist (cands : List Candidate) (k : ℕ) :
    (selectNeighbors cands k).Sublist (cands.map Candidate.nodeId) :=
  (List.take_sublist k cands).map _

theorem length_selectNeighbors (cands : List Candidate) (k : ℕ) :
    (selectNeighbors cands k).length ≤ k := by
  rw [selectNeighbors, List.length_map, List.length_take]
  exact min_le_left _ _

theorem scoreOf_nodeId {base : List F64} {c : Candidate} (h : g.scoreOf env base id = some c) :
    c.nodeId = id := by
  rw [scoreOf, Option.bind_eq_some_iff] at h
  obtain ⟨node, -, hc⟩ := h
  cases hd : g.dist env base node.vector with
  | error err => simp only [hd, reduceCtorEq] at hc
  | ok d =>
    simp only [hd, Option.some.injEq] at hc
    exact hc ▸ rfl

theorem scored_sublist (env : HnswEnv) (g : HnswGraph) (base : List F64) (ids : List ℕ) :
    ((ids.filterMap (g.scoreOf env base)).map Candidate.nodeId).Sublist ids := by
  induction ids with
  | nil => exact .slnil
  | cons id ids ih =>
    cases hs : g.scoreOf env base id with
    | none =>
      rw [List.filterMap_cons_none hs]
      exact ih.cons id
    | some c =>
      rw [List.filterMap_cons_some hs, List.map_cons, scoreOf_nodeId hs]
      exact ih.cons_cons id

theorem selectNeighborsFromIds_spec (env : HnswEnv) (g : HnswGraph) (base : List F64)
    {ids : List ℕ} (hids : ids.Nodup) (k : ℕ) :
    (g.selectNeighborsFromIds env base ids k).Nodup ∧
      (g.selectNeighborsFromIds env base ids k).length ≤ k ∧
      ∀ b ∈ g.selectNeighborsFromIds env base ids k, b ∈ ids := by
  have hperm := (sortCandidates_perm (ids.filterMap (g.scoreOf env base))).map Candidate.nodeId
  have hsub := scored_sublist env g base ids
  have hsel := selectNeighbors_sublist (sortCandidates (ids.filterMap (g.scoreOf env base))) k
  exact ⟨(hperm.nodup_iff.mpr (hids.sublist hsub)).sublist hsel, length_selectNeighbors _ k,
    fun b hb => hsub.subset (hperm.mem_iff.mp (hsel.subset hb))⟩

/-! ## Linking a node -/

/-- A node other than the new one that reaches the level. -/
def OldAt (g : HnswGraph) (nodeId lvl id : ℕ) : Prop :=
  id ≠ nodeId ∧ ∃ node, g.nodes.get id = some node ∧ lvl ≤ node.level

/-- No list of the levels below a bound names the new node. -/
def Unlisted (g : HnswGraph) (nodeId bound : ℕ) : Prop :=
  ∀ id lvl ns, lvl < bound → g.neighborsAt id lvl = some ns → nodeId ∉ ns

theorem SameShape.oldAt (h : SameShape g g') (hold : g.OldAt nodeId lvl id) : g'.OldAt nodeId lvl id := by
  obtain ⟨hne, node, hget, hle⟩ := hold
  obtain ⟨node', hget', hlevel⟩ := h.level_get hget
  exact ⟨hne, node', hget', hlevel ▸ hle⟩

theorem closedAt_oldAt (hlinked : g.Linked) (hun : g.Unlisted nodeId bound) (hlvl : lvl < bound) :
    g.ClosedAt lvl (g.OldAt nodeId lvl) := fun id ns _ hat b hb =>
  ⟨fun heq => hun id lvl ns hlvl hat (heq ▸ hb), (hlinked.lists id lvl ns hat).reaches b hb⟩

theorem Unlisted.setNeighbors (h : g.Unlisted nodeId bound) (hlvl : bound ≤ lvl) :
    (g.setNeighbors id lvl ns).Unlisted nodeId bound := by
  intro id' lvl' ns' hlt hat
  rw [neighborsAt_setNeighbors, if_neg fun heq => absurd heq.2 (by omega)] at hat
  exact h id' lvl' ns' hlt hat

theorem link_eq (env : HnswEnv) (hlinked : g.Linked) (hid : id ≠ nodeId)
    (hnew : ∃ node, g.nodes.get nodeId = some node ∧ lvl ≤ node.level) :
    link env nodeId lvl g id = g ∨
      ∃ ns, link env nodeId lvl g id = g.setNeighbors id lvl ns ∧ g.ListOk id lvl ns := by
  rw [link]
  cases hget : g.nodes.get id with
  | none => exact Or.inl rfl
  | some node =>
    dsimp only
    cases hns : node.neighbors[lvl]? with
    | none => exact Or.inl rfl
    | some ns =>
      have hok : g.ListOk id lvl ns := hlinked.lists id lvl ns (by rw [neighborsAt, hget]; exact hns)
      have hmore : ∀ {ns' : List ℕ}, ns'.Nodup → (∀ b ∈ ns', b = nodeId ∨ b ∈ ns) →
          ns'.length ≤ g.mMax lvl → g.ListOk id lvl ns' := by
        intro ns' hnodup hsub hlen
        refine ⟨hnodup, fun hmem => ?_, hlen, fun b hb => ?_⟩
        · exact (hsub id hmem).elim hid hok.irrefl
        · rcases hsub b hb with rfl | hb
          · exact hnew
          · exact hok.reaches b hb
      have hnodup : (if nodeId ∈ ns then ns else ns ++ [nodeId]).Nodup := by
        split_ifs with hmem
        · exact hok.nodup
        · exact hok.nodup.append (List.nodup_singleton nodeId) (by simpa using hmem)
      have hsub : ∀ b ∈ (if nodeId ∈ ns then ns else ns ++ [nodeId]), b = nodeId ∨ b ∈ ns := by
        intro b hb
        split_ifs at hb
        · exact Or.inr hb
        · rw [List.mem_append, List.mem_singleton] at hb
          exact hb.symm
      dsimp only
      generalize (if nodeId ∈ ns then ns else ns ++ [nodeId]) = ns' at hnodup hsub
      by_cases hlong : ns'.length > (g.setNeighbors id lvl ns').mMax lvl
      · obtain ⟨hnodup', hlen', hsub'⟩ := selectNeighborsFromIds_spec env (g.setNeighbors id lvl ns')
          node.vector hnodup ((g.setNeighbors id lvl ns').mMax lvl)
        rw [if_pos hlong, setNeighbors_setNeighbors]
        refine Or.inr ⟨_, rfl, hmore hnodup' (fun b hb => hsub b (hsub' b hb)) ?_⟩
        rwa [(setNeighbors_shape g id lvl ns').mMax lvl] at hlen' ⊢
      · rw [if_neg hlong]
        rw [(setNeighbors_shape g id lvl ns').mMax lvl, not_lt] at hlong
        exact Or.inr ⟨ns', rfl, hmore hnodup hsub hlong⟩

/-- Linking keeps all lists well formed and touches those of its level only. -/
structure Links (nodeId lvl : ℕ) (g g' : HnswGraph) : Prop where
  linked : g'.Linked
  shape : SameShape g g'
  unlisted : g.Unlisted nodeId lvl → g'.Unlisted nodeId lvl

theorem Links.refl (h : g.Linked) (nodeId lvl : ℕ) : Links nodeId lvl g g := ⟨h, .refl g, id⟩

theorem Links.trans (h : Links nodeId lvl g g') (h' : Links nodeId lvl g' g'') : Links nodeId lvl g g'' :=
  ⟨h'.linked, h.shape.trans h'.shape, fun hun => h'.unlisted (h.unlisted hun)⟩

theorem Links.setNeighbors (hlinked : g.Linked) (hns : g.ListOk id lvl ns) (nodeId : ℕ) :
    Links nodeId lvl g (g.setNeighbors id lvl ns) :=
  ⟨hlinked.setNeighbors hns, setNeighbors_shape g id lvl ns, fun hun => hun.setNeighbors (le_refl lvl)⟩

theorem foldl_link (hlinked : g.Linked) {ids : List ℕ} (hids : nodeId ∉ ids)
    (hnew : ∃ node, g.nodes.get nodeId = some node ∧ lvl ≤ node.level) :
    Links nodeId lvl g (ids.foldl (link env nodeId lvl) g) := by
  induction ids generalizing g with
  | nil => exact .refl hlinked nodeId lvl
  | cons id ids ih =>
    rw [List.mem_cons, not_or] at hids
    have hone : Links nodeId lvl g (link env nodeId lvl g id) := by
      rcases link_eq env hlinked (Ne.symm hids.1) hnew with heq | ⟨ns, heq, hok⟩
      · rw [heq]
        exact .refl hlinked nodeId lvl
      · rw [heq]
        exact .setNeighbors hlinked hok nodeId
    obtain ⟨node, hget, hle⟩ := hnew
    obtain ⟨node', hget', hlevel⟩ := hone.shape.level_get hget
    rw [List.foldl_cons]
    exact hone.trans (ih hone.linked hids.2 ⟨node', hget', hlevel ▸ hle⟩)

theorem connect_links (env : HnswEnv) (hlinked : g.Linked)
    (hnew : ∃ node, g.nodes.get nodeId = some node ∧ lvl ≤ node.level)
    (hcands : ∀ c ∈ cands, g.OldAt nodeId lvl c.nodeId) (hnodup : (cands.map Candidate.nodeId).Nodup) :
    Links nodeId lvl g (g.connect env nodeId lvl cands) := by
  have hold : ∀ b ∈ selectNeighbors cands (g.mMax lvl), g.OldAt nodeId lvl b := by
    intro b hb
    obtain ⟨c, hc, rfl⟩ := List.mem_map.mp ((selectNeighbors_sublist cands _).subset hb)
    exact hcands c hc
  have hnot : nodeId ∉ selectNeighbors cands (g.mMax lvl) := fun hmem => (hold nodeId hmem).1 rfl
  have hok : g.ListOk nodeId lvl (selectNeighbors cands (g.mMax lvl)) :=
    ⟨hnodup.sublist (selectNeighbors_sublist cands _), hnot, length_selectNeighbors cands _,
      fun b hb => (hold b hb).2⟩
  have hset := Links.setNeighbors hlinked hok nodeId
  obtain ⟨node, hget, hle⟩ := hnew
  obtain ⟨node', hget', hlevel⟩ := hset.shape.level_get hget
  exact hset.trans (foldl_link hset.linked hnot ⟨node', hget', hlevel ▸ hle⟩)

theorem searchLayerInternal_oldAt {eps : List ℕ} {ef : ℕ} (hlinked : g.Linked)
    (hun : g.Unlisted nodeId (lvl + 1)) (heps : ∀ ep ∈ eps, g.OldAt nodeId lvl ep) (hnodup : eps.Nodup)
    (hrun : g.searchLayerInternal env vector eps ef lvl = .ok cands) :
    (∀ c ∈ cands, g.OldAt nodeId lvl c.nodeId) ∧ (cands.map Candidate.nodeId).Nodup :=
  searchLayerInternal_keeps (closedAt_oldAt hlinked hun (Nat.lt_succ_self lvl)) heps hnodup hrun

variable (env vector) in
theorem connectLevels_links {eps : List ℕ} (hlinked : g.Linked) (hun : g.Unlisted nodeId bound)
    (hnew : ∃ node, g.nodes.get nodeId = some node ∧ bound ≤ node.level + 1)
    (heps : ∀ ep ∈ eps, g.OldAt nodeId (bound - 1) ep) (hnodup : eps.Nodup) :
    (connectLevels env vector nodeId bound eps g).2.Linked ∧
      SameShape g (connectLevels env vector nodeId bound eps g).2 := by
  induction bound generalizing g eps with
  | zero => exact ⟨hlinked, .refl g⟩
  | succ lvl ih =>
    rw [connectLevels]
    cases hsearch : g.searchLayerInternal env vector eps g.efConstruction lvl with
    | error err => exact ⟨hlinked, .refl g⟩
    | ok cands =>
      obtain ⟨hcands, hnodup'⟩ := searchLayerInternal_oldAt hlinked hun heps hnodup hsearch
      obtain ⟨node, hget, hle⟩ := hnew
      have hlinks := connect_links env hlinked ⟨node, hget, by omega⟩ hcands hnodup'
      obtain ⟨node', hget', hlevel⟩ := hlinks.shape.level_get hget
      have heps' : ∀ ep ∈ cands.map Candidate.nodeId,
          (g.connect env nodeId lvl cands).OldAt nodeId (lvl - 1) ep := fun ep hep => ?_
      · have hrest := ih hlinks.linked (hlinks.unlisted fun id k ns hk => hun id k ns (by omega))
          ⟨node', hget', by omega⟩ heps' hnodup'
        exact ⟨hrest.1, hlinks.shape.trans hrest.2⟩
      · obtain ⟨c, hc, rfl⟩ := List.mem_map.mp hep
        obtain ⟨hne, node, hget, hle⟩ := hlinks.shape.oldAt (hcands c hc)
        exact ⟨hne, node, hget, by omega⟩

theorem link_shape (env : HnswEnv) (nodeId lvl : ℕ) (g : HnswGraph) (id : ℕ) :
    SameShape g (link env nodeId lvl g id) := by
  rw [link]
  cases g.nodes.get id with
  | none => exact .refl g
  | some node =>
    dsimp only
    cases node.neighbors[lvl]? with
    | none => exact .refl g
    | some ns =>
      dsimp only
      generalize (if nodeId ∈ ns then ns else ns ++ [nodeId]) = ns'
      have hone := setNeighbors_shape g id lvl ns'
      by_cases hlong : ns'.length > (g.setNeighbors id lvl ns').mMax lvl
      · rw [if_pos hlong]
        exact hone.trans (setNeighbors_shape _ id lvl _)
      · rw [if_neg hlong]
        exact hone

theorem connect_shape (env : HnswEnv) (g : HnswGraph) (nodeId lvl : ℕ) (cands : List Candidate) :
    SameShape g (g.connect env nodeId lvl cands) := by
  have hfold : ∀ (ids : List ℕ) (g' : HnswGraph), SameShape g g' →
      SameShape g (ids.foldl (link env nodeId lvl) g') := by
    intro ids
    induction ids with
    | nil => exact fun _ h => h
    | cons id ids ih => exact fun g' h => ih _ (h.trans (link_shape env nodeId lvl g' id))
  exact hfold _ _ (setNeighbors_shape g nodeId lvl _)

theorem connectLevels_isOk (hm : g.Measures env vector) (nodeId bound : ℕ) (eps : List ℕ) :
    (connectLevels env vector nodeId bound eps g).1 = .ok () := by
  induction bound generalizing g eps with
  | zero => rfl
  | succ lvl ih =>
    obtain ⟨cands, hcands⟩ := searchLayerInternal_isOk hm eps g.efConstruction lvl
    rw [connectLevels, hcands]
    exact ih ((connect_shape env g nodeId lvl cands).measures hm) _

end Wedb.HnswGraph
