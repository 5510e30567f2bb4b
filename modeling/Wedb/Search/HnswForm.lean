import Wedb.Search.HnswLinks

/-!
# Well formed graphs

Documents and nodes are in bijection, the entry is a node of the highest level, and
all lists are well formed. An insertion keeps this where the distances it needs are
defined, and a deletion where the removed node lists every node that lists it.
-/

namespace Wedb.HnswGraph

/-- The entry point exists if there are nodes and is of the highest level. -/
structure EntryOk (g : HnswGraph) : Prop where
  absent : g.entryPoint = none ↔ g.nodes = ∅
  present : ∀ ep, g.entryPoint = some ep → ∃ node, g.nodes.get ep = some node ∧ node.level = g.maxLevel
  highest : ∀ id node, g.nodes.get id = some node → node.level ≤ g.maxLevel

/-- Every document has one node, and the node is its own. -/
def DocsOk (g : HnswGraph) : Prop :=
  ∀ docId id, g.docToNode.get docId = some id ↔
    ∃ node, g.nodes.get id = some node ∧ node.docId = docId

structure WellFormed (g : HnswGraph) : Prop where
  docs : ∀ docId id, g.docToNode.get docId = some id ↔
    ∃ node, g.nodes.get id = some node ∧ node.docId = docId
  entry : g.EntryOk
  linked : g.Linked

/-- A well formed graph whose next number is unused. -/
structure Inv (g : HnswGraph) : Prop extends WellFormed g where
  fresh : ∀ id node, g.nodes.get id = some node → id < g.nextNodeId

def isMutual (g : HnswGraph) (docId : Bytes) : Bool :=
  match g.docToNode.get docId with
  | none => true
  | some nodeId =>
    match g.nodes.get nodeId with
    | none => true
    | some removed => g.nodes.entries.all fun x => x.2.neighbors.zipIdx.all fun y =>
        !y.1.contains nodeId || (removed.neighbors.getD y.2 []).contains x.1

def isMeasurable (g : HnswGraph) (docId : Bytes) (vector : List F64) : Bool :=
  g.nodes.entries.all fun x =>
    x.2.docId == docId || (vector.length == x.2.vector.length && !vector.isEmpty)

def rejects (g : HnswGraph) (vector : List F64) : Bool :=
  decide (g.dim ≠ 0 ∧ vector.length ≠ g.dim)

variable {env : HnswEnv} {g g' : HnswGraph} {vector : List F64} {id lvl nodeId : ℕ} {docId : Bytes}
  {ns : List ℕ} {node removed : HnswNode}

/-! ## Taking a node out of lists -/

theorem unlink_shape (nodeId lvl : ℕ) (g : HnswGraph) (b : ℕ) : SameShape g (unlink nodeId lvl g b) := by
  rw [unlink]
  cases g.neighborsAt b lvl with
  | none => exact .refl g
  | some ns => exact setNeighbors_shape g b lvl _

def dropWhere (nodeId : ℕ) (p : Prop) [Decidable p] (o : Option (List ℕ)) : Option (List ℕ) :=
  if p then o.map fun ns => ns.filter (· ≠ nodeId) else o

section
variable {p q : Prop} [Decidable p] [Decidable q]

theorem dropWhere_dropWhere (nodeId : ℕ) (o : Option (List ℕ)) :
    dropWhere nodeId q (dropWhere nodeId p o) = dropWhere nodeId (p ∨ q) o := by
  rw [dropWhere, dropWhere, dropWhere]
  by_cases hp : p
  · rw [if_pos hp, if_pos (Or.inl hp)]
    cases o with
    | none => exact ite_self none
    | some ns => simp
  · rw [if_neg hp]
    simp only [hp, false_or]

theorem dropWhere_congr (nodeId : ℕ) (o : Option (List ℕ)) (h : p ↔ q) :
    dropWhere nodeId p o = dropWhere nodeId q o :=
  if_congr h rfl rfl

end

theorem neighborsAt_unlink (nodeId lvl : ℕ) (g : HnswGraph) (b id lvl' : ℕ) :
    (unlink nodeId lvl g b).neighborsAt id lvl' =
      dropWhere nodeId (lvl = lvl' ∧ id = b) (g.neighborsAt id lvl') := by
  rw [unlink, dropWhere]
  cases hat : g.neighborsAt b lvl with
  | none =>
    split_ifs with heq
    · rw [← heq.1, heq.2, hat]
      rfl
    · rfl
  | some ns =>
    dsimp only
    rw [neighborsAt_setNeighbors, hat]
    by_cases heq : lvl = lvl' ∧ id = b
    · rw [if_pos heq, if_pos ⟨heq.2.symm, heq.1⟩, ← heq.1, heq.2, hat]
      rfl
    · rw [if_neg heq, if_neg fun h => heq ⟨h.2, h.1.symm⟩]

theorem foldl_unlink (nodeId lvl : ℕ) (bs : List ℕ) (g : HnswGraph) :
    SameShape g (bs.foldl (unlink nodeId lvl) g) ∧ ∀ id lvl',
      (bs.foldl (unlink nodeId lvl) g).neighborsAt id lvl' =
        dropWhere nodeId (lvl = lvl' ∧ id ∈ bs) (g.neighborsAt id lvl') := by
  induction bs generalizing g with
  | nil => exact ⟨.refl g, fun id lvl' => (if_neg fun h => List.not_mem_nil h.2).symm⟩
  | cons b bs ih =>
    obtain ⟨hshape, hat⟩ := ih (unlink nodeId lvl g b)
    refine ⟨(unlink_shape nodeId lvl g b).trans hshape, fun id lvl' => ?_⟩
    rw [List.foldl_cons, hat, neighborsAt_unlink, dropWhere_dropWhere]
    exact dropWhere_congr nodeId _ (by rw [List.mem_cons, and_or_left])

/-- The removed node leaves the lists of the nodes that it lists, level by level. -/
theorem unlinkAll_spec (nodeId : ℕ) (removed : HnswNode) (g : HnswGraph) :
    SameShape g (g.unlinkAll nodeId removed) ∧ ∀ id lvl,
      (g.unlinkAll nodeId removed).neighborsAt id lvl =
        dropWhere nodeId (id ∈ removed.neighbors.getD lvl []) (g.neighborsAt id lvl) := by
  have hfold : ∀ (xs : List (List ℕ × ℕ)) (g : HnswGraph),
      SameShape g (xs.foldl (fun g x => x.1.foldl (unlink nodeId x.2) g) g) ∧ ∀ id lvl,
        (xs.foldl (fun g x => x.1.foldl (unlink nodeId x.2) g) g).neighborsAt id lvl =
          dropWhere nodeId (∃ x ∈ xs, x.2 = lvl ∧ id ∈ x.1) (g.neighborsAt id lvl) := by
    intro xs
    induction xs with
    | nil => exact fun g => ⟨.refl g, fun id lvl => (if_neg (by simp)).symm⟩
    | cons x xs ih =>
      intro g
      obtain ⟨hshape, hat⟩ := foldl_unlink nodeId x.2 x.1 g
      obtain ⟨hshape', hat'⟩ := ih (x.1.foldl (unlink nodeId x.2) g)
      refine ⟨hshape.trans hshape', fun id lvl => ?_⟩
      rw [List.foldl_cons, hat', hat, dropWhere_dropWhere]
      exact dropWhere_congr nodeId _ (by simp only [List.exists_mem_cons_iff])
  obtain ⟨hshape, hat⟩ := hfold removed.neighbors.zipIdx g
  refine ⟨hshape, fun id lvl => (hat id lvl).trans (dropWhere_congr nodeId _ ?_)⟩
  rw [List.getD_eq_getElem?_getD]
  constructor
  · intro ⟨⟨ns, k⟩, hmem, hk, hid⟩
    rw [List.mk_mem_zipIdx_iff_getElem?] at hmem
    dsimp only at hk
    rw [← hk, hmem]
    exact hid
  · intro hid
    cases hns : removed.neighbors[lvl]? with
    | none =>
      rw [hns] at hid
      exact (List.not_mem_nil hid).elim
    | some ns =>
      rw [hns] at hid
      exact ⟨(ns, lvl), List.mk_mem_zipIdx_iff_getElem?.mpr hns, rfl, hid⟩

/-! ## Choosing an entry -/

theorem foldl_bestStep (xs : List (ℕ × HnswNode)) (id : ℕ) (lvl : ℕ) :
    (xs.foldl bestStep (some id, lvl) = (some id, lvl) ∨
      ∃ x ∈ xs, xs.foldl bestStep (some id, lvl) = (some x.1, x.2.level)) ∧
    lvl ≤ (xs.foldl bestStep (some id, lvl)).2 ∧
    ∀ x ∈ xs, x.2.level ≤ (xs.foldl bestStep (some id, lvl)).2 := by
  induction xs generalizing id lvl with
  | nil => exact ⟨Or.inl rfl, le_refl lvl, fun _ hx => (List.not_mem_nil hx).elim⟩
  | cons x xs ih =>
    rw [List.foldl_cons, bestStep]
    by_cases hbest : x.2.level ≥ lvl
    · rw [if_pos (Or.inr hbest)]
      obtain ⟨hfrom, hle, hall⟩ := ih x.1 x.2.level
      refine ⟨Or.inr ?_, hbest.trans hle, fun y hy => ?_⟩
      · rcases hfrom with heq | ⟨y, hy, heq⟩
        · exact ⟨x, List.mem_cons_self, heq⟩
        · exact ⟨y, List.mem_cons_of_mem _ hy, heq⟩
      · rcases List.mem_cons.mp hy with rfl | hy
        · exact hle
        · exact hall y hy
    · rw [if_neg (by simpa using hbest)]
      obtain ⟨hfrom, hle, hall⟩ := ih id lvl
      refine ⟨?_, hle, fun y hy => ?_⟩
      · rcases hfrom with heq | ⟨y, hy, heq⟩
        · exact Or.inl heq
        · exact Or.inr ⟨y, List.mem_cons_of_mem _ hy, heq⟩
      · rcases List.mem_cons.mp hy with rfl | hy
        · exact (not_le.mp hbest).le.trans hle
        · exact hall y hy

theorem chooseEntry_entryOk (env : HnswEnv) (g : HnswGraph) : (g.chooseEntry env).EntryOk := by
  rw [chooseEntry]
  by_cases hempty : g.nodes.isEmpty = true
  · rw [if_pos hempty]
    have hnodes : g.nodes = ∅ := SortedMap.ext_get fun a => SortedMap.get_of_isEmpty hempty a
    refine ⟨iff_of_true rfl hnodes, fun ep hep => ?_, fun id node hget => ?_⟩
    · cases hep
    · rw [SortedMap.get_of_isEmpty hempty] at hget
      cases hget
  · rw [if_neg hempty]
    have hmem := fun x => (env.walk_perm g.nodes).mem_iff (a := x)
    cases hwalk : env.walk g.nodes with
    | nil =>
      rw [hwalk] at hmem
      refine absurd ?_ hempty
      rw [SortedMap.isEmpty, List.isEmpty_iff]
      exact List.eq_nil_iff_forall_not_mem.mpr fun x hx => List.not_mem_nil ((hmem x).mpr hx)
    | cons x xs =>
      rw [hwalk] at hmem
      have hstart : (x :: xs).foldl bestStep (none, 0) = xs.foldl bestStep (some x.1, x.2.level) := by
        rw [List.foldl_cons]
        rfl
      obtain ⟨hfrom, hle, hall⟩ := foldl_bestStep xs x.1 x.2.level
      rw [hstart]
      dsimp only
      have hchosen : ∃ y, y ∈ g.nodes.entries ∧
          xs.foldl bestStep (some x.1, x.2.level) = (some y.1, y.2.level) := by
        rcases hfrom with heq | ⟨y, hy, heq⟩
        · exact ⟨x, (hmem x).mp List.mem_cons_self, heq⟩
        · exact ⟨y, (hmem y).mp (List.mem_cons_of_mem _ hy), heq⟩
      obtain ⟨y, hy, heq⟩ := hchosen
      rw [heq] at hle hall ⊢
      refine ⟨iff_of_false (by simp) fun hnone => ?_, fun ep hep => ?_, fun id node hget => ?_⟩
      · exact hempty (congrArg SortedMap.isEmpty hnone)
      · cases hep
        exact ⟨y.2, SortedMap.get_of_mem hy, rfl⟩
      · rcases List.mem_cons.mp ((hmem (id, node)).mpr (SortedMap.get_eq_some.mp hget)) with heq | hx
        · rw [← heq] at hle
          exact hle
        · exact hall _ hx

/-! ## Deletions -/

def dropDoc (g : HnswGraph) (docId : Bytes) (nodeId : ℕ) : HnswGraph :=
  { g with docToNode := g.docToNode.erase docId, nodes := g.nodes.erase nodeId }

theorem delete_eq (env : HnswEnv) (h : g.DocsOk) (hdoc : g.docToNode.get docId = some nodeId) :
    ∃ removed, g.nodes.get nodeId = some removed ∧ removed.docId = docId ∧
      (g.delete env docId).2 =
        if g.entryPoint = some nodeId then
          ((g.dropDoc docId nodeId).unlinkAll nodeId removed).chooseEntry env
        else (g.dropDoc docId nodeId).unlinkAll nodeId removed := by
  obtain ⟨removed, hget, hremoved⟩ := (h docId nodeId).mp hdoc
  have hentry : ((g.dropDoc docId nodeId).unlinkAll nodeId removed).entryPoint = g.entryPoint := by
    rw [(unlinkAll_spec nodeId removed (g.dropDoc docId nodeId)).1.fields]
    rfl
  refine ⟨removed, hget, hremoved, ?_⟩
  rw [← hentry, delete, hdoc]
  simp only [hget]
  rfl

theorem delete_absent (env : HnswEnv) (hdoc : g.docToNode.get docId = none) :
    g.delete env docId = (false, g) := by
  rw [delete, hdoc]

theorem isMutual_spec (h : g.isMutual docId = true) (hdoc : g.docToNode.get docId = some nodeId)
    (hget : g.nodes.get nodeId = some removed) (hat : g.neighborsAt id lvl = some ns)
    (hmem : nodeId ∈ ns) : id ∈ removed.neighbors.getD lvl [] := by
  rw [neighborsAt, Option.bind_eq_some_iff] at hat
  obtain ⟨node, hnode, hns⟩ := hat
  simp only [isMutual, hdoc, hget, List.all_eq_true] at h
  have hone := h (id, node) (SortedMap.get_eq_some.mp hnode) (ns, lvl)
    (List.mk_mem_zipIdx_iff_getElem?.mpr hns)
  simpa [hmem] using hone

/-- What is left of a document's graph: the other nodes, with the node in no list. -/
structure Removes (g g' : HnswGraph) (docId : Bytes) (nodeId : ℕ) : Prop where
  shape : SameShape (g.dropDoc docId nodeId) g'
  linked : g'.Linked

theorem unlinkAll_removes (h : g.WellFormed) (hmutual : g.isMutual docId = true)
    (hdoc : g.docToNode.get docId = some nodeId) (hget : g.nodes.get nodeId = some removed) :
    Removes g ((g.dropDoc docId nodeId).unlinkAll nodeId removed) docId nodeId := by
  obtain ⟨hshape, hat⟩ := unlinkAll_spec nodeId removed (g.dropDoc docId nodeId)
  have hkept : ∀ id, id ≠ nodeId → (g.dropDoc docId nodeId).nodes.get id = g.nodes.get id :=
    fun id hne => SortedMap.get_erase_of_ne g.nodes (Ne.symm hne)
  have hne : ∀ id node, (g.dropDoc docId nodeId).nodes.get id = some node → id ≠ nodeId := by
    rintro id node hnode rfl
    rw [dropDoc, SortedMap.get_erase_self] at hnode
    cases hnode
  refine ⟨hshape, hshape.levels fun id node hnode => ?_, fun id lvl ns hns => ?_⟩
  · exact h.linked.levels id node ((hkept id (hne id node hnode)).symm.trans hnode)
  · rw [hat, dropWhere] at hns
    have hold : ∀ ns, (g.dropDoc docId nodeId).neighborsAt id lvl = some ns →
        g.neighborsAt id lvl = some ns := by
      intro ns hns
      rw [neighborsAt, Option.bind_eq_some_iff] at hns
      obtain ⟨node, hnode, hlist⟩ := hns
      rw [neighborsAt, ← hkept id (hne id node hnode), hnode]
      exact hlist
    have hclean : ∀ ns ns', g.neighborsAt id lvl = some ns → ns'.Sublist ns → nodeId ∉ ns' →
        (g.dropDoc docId nodeId).ListOk id lvl ns' := by
      intro ns ns' hns hsub hnot
      have hok := h.linked.lists id lvl ns hns
      refine ⟨hok.nodup.sublist hsub, fun hmem => hok.irrefl (hsub.subset hmem),
        hsub.length_le.trans hok.length, fun b hb => ?_⟩
      rw [hkept b fun heq => hnot (heq ▸ hb)]
      exact hok.reaches b (hsub.subset hb)
    refine hshape.listOk ?_
    split_ifs at hns with hlisted
    · rw [Option.map_eq_some_iff] at hns
      obtain ⟨ns₀, hns₀, rfl⟩ := hns
      exact hclean ns₀ _ (hold ns₀ hns₀) List.filter_sublist (by simp)
    · exact hclean ns ns (hold ns hns) (.refl ns) fun hmem =>
        hlisted (isMutual_spec hmutual hdoc hget (hold ns hns) hmem)

theorem docs_of_dropDoc (h : g.DocsOk) (hdoc : g.docToNode.get docId = some nodeId)
    (hshape : SameShape (g.dropDoc docId nodeId) g') : g'.DocsOk := by
  intro doc id
  have hmap : g'.docToNode = g.docToNode.erase docId := by
    rw [hshape.fields]
    rfl
  obtain ⟨removed, hget, hremoved⟩ := (h docId nodeId).mp hdoc
  rw [hmap, SortedMap.get_erase]
  constructor
  · intro hsome
    split_ifs at hsome with heq
    obtain ⟨node, hnode, hid⟩ := (h doc id).mp hsome
    have hne : nodeId ≠ id := by
      rintro rfl
      rw [hget] at hnode
      cases hnode
      exact heq (hremoved.symm.trans hid)
    obtain ⟨node', hnode', hbare⟩ := hshape.get
      ((SortedMap.get_erase_of_ne g.nodes hne).trans hnode)
    have hid' : (bare node').docId = (bare node).docId := by rw [hbare]
    exact ⟨node', hnode', Eq.trans hid' hid⟩
  · intro ⟨node', hnode', hid'⟩
    obtain ⟨node, hnode, hbare⟩ := hshape.symm.get hnode'
    rw [dropDoc, SortedMap.get_erase] at hnode
    split_ifs at hnode with heq
    have hid : (bare node).docId = (bare node').docId := by rw [hbare]
    have hsome := (h doc id).mpr ⟨node, hnode, Eq.trans hid hid'⟩
    rw [if_neg ?_, hsome]
    rintro rfl
    rw [hdoc] at hsome
    exact heq (Option.some.inj hsome)

theorem Linked.congr (h : g.Linked) (hnodes : g'.nodes = g.nodes) (hm : g'.m = g.m) : g'.Linked := by
  have hshape : ∀ id lvl ns, g.ListOk id lvl ns → g'.ListOk id lvl ns := fun id lvl ns hok =>
    ⟨hok.nodup, hok.irrefl, by rw [mMax, hm]; exact hok.length, fun b hb => hnodes ▸ hok.reaches b hb⟩
  refine ⟨hnodes ▸ h.levels, fun id lvl ns hat => hshape id lvl ns (h.lists id lvl ns ?_)⟩
  rw [neighborsAt, hnodes] at hat
  exact hat

theorem chooseEntry_fields (env : HnswEnv) (g : HnswGraph) :
    ∃ entryPoint maxLevel, g.chooseEntry env = { g with entryPoint, maxLevel } := by
  rw [chooseEntry]
  split_ifs
  · exact ⟨_, _, rfl⟩
  · exact ⟨_, _, rfl⟩

theorem Removes.entryOk (h : g.WellFormed) (hr : Removes g g' docId nodeId)
    (hget : g.nodes.get nodeId = some removed) (hentry : g.entryPoint ≠ some nodeId) : g'.EntryOk := by
  have hfields := hr.shape.fields
  have hep : g'.entryPoint = g.entryPoint := by rw [hfields]; rfl
  have hmax : g'.maxLevel = g.maxLevel := by rw [hfields]; rfl
  have hpresent : ∀ ep, g.entryPoint = some ep →
      ∃ node, g'.nodes.get ep = some node ∧ node.level = g.maxLevel := by
    intro ep hsome
    obtain ⟨node, hnode, hlevel⟩ := h.entry.present ep hsome
    have hne : nodeId ≠ ep := fun heq => hentry (heq ▸ hsome)
    obtain ⟨node', hnode', hlevel'⟩ := hr.shape.level_get
      ((SortedMap.get_erase_of_ne g.nodes hne).trans hnode)
    exact ⟨node', hnode', hlevel'.trans hlevel⟩
  have hsome : g.entryPoint ≠ none := by
    intro hnone
    rw [h.entry.absent.mp hnone] at hget
    cases hget
  refine ⟨iff_of_false (hep ▸ hsome) fun hempty => ?_, fun ep hep' => ?_, fun id node hnode => ?_⟩
  · obtain ⟨ep, hepg⟩ := Option.ne_none_iff_exists'.mp hsome
    obtain ⟨node, hnode, -⟩ := hpresent ep hepg
    rw [hempty] at hnode
    cases hnode
  · rw [hmax]
    exact hpresent ep (hep ▸ hep')
  · obtain ⟨node', hnode', hlevel⟩ := hr.shape.symm.level_get hnode
    rw [dropDoc, SortedMap.get_erase] at hnode'
    split_ifs at hnode'
    rw [hmax, ← hlevel]
    exact h.entry.highest id node' hnode'

theorem delete_inv (env : HnswEnv) (h : g.Inv) (hmutual : g.isMutual docId = true) :
    (g.delete env docId).2.Inv := by
  cases hdoc : g.docToNode.get docId with
  | none =>
    rw [delete_absent env hdoc]
    exact h
  | some nodeId =>
    obtain ⟨removed, hget, -, heq⟩ := delete_eq env h.docs hdoc
    have hr := unlinkAll_removes h.toWellFormed hmutual hdoc hget
    have hfresh : ∀ id node, ((g.dropDoc docId nodeId).unlinkAll nodeId removed).nodes.get id = some node →
        id < g.nextNodeId := by
      intro id node hnode
      obtain ⟨node', hnode', -⟩ := hr.shape.symm.get hnode
      rw [dropDoc, SortedMap.get_erase] at hnode'
      split_ifs at hnode'
      exact h.fresh id node' hnode'
    have hnext : ((g.dropDoc docId nodeId).unlinkAll nodeId removed).nextNodeId = g.nextNodeId := by
      rw [hr.shape.fields]
      rfl
    have hdocs := docs_of_dropDoc h.docs hdoc hr.shape
    rw [heq]
    generalize (g.dropDoc docId nodeId).unlinkAll nodeId removed = g' at hr hfresh hnext hdocs
    by_cases hentry : g.entryPoint = some nodeId
    · have hok := chooseEntry_entryOk env g'
      obtain ⟨ep, maxLevel, hfields⟩ := chooseEntry_fields env g'
      rw [if_pos hentry]
      rw [hfields] at hok ⊢
      exact ⟨⟨hdocs, hok, hr.linked.congr rfl rfl⟩, hnext ▸ hfresh⟩
    · rw [if_neg hentry]
      exact ⟨⟨hdocs, hr.entryOk h.toWellFormed hget hentry, hr.linked⟩, hnext ▸ hfresh⟩

/-! ## Insertions -/

theorem get_addNode (g : HnswGraph) (docId : Bytes) (vector : List F64) (nodeLevel id : ℕ) :
    (g.addNode docId vector nodeLevel).nodes.get id =
      if g.nextNodeId = id then some (.new docId g.nextNodeId vector nodeLevel)
      else g.nodes.get id := SortedMap.get_insert _ _ _ _

theorem neighborsAt_addNode {nodeLevel : ℕ}
    (hat : (g.addNode docId vector nodeLevel).neighborsAt id lvl = some ns) :
    ns = [] ∨ g.neighborsAt id lvl = some ns := by
  rw [neighborsAt, get_addNode] at hat
  split_ifs at hat
  · rw [Option.bind_some, HnswNode.new, List.getElem?_replicate] at hat
    split_ifs at hat
    exact Or.inl (Option.some.inj hat).symm
  · exact Or.inr hat

theorem addNode_linked (h : g.Inv) (docId : Bytes) (vector : List F64) (nodeLevel : ℕ) :
    (g.addNode docId vector nodeLevel).Linked ∧
      ∀ bound, (g.addNode docId vector nodeLevel).Unlisted g.nextNodeId bound := by
  have hkeep : ∀ id node, g.nodes.get id = some node →
      (g.addNode docId vector nodeLevel).nodes.get id = some node := by
    intro id node hget
    rw [get_addNode, if_neg fun heq => absurd (h.fresh id node hget) (by omega)]
    exact hget
  refine ⟨⟨fun id node hget => ?_, fun id lvl ns hat => ?_⟩, fun bound id lvl ns _ hat hmem => ?_⟩
  · rw [get_addNode] at hget
    split_ifs at hget with heq
    · cases hget
      exact ⟨heq, List.length_replicate⟩
    · exact h.linked.levels id node hget
  · rcases neighborsAt_addNode hat with rfl | hat
    · exact ⟨.nil, List.not_mem_nil, Nat.zero_le _, fun b hb => (List.not_mem_nil hb).elim⟩
    · have hok := h.linked.lists id lvl ns hat
      refine ⟨hok.nodup, hok.irrefl, hok.length, fun b hb => ?_⟩
      obtain ⟨node, hget, hle⟩ := hok.reaches b hb
      exact ⟨node, hkeep b node hget, hle⟩
  · rcases neighborsAt_addNode hat with rfl | hat
    · exact List.not_mem_nil hmem
    · obtain ⟨node, hget, -⟩ := (h.linked.lists id lvl ns hat).reaches _ hmem
      exact absurd (h.fresh _ node hget) (lt_irrefl _)

theorem addNode_docs (h : g.DocsOk) (hfresh : ∀ id node, g.nodes.get id = some node → id < g.nextNodeId)
    (hdoc : g.docToNode.get docId = none) (vector : List F64) (nodeLevel : ℕ) :
    (g.addNode docId vector nodeLevel).DocsOk := by
  intro doc id
  rw [get_addNode]
  by_cases heq : docId = doc
  · have hself : (g.addNode docId vector nodeLevel).docToNode.get doc = some g.nextNodeId :=
      heq ▸ SortedMap.get_insert_self _ _ _
    rw [hself]
    by_cases hid : g.nextNodeId = id
    · rw [if_pos hid, hid]
      exact iff_of_true rfl ⟨_, rfl, heq⟩
    · rw [if_neg hid, ← h doc id, ← heq, hdoc]
      exact iff_of_false (fun hsome => hid (Option.some.inj hsome)) (by simp)
  · have hother : (g.addNode docId vector nodeLevel).docToNode.get doc = g.docToNode.get doc :=
      SortedMap.get_insert_of_ne _ _ heq
    rw [hother]
    by_cases hid : g.nextNodeId = id
    · rw [if_pos hid]
      refine iff_of_false (fun hsome => ?_) fun ⟨node, hnode, hdoc'⟩ => ?_
      · obtain ⟨node, hget, -⟩ := (h doc id).mp hsome
        exact absurd (hfresh id node hget) (by omega)
      · cases hnode
        exact heq hdoc'
    · rw [if_neg hid]
      exact h doc id

/-- Joining links the new node level by level and may make it the entry. -/
theorem joinNode_spec {nodeLevel entry : ℕ} (hlinked : g.Linked)
    (hun : ∀ bound, g.Unlisted nodeId bound) (hnew : g.nodes.get nodeId = some node)
    (hlevel : node.level = nodeLevel) (hentry : g.OldAt nodeId g.maxLevel entry)
    (hm : g.Measures env vector) :
    ∃ g', g.joinNode env vector nodeId nodeLevel entry = (.ok nodeId,
        if nodeLevel > g.maxLevel then { g' with maxLevel := nodeLevel, entryPoint := some nodeId }
        else g') ∧ g'.Linked ∧ SameShape g g' := by
  obtain ⟨currEp, hdescend⟩ := descend_isOk hm nodeLevel entry
  have hold : g.OldAt nodeId (min nodeLevel g.maxLevel) currEp := by
    refine descend_keeps (fun lvl hlvl id ns _ hat b hb => ?_) ?_ hdescend
    · obtain ⟨node, hget, hle⟩ := (hlinked.lists id lvl ns hat).reaches b hb
      exact ⟨fun heq => hun (lvl + 1) id lvl ns (Nat.lt_succ_self lvl) hat (heq ▸ hb), node, hget, by omega⟩
    · obtain ⟨hne, node, hget, hle⟩ := hentry
      exact ⟨hne, node, hget, by omega⟩
  obtain ⟨hlinked', hshape⟩ := connectLevels_links env vector hlinked
    (hun (min nodeLevel g.maxLevel + 1)) ⟨node, hnew, by omega⟩
    (fun ep hep => (List.mem_singleton.mp hep).symm ▸ hold) (List.nodup_singleton currEp)
  have hok := connectLevels_isOk hm nodeId (min nodeLevel g.maxLevel + 1) [currEp]
  rw [joinNode, hdescend]
  dsimp only
  generalize connectLevels env vector nodeId (min nodeLevel g.maxLevel + 1) [currEp] g = r at *
  obtain ⟨res, g'⟩ := r
  dsimp only at hok hlinked' hshape
  have hmax : g'.maxLevel = g.maxLevel := by rw [hshape.fields]
  refine ⟨g', ?_, hlinked', hshape⟩
  rw [hok]
  dsimp only
  rw [hmax]

theorem Inv.withDim (h : g.Inv) (dim : ℕ) : Inv { g with dim } :=
  ⟨⟨h.docs, ⟨h.entry.absent, h.entry.present, h.entry.highest⟩, h.linked.congr rfl rfl⟩, h.fresh⟩

def removeOld (env : HnswEnv) (g : HnswGraph) (docId : Bytes) : HnswGraph :=
  if g.docToNode.contains docId then (g.delete env docId).2 else g

/-- What is left are the nodes of the other documents. -/
structure WithoutDoc (g g' : HnswGraph) (docId : Bytes) : Prop where
  absent : g'.docToNode.get docId = none
  nodes : ∀ id node, g'.nodes.get id = some node →
    ∃ node', g.nodes.get id = some node' ∧ node'.docId ≠ docId ∧ node'.vector = node.vector

theorem delete_withoutDoc (env : HnswEnv) (h : g.DocsOk)
    (hdoc : g.docToNode.get docId = some nodeId) : WithoutDoc g (g.delete env docId).2 docId := by
  obtain ⟨removed, hget, -, heq⟩ := delete_eq env h hdoc
  obtain ⟨hshape, -⟩ := unlinkAll_spec nodeId removed (g.dropDoc docId nodeId)
  have hwithout : WithoutDoc g ((g.dropDoc docId nodeId).unlinkAll nodeId removed) docId := by
    refine ⟨?_, fun id node hnode => ?_⟩
    · rw [hshape.fields]
      exact SortedMap.get_erase_self docId g.docToNode
    · obtain ⟨node', hnode', hbare⟩ := hshape.symm.get hnode
      rw [dropDoc, SortedMap.get_erase] at hnode'
      split_ifs at hnode' with hne
      have hvector : (bare node').vector = (bare node).vector := by rw [hbare]
      refine ⟨node', hnode', fun hid => hne ?_, hvector⟩
      have hsome := (h docId id).mpr ⟨node', hnode', hid⟩
      rw [hdoc] at hsome
      exact Option.some.inj hsome
  rw [heq]
  split_ifs
  · obtain ⟨ep, maxLevel, hfields⟩ := chooseEntry_fields env
      ((g.dropDoc docId nodeId).unlinkAll nodeId removed)
    rw [hfields]
    exact ⟨hwithout.absent, hwithout.nodes⟩
  · exact hwithout

theorem removeOld_spec (env : HnswEnv) (h : g.Inv) (hmutual : g.isMutual docId = true) :
    (g.removeOld env docId).Inv ∧ WithoutDoc g (g.removeOld env docId) docId := by
  rw [removeOld]
  cases hdoc : g.docToNode.get docId with
  | none =>
    rw [if_neg (by simp [SortedMap.contains, hdoc])]
    refine ⟨h, hdoc, fun id node hget => ⟨node, hget, fun hid => ?_, rfl⟩⟩
    have hsome := (h.docs docId id).mpr ⟨node, hget, hid⟩
    rw [hdoc] at hsome
    cases hsome
  | some nodeId =>
    rw [if_pos (by simp [SortedMap.contains, hdoc])]
    exact ⟨delete_inv env h hmutual, delete_withoutDoc env h.docs hdoc⟩

theorem computeVectorDistance_ok (distance : List F64 → List F64 → F64) {v w : List F64}
    (hlen : v.length = w.length) (hne : v ≠ []) : ∃ d, computeVectorDistance distance v w = .ok d := by
  rw [computeVectorDistance, if_neg (not_not.mpr hlen), if_neg (by simpa using hne)]
  exact ⟨_, rfl⟩

theorem measures_addNode (env : HnswEnv) {nodeLevel entry : ℕ} (hentry : g.nodes.get entry = some node)
    (hall : ∀ id node, g.nodes.get id = some node → vector.length = node.vector.length ∧ vector ≠ []) :
    (g.addNode docId vector nodeLevel).Measures env vector := by
  intro id node' hget
  rw [get_addNode] at hget
  split_ifs at hget
  · cases hget
    exact computeVectorDistance_ok _ rfl (hall entry node hentry).2
  · obtain ⟨hlen, hne⟩ := hall id node' hget
    exact computeVectorDistance_ok _ hlen hne

theorem addNode_first (h : g.Inv) (hnone : g.entryPoint = none)
    (hdoc : g.docToNode.get docId = none) (vector : List F64) (nodeLevel : ℕ) :
    Inv { g.addNode docId vector nodeLevel with
      entryPoint := some g.nextNodeId
      maxLevel := nodeLevel } := by
  have hempty := h.entry.absent.mp hnone
  have honly : ∀ id node, (g.addNode docId vector nodeLevel).nodes.get id = some node →
      id = g.nextNodeId ∧ node = .new docId g.nextNodeId vector nodeLevel := by
    intro id node hget
    rw [get_addNode, hempty] at hget
    split_ifs at hget with heq
    · exact ⟨heq.symm, (Option.some.inj hget).symm⟩
    · cases hget
  have hnew : (g.addNode docId vector nodeLevel).nodes.get g.nextNodeId =
      some (.new docId g.nextNodeId vector nodeLevel) := by
    rw [get_addNode, if_pos rfl]
  refine ⟨⟨addNode_docs h.docs h.fresh hdoc vector nodeLevel, ⟨iff_of_false (by simp) fun hnil => ?_, ?_, ?_⟩,
    (addNode_linked h docId vector nodeLevel).1.congr rfl rfl⟩, fun id node hget => ?_⟩
  · have hnil' : (g.addNode docId vector nodeLevel).nodes = ∅ := hnil
    rw [hnil'] at hnew
    cases hnew
  · intro ep hep
    cases hep
    exact ⟨_, hnew, rfl⟩
  · intro id node hget
    rw [(honly id node hget).2]
    exact le_refl nodeLevel
  · rw [(honly id node hget).1]
    exact Nat.lt_succ_self g.nextNodeId

theorem SameShape.docs (h : SameShape g g') (hdocs : ∀ docId id, g.docToNode.get docId = some id ↔
      ∃ node, g.nodes.get id = some node ∧ node.docId = docId) (docId : Bytes) (id : ℕ) :
    g'.docToNode.get docId = some id ↔ ∃ node, g'.nodes.get id = some node ∧ node.docId = docId := by
  have hkept : ∀ {g g' : HnswGraph}, SameShape g g' →
      (∃ node, g.nodes.get id = some node ∧ node.docId = docId) →
      ∃ node, g'.nodes.get id = some node ∧ node.docId = docId := by
    intro g g' h ⟨node, hget, hdoc⟩
    obtain ⟨node', hget', hbare⟩ := h.get hget
    have hdoc' : (bare node').docId = (bare node).docId := by rw [hbare]
    exact ⟨node', hget', Eq.trans hdoc' hdoc⟩
  have hmap : g'.docToNode = g.docToNode := by rw [h.fields]
  rw [hmap, hdocs docId id]
  exact ⟨hkept h, hkept h.symm⟩

theorem joinNode_inv (env : HnswEnv) (nodeLevel : ℕ) {entry : ℕ} (h : g.Inv) (hsome : g.entryPoint = some entry)
    (hdoc : g.docToNode.get docId = none)
    (hall : ∀ id node, g.nodes.get id = some node → vector.length = node.vector.length ∧ vector ≠ []) :
    ∃ g', (g.addNode docId vector nodeLevel).joinNode env vector g.nextNodeId nodeLevel entry =
      (.ok g.nextNodeId, g') ∧ g'.Inv := by
  obtain ⟨epNode, hep, hlevel⟩ := h.entry.present entry hsome
  have hne : g.nextNodeId ≠ entry := fun heq => absurd (h.fresh entry epNode hep) (by omega)
  have hep' : (g.addNode docId vector nodeLevel).nodes.get entry = some epNode := by
    rw [get_addNode, if_neg hne]
    exact hep
  have hnew : (g.addNode docId vector nodeLevel).nodes.get g.nextNodeId =
      some (.new docId g.nextNodeId vector nodeLevel) := by
    rw [get_addNode, if_pos rfl]
  obtain ⟨hlinked, hun⟩ := addNode_linked h docId vector nodeLevel
  have hlevel' : (HnswNode.new docId g.nextNodeId vector nodeLevel).level = nodeLevel := rfl
  obtain ⟨g', hjoin, hlinked', hshape⟩ := joinNode_spec hlinked hun hnew hlevel'
    ⟨Ne.symm hne, epNode, hep', hlevel.ge⟩ (measures_addNode env hep hall)
  have hdocs := hshape.docs (addNode_docs h.docs h.fresh hdoc vector nodeLevel)
  have hnext : g'.nextNodeId = g.nextNodeId + 1 := by
    rw [hshape.fields]
    rfl
  have hmax : g'.maxLevel = g.maxLevel := by
    rw [hshape.fields]
    rfl
  have hentry : g'.entryPoint = some entry := by
    rw [hshape.fields]
    exact hsome
  have hnodes : ∀ id node, g'.nodes.get id = some node →
      id < g.nextNodeId + 1 ∧ node.level ≤ if id = g.nextNodeId then nodeLevel else g.maxLevel := by
    intro id node hget
    obtain ⟨node', hget', hlevel'⟩ := hshape.symm.level_get hget
    rw [get_addNode] at hget'
    rw [← hlevel']
    split_ifs at hget' with heq
    · cases hget'
      rw [if_pos heq.symm]
      exact ⟨by omega, le_refl nodeLevel⟩
    · rw [if_neg (Ne.symm heq)]
      exact ⟨Nat.lt_succ_of_lt (h.fresh id node' hget'), h.entry.highest id node' hget'⟩
  obtain ⟨newNode, hnew', hnewLevel⟩ := hshape.level_get hnew
  obtain ⟨entryNode, hentry', hentryLevel⟩ := hshape.level_get hep'
  have hnonempty : g'.nodes ≠ ∅ := by
    intro hnil
    rw [hnil] at hnew'
    cases hnew'
  refine ⟨_, hjoin, ?_⟩
  by_cases hhigher : nodeLevel > g.maxLevel
  · rw [if_pos (show nodeLevel > (g.addNode docId vector nodeLevel).maxLevel from hhigher)]
    refine ⟨⟨hdocs, ⟨iff_of_false (by simp) hnonempty, fun ep heq => ?_, fun id node hget => ?_⟩,
      hlinked'.congr rfl rfl⟩, fun id node hget => hnext ▸ (hnodes id node hget).1⟩
    · cases heq
      exact ⟨newNode, hnew', hnewLevel⟩
    · have hle := (hnodes id node hget).2
      dsimp only
      split_ifs at hle
      · exact hle
      · omega
  · rw [if_neg (show ¬nodeLevel > (g.addNode docId vector nodeLevel).maxLevel from hhigher)]
    refine ⟨⟨hdocs, ⟨iff_of_false (by simp [hentry]) hnonempty, fun ep heq => ?_, fun id node hget => ?_⟩,
      hlinked'⟩, fun id node hget => hnext ▸ (hnodes id node hget).1⟩
    · rw [hentry] at heq
      cases heq
      exact ⟨entryNode, hentry', (hentryLevel.trans hlevel).trans hmax.symm⟩
    · have hle := (hnodes id node hget).2
      rw [hmax]
      split_ifs at hle
      · omega
      · exact hle

/-- What an insertion needs: it is rejected, or the distances it measures are defined
and the node it replaces is listed by none that it does not list. -/
def accepts (g : HnswGraph) (docId : Bytes) (vector : List F64) : Bool :=
  g.rejects vector || (g.isMeasurable docId vector && g.isMutual docId)

theorem insert_inv (env : HnswEnv) (h : g.Inv) (nodeLevel : ℕ) (hok : g.accepts docId vector = true) :
    (g.insert env nodeLevel docId vector).2.Inv ∧
      ∀ err, (g.insert env nodeLevel docId vector).1 = .error err →
        (g.insert env nodeLevel docId vector).2 = g := by
  rw [insert]
  by_cases hreject : g.dim ≠ 0 ∧ vector.length ≠ g.dim
  · rw [if_pos hreject]
    exact ⟨h, fun _ _ => rfl⟩
  rw [if_neg hreject]
  rw [accepts, rejects, decide_eq_false hreject, Bool.false_or, Bool.and_eq_true] at hok
  have hdim : (if g.dim = 0 then { g with dim := vector.length } else g).Inv ∧
      (if g.dim = 0 then { g with dim := vector.length } else g).isMutual docId = true ∧
      (if g.dim = 0 then { g with dim := vector.length } else g).isMeasurable docId vector = true := by
    split_ifs
    · exact ⟨h.withDim _, hok.2, hok.1⟩
    · exact ⟨h, hok.2, hok.1⟩
  dsimp only
  generalize (if g.dim = 0 then { g with dim := vector.length } else g) = g₀ at hdim
  obtain ⟨hinv₀, hmutual, hmeasurable⟩ := hdim
  obtain ⟨hinv, hwithout⟩ := removeOld_spec env hinv₀ hmutual
  have hall : ∀ id node, (g₀.removeOld env docId).nodes.get id = some node →
      vector.length = node.vector.length ∧ vector ≠ [] := by
    intro id node hget
    obtain ⟨node', hget', hne, hvector⟩ := hwithout.nodes id node hget
    have hone := List.all_eq_true.mp hmeasurable (id, node') (SortedMap.get_eq_some.mp hget')
    simp only [Bool.or_eq_true, Bool.and_eq_true, beq_iff_eq, hne, false_or, Bool.not_eq_true',
      List.isEmpty_eq_false_iff] at hone
    exact hvector ▸ hone
  rw [← removeOld]
  generalize g₀.removeOld env docId = g₁ at hinv hwithout hall
  cases hentry : g₁.entryPoint with
  | none =>
    have hentry' : (g₁.addNode docId vector nodeLevel).entryPoint = none := hentry
    rw [hentry']
    exact ⟨addNode_first hinv hentry hwithout.absent vector nodeLevel, fun _ herr => by cases herr⟩
  | some entry =>
    have hentry' : (g₁.addNode docId vector nodeLevel).entryPoint = some entry := hentry
    obtain ⟨g', hjoin, hinv'⟩ := joinNode_inv env nodeLevel hinv hentry hwithout.absent hall
    rw [hentry']
    dsimp only
    rw [hjoin]
    exact ⟨hinv', fun _ herr => by cases herr⟩

end Wedb.HnswGraph
