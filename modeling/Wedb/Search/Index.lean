import Mathlib.Data.Finset.Dedup
import Wedb.Search.Ast
import Wedb.Search.Sorting

/-!
# The tag index and the evaluation of queries

Documents are put into the index with their stored fields, and their tags under the name of
each tag field; a document that comes again is taken out first. A query selects documents node
by node. The indexes of words, numbers, places and vectors are a parameter, which says what
the clauses on them select.
-/

namespace Wedb

inductive IndexFieldType
  | text
  | tag
  | numeric
  | vector
  | geo
  deriving DecidableEq

structure IndexField where
  name : Text
  fieldType : IndexFieldType
  aliasName : Option Text
  separator : Option Char
  caseSensitive : Bool
  noindex : Bool

structure SearchIndexSchema where
  fields : List IndexField

def SearchIndexSchema.getField (schema : SearchIndexSchema) (name : Text) : Option IndexField :=
  schema.fields.find? fun f => f.name = name ∨ f.aliasName = some name

/-- The sets of the tag index, an entry for each field, tag and document in them. -/
structure InvertedIndex where
  tagIndex : List (Text × Text × DocId)
  docs : DocStore

namespace InvertedIndex

def new : InvertedIndex := ⟨[], []⟩

section
variable (toLowercase : Text → Text) (schema : SearchIndexSchema)

def deleteDoc (index : InvertedIndex) (docId : DocId) : InvertedIndex × Bool :=
  if (index.docs.lookup docId).isNone then (index, false)
  else (⟨index.tagIndex.filter fun entry => entry.2.2 ≠ docId,
    index.docs.filter fun doc => doc.1 ≠ docId⟩, true)

def fieldTags (field : IndexField) (storedFields : List (Text × Text)) : List Text :=
  match storedFields.lookup field.name with
  | some val => tokenizeTags toLowercase val (field.separator.getD ',') field.caseSensitive
  | none => []

def indexField (docId : DocId) (storedFields : List (Text × Text))
    (tagIndex : List (Text × Text × DocId)) (field : IndexField) : List (Text × Text × DocId) :=
  if field.noindex then tagIndex
  else if field.fieldType = .tag then
    tagIndex ++ (fieldTags toLowercase field storedFields).map fun tag => (field.name, tag, docId)
  else tagIndex

def indexDoc (index : InvertedIndex) (docId : DocId) (doc : StoredDoc) : InvertedIndex :=
  let index := if (index.docs.lookup docId).isSome then (index.deleteDoc docId).1 else index
  ⟨schema.fields.foldl (indexField toLowercase docId doc.fields) index.tagIndex,
    (docId, doc) :: index.docs.filter fun other => other.1 ≠ docId⟩

end

end InvertedIndex

inductive IndexCommand
  | indexDoc (docId : DocId) (doc : StoredDoc)
  | deleteDoc (docId : DocId)

def IndexCommand.run (toLowercase : Text → Text) (schema : SearchIndexSchema)
    (index : InvertedIndex) : IndexCommand → InvertedIndex
  | .indexDoc docId doc => index.indexDoc toLowercase schema docId doc
  | .deleteDoc docId => (index.deleteDoc docId).1

def indexRun (toLowercase : Text → Text) (schema : SearchIndexSchema)
    (commands : List IndexCommand) : InvertedIndex :=
  commands.foldl (IndexCommand.run toLowercase schema) .new

/-! ## Evaluation -/

def matchTag (toLowercase : Text → Text) (caseSensitive : Bool) (tag stored : Text) : Bool :=
  if tag.getLast? = some '*' then
    (foldCase toLowercase caseSensitive tag.dropLast).isPrefixOf stored
  else stored == foldCase toLowercase caseSensitive tag

def evalTag (toLowercase : Text → Text) (schema : SearchIndexSchema) (index : InvertedIndex)
    (field : Text) (tags : List Text) : Finset DocId :=
  let caseSensitive := ((schema.getField field).map IndexField.caseSensitive).getD false
  ((index.tagIndex.filter fun entry => entry.1 = field ∧
    tags.any fun tag => matchTag toLowercase caseSensitive tag entry.2.1).map
      fun entry => entry.2.2).toFinset

def intersectFrom (base : Finset DocId) : List (Finset DocId) → Finset DocId
  | [] => base
  | set :: sets =>
    let base := base.filter (· ∈ set)
    if base.card = 0 then base else intersectFrom base sets

def intersectAll (sets : List (Finset DocId)) : Finset DocId :=
  match sets.mergeSort fun s t => decide (s.card ≤ t.card) with
  | [] => ∅
  | base :: sets => intersectFrom base sets

section
variable (toLowercase : Text → Text) (leaf : SearchQueryNode → Finset DocId)
  (schema : SearchIndexSchema) (index : InvertedIndex)

def docKeys : Finset DocId := (index.docs.map Prod.fst).toFinset

def evalQueryNode : SearchQueryNode → Finset DocId
  | .wildcard => docKeys index
  | .tag field tags => evalTag toLowercase schema index field tags
  | .and nodes => if nodes.isEmpty then ∅ else intersectAll (nodes.map evalQueryNode)
  | .or nodes => (nodes.map evalQueryNode).foldl (· ∪ ·) ∅
  | .not inner => (docKeys index).filter fun id => id ∉ evalQueryNode inner
  | node => leaf node

end

section
variable {toLowercase : Text → Text} {leaf : SearchQueryNode → Finset DocId}
  {schema : SearchIndexSchema} {index : InvertedIndex} {id other : DocId}

theorem mem_intersectFrom (base : Finset DocId) (sets : List (Finset DocId)) :
    id ∈ intersectFrom base sets ↔ id ∈ base ∧ ∀ set ∈ sets, id ∈ set := by
  induction sets generalizing base with
  | nil => simp [intersectFrom]
  | cons set sets ih =>
    rw [intersectFrom]
    by_cases hnone : (base.filter (· ∈ set)).card = 0
    · have hempty := Finset.card_eq_zero.mp hnone
      have hnot : ¬(id ∈ base ∧ id ∈ set) := by
        rw [← Finset.mem_filter (p := (· ∈ set)), hempty]
        exact Finset.notMem_empty id
      have hstop : (let base := base.filter (· ∈ set)
          if base.card = 0 then base else intersectFrom base sets) = ∅ := by
        simp only [hempty, Finset.card_empty, if_true]
      rw [hstop]
      refine iff_of_false (Finset.notMem_empty id) fun h => ?_
      exact hnot ⟨h.1, h.2 set List.mem_cons_self⟩
    · simp only [if_neg hnone, ih, Finset.mem_filter, List.forall_mem_cons, and_assoc]

theorem mem_intersectAll {sets : List (Finset DocId)} (hne : sets ≠ []) :
    id ∈ intersectAll sets ↔ ∀ set ∈ sets, id ∈ set := by
  have hperm := List.mergeSort_perm sets fun s t => decide (s.card ≤ t.card)
  rw [intersectAll]
  cases hsort : sets.mergeSort fun s t => decide (s.card ≤ t.card) with
  | nil => exact absurd (List.Perm.nil_eq (hsort ▸ hperm)).symm hne
  | cons base rest =>
    rw [hsort] at hperm
    simp only [mem_intersectFrom]
    rw [← List.forall_mem_cons (p := (id ∈ ·))]
    exact forall_congr' fun set => imp_congr_left hperm.mem_iff

theorem mem_foldl_union (base : Finset DocId) (sets : List (Finset DocId)) :
    id ∈ sets.foldl (· ∪ ·) base ↔ id ∈ base ∨ ∃ set ∈ sets, id ∈ set := by
  induction sets generalizing base with
  | nil => simp
  | cons set sets ih =>
    rw [List.foldl_cons, ih, Finset.mem_union, List.exists_mem_cons_iff, or_assoc]

theorem mem_eval_and {nodes : List SearchQueryNode} (hne : nodes ≠ []) :
    id ∈ evalQueryNode toLowercase leaf schema index (.and nodes) ↔
      ∀ node ∈ nodes, id ∈ evalQueryNode toLowercase leaf schema index node := by
  rw [evalQueryNode, if_neg (by rwa [List.isEmpty_iff]), mem_intersectAll (by simpa using hne)]
  simp

theorem mem_eval_or {nodes : List SearchQueryNode} :
    id ∈ evalQueryNode toLowercase leaf schema index (.or nodes) ↔
      ∃ node ∈ nodes, id ∈ evalQueryNode toLowercase leaf schema index node := by
  rw [evalQueryNode, mem_foldl_union]
  simp

theorem mem_eval_not {node : SearchQueryNode} :
    id ∈ evalQueryNode toLowercase leaf schema index (.not node) ↔
      id ∈ docKeys index ∧ id ∉ evalQueryNode toLowercase leaf schema index node := by
  rw [evalQueryNode, Finset.mem_filter]

theorem mem_evalTag {field : Text} {tags : List Text} :
    id ∈ evalTag toLowercase schema index field tags ↔
      ∃ stored, (field, stored, id) ∈ index.tagIndex ∧ ∃ tag ∈ tags, matchTag toLowercase
        (((schema.getField field).map IndexField.caseSensitive).getD false) tag stored = true := by
  rw [evalTag, List.mem_toFinset, List.mem_map]
  constructor
  · rintro ⟨⟨name, stored, docId⟩, hmem, rfl⟩
    rw [List.mem_filter, decide_eq_true_eq, List.any_eq_true] at hmem
    obtain ⟨hentry, rfl, hany⟩ := hmem
    exact ⟨stored, hentry, hany⟩
  · rintro ⟨stored, hentry, hany⟩
    refine ⟨(field, stored, id), ?_, rfl⟩
    rw [List.mem_filter, decide_eq_true_eq, List.any_eq_true]
    exact ⟨hentry, rfl, hany⟩

/-! ## Runs -/

/-- The fields of the schema whose tags are indexed under a name. -/
def TagFieldNamed (schema : SearchIndexSchema) (name : Text) (field : IndexField) : Prop :=
  field ∈ schema.fields ∧ field.name = name ∧ field.fieldType = .tag ∧ field.noindex = false

/-- The index holds exactly the tags of its documents. -/
def TagsIndexed (toLowercase : Text → Text) (schema : SearchIndexSchema) (index : InvertedIndex) :
    Prop :=
  ∀ name tag id, (name, tag, id) ∈ index.tagIndex ↔ ∃ doc, index.docs.lookup id = some doc ∧
    ∃ field, TagFieldNamed schema name field ∧
      tag ∈ InvertedIndex.fieldTags toLowercase field doc.fields

theorem lookup_filter_ne (docs : DocStore) (docId : DocId) :
    (docs.filter fun doc => doc.1 ≠ docId).lookup id =
      if id = docId then none else docs.lookup id := by
  induction docs with
  | nil => simp
  | cons doc docs ih =>
    obtain ⟨key, doc⟩ := doc
    by_cases hkey : key = docId
    · subst hkey
      rw [List.filter_cons_of_neg (by simp), ih, List.lookup_cons]
      by_cases hid : id = key
      · rw [if_pos hid, if_pos hid]
      · rw [if_neg hid, if_neg hid, beq_false_of_ne hid]
    · rw [List.filter_cons_of_pos (by simpa using hkey), List.lookup_cons, List.lookup_cons, ih]
      by_cases hid : id = key
      · rw [hid, beq_self_eq_true]
        exact (if_neg hkey).symm
      · rw [beq_false_of_ne hid]

theorem mem_foldl_indexField (docId : DocId) (storedFields : List (Text × Text))
    (tagIndex : List (Text × Text × DocId)) (fields : List IndexField)
    (entry : Text × Text × DocId) :
    entry ∈ fields.foldl (InvertedIndex.indexField toLowercase docId storedFields) tagIndex ↔
      entry ∈ tagIndex ∨ entry.2.2 = docId ∧ ∃ field, TagFieldNamed ⟨fields⟩ entry.1 field ∧
        entry.2.1 ∈ InvertedIndex.fieldTags toLowercase field storedFields := by
  induction fields generalizing tagIndex with
  | nil => simp [TagFieldNamed]
  | cons field fields ih =>
    obtain ⟨name, tag, id⟩ := entry
    have hsplit : (∃ f, TagFieldNamed ⟨field :: fields⟩ name f ∧
        tag ∈ InvertedIndex.fieldTags toLowercase f storedFields) ↔
        (field.name = name ∧ field.fieldType = .tag ∧ field.noindex = false ∧
          tag ∈ InvertedIndex.fieldTags toLowercase field storedFields) ∨
        ∃ f, TagFieldNamed ⟨fields⟩ name f ∧
          tag ∈ InvertedIndex.fieldTags toLowercase f storedFields := by
      simp only [TagFieldNamed, List.mem_cons]
      constructor
      · rintro ⟨f, ⟨rfl | hf, hrest⟩, htag⟩
        · exact Or.inl ⟨hrest.1, hrest.2.1, hrest.2.2, htag⟩
        · exact Or.inr ⟨f, ⟨hf, hrest⟩, htag⟩
      · rintro (⟨hname, htype, hindexed, htag⟩ | ⟨f, ⟨hf, hrest⟩, htag⟩)
        · exact ⟨field, ⟨Or.inl rfl, hname, htype, hindexed⟩, htag⟩
        · exact ⟨f, ⟨Or.inr hf, hrest⟩, htag⟩
    have hstep : (name, tag, id) ∈ InvertedIndex.indexField toLowercase docId storedFields tagIndex
        field ↔ (name, tag, id) ∈ tagIndex ∨ id = docId ∧ field.name = name ∧
          field.fieldType = .tag ∧ field.noindex = false ∧
          tag ∈ InvertedIndex.fieldTags toLowercase field storedFields := by
      rw [InvertedIndex.indexField]
      split_ifs with hnoindex htype
      · simp [hnoindex]
      · rw [List.mem_append, List.mem_map]
        refine or_congr_right ⟨?_, ?_⟩
        · rintro ⟨t, ht, heq⟩
          cases heq
          exact ⟨rfl, rfl, htype, Bool.eq_false_of_not_eq_true hnoindex, ht⟩
        · rintro ⟨rfl, rfl, -, -, ht⟩
          exact ⟨tag, ht, rfl⟩
      · simp [htype]
    rw [List.foldl_cons, ih, hstep, hsplit]
    simp only [and_or_left, or_assoc]

theorem tagsIndexed_deleteDoc (h : TagsIndexed toLowercase schema index) (docId : DocId) :
    TagsIndexed toLowercase schema (index.deleteDoc docId).1 ∧
      ∀ name tag, (name, tag, docId) ∉ (index.deleteDoc docId).1.tagIndex := by
  rw [InvertedIndex.deleteDoc]
  by_cases hnone : (index.docs.lookup docId).isNone = true
  · rw [if_pos hnone]
    refine ⟨h, fun name tag hmem => ?_⟩
    obtain ⟨doc, hdoc, -⟩ := (h name tag docId).mp hmem
    rw [hdoc] at hnone
    cases hnone
  · rw [if_neg hnone]
    refine ⟨fun name tag id => ?_, fun name tag hmem => ?_⟩
    · simp only [List.mem_filter, lookup_filter_ne, decide_eq_true_eq]
      by_cases hid : id = docId
      · simp [hid]
      · rw [if_neg hid, and_iff_left hid]
        exact h name tag id
    · rw [List.mem_filter, decide_eq_true_eq] at hmem
      exact hmem.2 rfl

theorem tagsIndexed_indexDoc (h : TagsIndexed toLowercase schema index) (docId : DocId)
    (doc : StoredDoc) : TagsIndexed toLowercase schema (index.indexDoc toLowercase schema docId doc) := by
  have hclean : ∃ cleaned : InvertedIndex, (if (index.docs.lookup docId).isSome then
      (index.deleteDoc docId).1 else index) = cleaned ∧ TagsIndexed toLowercase schema cleaned ∧
        ∀ name tag, (name, tag, docId) ∉ cleaned.tagIndex := by
    refine ⟨_, rfl, ?_⟩
    by_cases hsome : (index.docs.lookup docId).isSome = true
    · rw [if_pos hsome]
      exact tagsIndexed_deleteDoc h docId
    · rw [if_neg hsome]
      refine ⟨h, fun name tag hmem => ?_⟩
      obtain ⟨found, hfound, -⟩ := (h name tag docId).mp hmem
      rw [hfound] at hsome
      exact hsome rfl
  obtain ⟨cleaned, hcleaned, hindexed, hfresh⟩ := hclean
  intro name tag id
  simp only [InvertedIndex.indexDoc, hcleaned, mem_foldl_indexField]
  rw [List.lookup_cons, lookup_filter_ne]
  by_cases hid : id = docId
  · rw [hid, beq_self_eq_true]
    simp only [hfresh name tag, false_or, true_and]
    exact ⟨fun ⟨f, hf⟩ => ⟨doc, rfl, f, hf⟩, fun ⟨_, hd, f, hf⟩ => ⟨f, Option.some_inj.mp hd ▸ hf⟩⟩
  · rw [beq_false_of_ne hid, if_neg hid]
    simp only [hid, false_and, or_false]
    exact hindexed name tag id

theorem tagsIndexed_indexRun (toLowercase : Text → Text) (schema : SearchIndexSchema)
    (commands : List IndexCommand) :
    TagsIndexed toLowercase schema (indexRun toLowercase schema commands) := by
  induction commands using List.reverseRecOn with
  | nil =>
    intro name tag id
    simp [indexRun, InvertedIndex.new]
  | append_singleton commands command ih =>
    rw [indexRun, List.foldl_append]
    cases command with
    | indexDoc docId doc => exact tagsIndexed_indexDoc ih docId doc
    | deleteDoc docId => exact (tagsIndexed_deleteDoc ih docId).1

/-! ## The naive scan -/

/-- The document last put in under an id, unless it was taken out again. -/
def liveDoc (commands : List IndexCommand) (id : DocId) : Option StoredDoc :=
  commands.foldl (fun found command =>
    match command with
    | .indexDoc docId doc => if id = docId then some doc else found
    | .deleteDoc docId => if id = docId then none else found) none

theorem lookup_indexRun (commands : List IndexCommand) :
    (indexRun toLowercase schema commands).docs.lookup id = liveDoc commands id := by
  induction commands using List.reverseRecOn with
  | nil => rfl
  | append_singleton commands command ih =>
    have hdelete : ∀ docId, ((indexRun toLowercase schema commands).deleteDoc docId).1.docs.lookup id =
        if id = docId then none else liveDoc commands id := by
      intro docId
      rw [InvertedIndex.deleteDoc]
      split_ifs with hnone hid hid
      · rw [← hid] at hnone
        exact Option.isNone_iff_eq_none.mp hnone
      · exact ih
      · exact (lookup_filter_ne _ _).trans (if_pos hid)
      · exact (lookup_filter_ne _ _).trans ((if_neg hid).trans ih)
    rw [indexRun, liveDoc, List.foldl_append, List.foldl_append]
    cases command with
    | deleteDoc docId => exact hdelete docId
    | indexDoc docId doc =>
      simp only [List.foldl_cons, List.foldl_nil, IndexCommand.run, InvertedIndex.indexDoc,
        List.lookup_cons, lookup_filter_ne]
      by_cases hid : id = docId
      · rw [hid, beq_self_eq_true]
        exact (if_pos rfl).symm
      · rw [beq_false_of_ne hid, if_neg hid, if_neg hid]
        change (if _ then _ else indexRun toLowercase schema commands).docs.lookup id = _
        split_ifs
        · exact (hdelete docId).trans (if_neg hid)
        · exact ih

variable (toLowercase leaf schema) in
/-- Whether a query asks for a live document, node by node over the stored fields. -/
def Asks (docs : DocId → Option StoredDoc) (id : DocId) : SearchQueryNode → Prop
  | .wildcard => (docs id).isSome
  | .tag name tags => ∃ doc, docs id = some doc ∧ ∃ field, TagFieldNamed schema name field ∧
      ∃ stored ∈ InvertedIndex.fieldTags toLowercase field doc.fields, ∃ tag ∈ tags,
        matchTag toLowercase (((schema.getField name).map IndexField.caseSensitive).getD false) tag
          stored = true
  | .and nodes => nodes ≠ [] ∧ ∀ node, ∀ _ : node ∈ nodes, Asks docs id node
  | .or nodes => ∃ node, ∃ _ : node ∈ nodes, Asks docs id node
  | .not inner => (docs id).isSome ∧ ¬Asks docs id inner
  | node => id ∈ leaf node

theorem mem_docKeys (commands : List IndexCommand) :
    id ∈ docKeys (indexRun toLowercase schema commands) ↔ (liveDoc commands id).isSome := by
  rw [← @lookup_indexRun toLowercase schema, docKeys, List.mem_toFinset]
  induction (indexRun toLowercase schema commands).docs with
  | nil => simp
  | cons doc docs ih =>
    rw [List.map_cons, List.mem_cons, List.lookup_cons, ih]
    by_cases hid : id = doc.1
    · simp [hid]
    · rw [beq_false_of_ne hid, or_iff_right hid]

/-- After every run of the index a query selects what a scan of the live documents selects. -/
theorem evalQueryNode_eq_scan (commands : List IndexCommand) (query : SearchQueryNode) :
    id ∈ evalQueryNode toLowercase leaf schema (indexRun toLowercase schema commands) query ↔
      Asks toLowercase leaf schema (liveDoc commands) id query := by
  induction query using evalQueryNode.induct with
  | case1 =>
    rw [evalQueryNode, Asks]
    exact mem_docKeys commands
  | case2 name tags =>
    rw [evalQueryNode, mem_evalTag, Asks]
    simp only [tagsIndexed_indexRun toLowercase schema commands name _ id, lookup_indexRun]
    constructor
    · intro h
      obtain ⟨stored, ⟨doc, hdoc, field, hfield, hstored⟩, hasked⟩ := h
      exact ⟨doc, hdoc, field, hfield, stored, hstored, hasked⟩
    · intro h
      obtain ⟨doc, hdoc, field, hfield, stored, hstored, hasked⟩ := h
      exact ⟨stored, ⟨doc, hdoc, field, hfield, hstored⟩, hasked⟩
  | case3 nodes hempty =>
    rw [evalQueryNode, if_pos hempty, Asks]
    exact iff_of_false (Finset.notMem_empty id) fun h => h.1 (List.isEmpty_iff.mp hempty)
  | case4 nodes hempty ih =>
    have hne : nodes ≠ [] := fun h => hempty (List.isEmpty_iff.mpr h)
    rw [mem_eval_and hne, Asks, and_iff_right hne]
    exact forall₂_congr ih
  | case5 nodes ih =>
    rw [mem_eval_or, Asks]
    simp only [exists_prop]
    exact exists_congr fun node => and_congr_right (ih node)
  | case6 inner ih =>
    rw [mem_eval_not, Asks, mem_docKeys, ih]
  | case7 node =>
    rw [evalQueryNode, Asks] <;> assumption

end

end Wedb
