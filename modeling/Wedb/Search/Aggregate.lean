import Mathlib.Data.List.Flatten
import Mathlib.Data.Rat.Defs
import Wedb.Ordered.ExactNum
import Wedb.Ordered.Grouping
import Wedb.Ordered.HashSet
import Wedb.Search.Sorting

/-!
# Aggregation

The documents that a search returns are grouped by the values of fields, each group is reduced
to a row, and the rows are sorted and cut. Numbers are read by the parser of floats and taken
exactly from there on; the shortest digits of a finite number are a parameter. A hash map hands
its groups out in any order.
-/

namespace Wedb

inductive FtReducer
  | count
  | sum (f : Text)
  | min (f : Text)
  | max (f : Text)
  | avg (f : Text)
  | countDistinct (f : Text)
  | firstValue (f : Text)
  | toList (f : Text)

structure FtGroupBy where
  fields : List Text
  reducers : List (FtReducer × Option Text)

structure FtAggregate where
  loadFields : List Text
  groupbys : List FtGroupBy
  sortby : List (Text × Bool)
  limit : Option (ℕ × ℕ)

abbrev AggregateRow := List (Text × Text)

structure AggregateResult where
  totalResults : ℕ
  rows : List AggregateRow

def exactOf (x : F64) : ExactNum ℚ :=
  if x.isNan then .nan
  else if x.magnitude = 0x7FF0000000000000 then if x.isNegative then .negInf else .posInf
  else
    let exponent : ℕ := x.magnitude / 2 ^ 52
    let fraction : ℕ := x.magnitude % 2 ^ 52
    let value : ℚ := if exponent = 0 then fraction * 2 ^ (-1074 : ℤ)
      else (2 ^ 52 + fraction) * 2 ^ ((exponent : ℤ) - 1075)
    .fin (if x.isNegative then -value else value)

def stripSuffix (suffix s : Text) : Text :=
  if suffix <:+ s then s.take (s.length - suffix.length) else s

def formatFloat (formatFinite : ℚ → Text) : ExactNum ℚ → Text
  | .posInf => ['i', 'n', 'f']
  | .negInf => ['-', 'i', 'n', 'f']
  | .nan => ['n', 'a', 'n']
  | .fin v => if v = 0 then ['0'] else stripSuffix ['.', '0'] (formatFinite v)

def formatUsize (n : ℕ) : Text := (Nat.repr n).toList

def divCount : ExactNum ℚ → ℕ → ExactNum ℚ
  | .fin v, n => .fin (v / n)
  | x, _ => x

/-! ## Reducers -/

section
variable (parseF64 : Text → Option F64) (formatFinite : ℚ → Text)

def docValue (f : Text) (doc : SearchDoc) : Option Text :=
  (doc.fields.find? fun field => field.1 = f).map Prod.snd

def docNumber (f : Text) (doc : SearchDoc) : Option (ExactNum ℚ) :=
  ((docValue f doc).bind parseF64).map exactOf

def sumStep (f : Text) (sum : ExactNum ℚ) (doc : SearchDoc) : ExactNum ℚ :=
  match docNumber parseF64 f doc with
  | some n => sum + n
  | none => sum

def minStep (f : Text) (min : ExactNum ℚ) (doc : SearchDoc) : ExactNum ℚ :=
  match docNumber parseF64 f doc with
  | some n => if n.lt min then n else min
  | none => min

def maxStep (f : Text) (max : ExactNum ℚ) (doc : SearchDoc) : ExactNum ℚ :=
  match docNumber parseF64 f doc with
  | some n => if max.lt n then n else max
  | none => max

def avgStep (f : Text) (st : ExactNum ℚ × ℕ) (doc : SearchDoc) : ExactNum ℚ × ℕ :=
  match docNumber parseF64 f doc with
  | some n => (st.1 + n, st.2 + 1)
  | none => st

def distinctStep (f : Text) (set : List Text) (doc : SearchDoc) : List Text :=
  match docValue f doc with
  | some v => insertDistinct set v
  | none => set

def reduce (docs : List SearchDoc) : FtReducer → Text
  | .count => formatUsize docs.length
  | .sum f => formatFloat formatFinite (docs.foldl (sumStep parseF64 f) 0)
  | .min f =>
    let min := docs.foldl (minStep parseF64 f) .posInf
    if min = .posInf then ['0'] else formatFloat formatFinite min
  | .max f =>
    let max := docs.foldl (maxStep parseF64 f) .negInf
    if max = .negInf then ['0'] else formatFloat formatFinite max
  | .avg f =>
    let (sum, count) := docs.foldl (avgStep parseF64 f) (0, 0)
    formatFloat formatFinite (if count > 0 then divCount sum count else 0)
  | .countDistinct f => formatUsize (docs.foldl (distinctStep f) []).length
  | .firstValue f => (docs.head?.bind (docValue f)).getD []
  | .toList f => List.intercalate [','] (docs.filterMap (docValue f))

def reducerAlias (reducer : FtReducer × Option Text) : Text :=
  reducer.2.getD (match reducer.1 with
    | .count => ['c', 'o', 'u', 'n', 't']
    | .sum f | .min f | .max f | .avg f | .countDistinct f | .firstValue f | .toList f => f)

/-! ## Rows -/

def groupKey (fields : List Text) (doc : SearchDoc) : List Text :=
  fields.map fun gf => (docValue gf doc).getD []

def groupRow (groupby : FtGroupBy) (group : List Text × List SearchDoc) : AggregateRow :=
  groupby.fields.zip group.1 ++ groupby.reducers.map fun reducer =>
    (reducerAlias reducer, reduce parseF64 formatFinite group.2 reducer.1)

def loadRow (loadFields : List Text) (doc : SearchDoc) : AggregateRow :=
  if !loadFields.isEmpty then
    loadFields.filterMap fun reqF => (docValue reqF doc).map fun v => (reqF, v)
  else doc.fields

def rowValue (f : Text) (row : AggregateRow) : Option Text :=
  (row.find? fun field => field.1 = f).map Prod.snd

def rowCmp (a b : AggregateRow) : List (Text × Bool) → Ordering
  | [] => .eq
  | (f, asc) :: sortby =>
    let ord := match rowValue f a, rowValue f b with
      | some sa, some sb => valueCmp parseF64 sa sb
      | some _, none => .gt
      | none, some _ => .lt
      | none, none => .eq
    if ord ≠ .eq then if asc then ord else ord.swap else rowCmp a b sortby

def pageRows (opts : FtAggregate) (rows : List AggregateRow) : AggregateResult :=
  let rows := if !opts.sortby.isEmpty then
    rows.mergeSort fun a b => (rowCmp parseF64 a b opts.sortby).isLE else rows
  let totalResults := rows.length
  let (offset, count) := opts.limit.getD (0, totalResults)
  ⟨totalResults, (rows.drop offset).take count⟩

variable (hashOrder : List (List Text × List SearchDoc) → List (List Text × List SearchDoc))

def aggregateGroups (groupby : FtGroupBy) (docs : List SearchDoc) :
    List (List Text × List SearchDoc) :=
  hashOrder (groupBy (groupKey groupby.fields) docs)

def aggregateRows (opts : FtAggregate) (docs : List SearchDoc) : List AggregateRow :=
  if opts.groupbys.isEmpty then docs.map (loadRow opts.loadFields)
  else opts.groupbys.flatMap fun groupby =>
    (aggregateGroups hashOrder groupby docs).map (groupRow parseF64 formatFinite groupby)

def aggregate (store : DocStore) (opts : FtAggregate) (candidates : List DocId) :
    AggregateResult :=
  let searchRes := search parseF64 store .default candidates
  pageRows parseF64 opts (aggregateRows parseF64 formatFinite hashOrder opts searchRes.docs)

end

/-! ## What is asked for -/

def docNumbers (parseF64 : Text → Option F64) (f : Text) (docs : List SearchDoc) :
    List (ExactNum ℚ) :=
  docs.filterMap (docNumber parseF64 f)

/-- The text of a reducer says what it promises of the documents. -/
def ReducedRight (parseF64 : Text → Option F64) (formatFinite : ℚ → Text)
    (docs : List SearchDoc) (text : Text) : FtReducer → Prop
  | .count => text = formatUsize docs.length
  | .sum f => text = formatFloat formatFinite (docNumbers parseF64 f docs).sum
  | .min f => ∀ m, ExactNum.IsLeastOf (docNumbers parseF64 f docs) m →
      text = formatFloat formatFinite m
  | .max f => ∀ m, ExactNum.IsGreatestOf (docNumbers parseF64 f docs) m →
      text = formatFloat formatFinite m
  | .avg f => docNumbers parseF64 f docs ≠ [] → text = formatFloat formatFinite
      (divCount (docNumbers parseF64 f docs).sum (docNumbers parseF64 f docs).length)
  | .countDistinct f => text = formatUsize (docs.filterMap (docValue f)).toFinset.card
  | .firstValue _ => True
  | .toList _ => True

/-- Every matching document is in one group, and the row of a group reduces all matching
documents with its key. -/
structure GroupsCover (parseF64 : Text → Option F64) (formatFinite : ℚ → Text)
    (groupby : FtGroupBy) (matched : List SearchDoc)
    (groups : List (List Text × List SearchDoc)) : Prop where
  distinct : (groups.map Prod.fst).Nodup
  once : (groups.flatMap Prod.snd).Perm matched
  keyed : ∀ group ∈ groups, ∀ doc ∈ group.2, groupKey groupby.fields doc = group.1
  counts : (groups.map fun group => group.2.length).sum = matched.length
  reduced : ∀ group ∈ groups, ∀ reducer ∈ groupby.reducers,
    ReducedRight parseF64 formatFinite
      (matched.filter fun doc => groupKey groupby.fields doc = group.1)
      (reduce parseF64 formatFinite group.2 reducer.1) reducer.1

def matchedDocs (store : DocStore) (matched : List DocId) : List SearchDoc :=
  matched.filterMap (searchDoc store .default)

/-- Without groups there is one row for each matching document before the rows are cut. -/
structure AggregateCovers (parseF64 : Text → Option F64) (formatFinite : ℚ → Text)
    (hashOrder : List (List Text × List SearchDoc) → List (List Text × List SearchDoc))
    (store : DocStore) (opts : FtAggregate) (matched candidates : List DocId) : Prop where
  plain : opts.groupbys = [] →
    (aggregateRows parseF64 formatFinite hashOrder opts
      (search parseF64 store .default candidates).docs).Perm
        ((matchedDocs store matched).map (loadRow opts.loadFields))
  grouped : ∀ groupby ∈ opts.groupbys,
    GroupsCover parseF64 formatFinite groupby (matchedDocs store matched)
      (aggregateGroups hashOrder groupby (search parseF64 store .default candidates).docs)

/-- An extreme that is the infinity from which its reducer starts is shown as zero. -/
def ExtremeShown (parseF64 : Text → Option F64) (docs : List SearchDoc) : FtReducer → Prop
  | .min f => ¬ExactNum.IsLeastOf (docNumbers parseF64 f docs) .posInf
  | .max f => ¬ExactNum.IsGreatestOf (docNumbers parseF64 f docs) .negInf
  | _ => True

/-- The search returns all matches, and no group has only infinities on the wrong side. -/
def AggregateFits (parseF64 : Text → Option F64) (store : DocStore) (opts : FtAggregate)
    (matched : List DocId) : Prop :=
  matched.length ≤ 10 ∧ ∀ groupby ∈ opts.groupbys, ∀ reducer ∈ groupby.reducers,
    ∀ doc ∈ matchedDocs store matched, ExtremeShown parseF64
      ((matchedDocs store matched).filter fun other =>
        groupKey groupby.fields other = groupKey groupby.fields doc) reducer.1

/-! ## Reducing -/

section
variable {parseF64 : Text → Option F64} {formatFinite : ℚ → Text} {docs matched : List SearchDoc}
  {f : Text}

theorem foldl_sumStep (start : ExactNum ℚ) :
    docs.foldl (sumStep parseF64 f) start = start + (docNumbers parseF64 f docs).sum := by
  induction docs generalizing start with
  | nil => exact (add_zero start).symm
  | cons doc docs ih =>
    rw [List.foldl_cons, ih, docNumbers, docNumbers]
    cases hnumber : docNumber parseF64 f doc with
    | none => rw [sumStep, hnumber, List.filterMap_cons_none hnumber]
    | some n =>
      rw [sumStep, hnumber, List.filterMap_cons_some hnumber, List.sum_cons]
      exact add_assoc start n _

theorem foldl_avgStep (start : ExactNum ℚ × ℕ) :
    docs.foldl (avgStep parseF64 f) start =
      (start.1 + (docNumbers parseF64 f docs).sum, start.2 + (docNumbers parseF64 f docs).length) := by
  induction docs generalizing start with
  | nil => exact Prod.ext (add_zero start.1).symm rfl
  | cons doc docs ih =>
    rw [List.foldl_cons, ih, docNumbers, docNumbers]
    cases hnumber : docNumber parseF64 f doc with
    | none => rw [avgStep, hnumber, List.filterMap_cons_none hnumber]
    | some n =>
      rw [avgStep, hnumber, List.filterMap_cons_some hnumber, List.sum_cons, List.length_cons]
      exact Prod.ext (add_assoc start.1 n _) (Nat.add_right_comm start.2 1 _)

theorem foldl_minStep (start : ExactNum ℚ) :
    docs.foldl (minStep parseF64 f) start =
      extreme ExactNum.lt start (docNumbers parseF64 f docs) := by
  rw [extreme, docNumbers, List.foldl_filterMap]
  congr 1
  funext best doc
  rw [minStep]
  cases docNumber parseF64 f doc <;> rfl

theorem foldl_maxStep (start : ExactNum ℚ) :
    docs.foldl (maxStep parseF64 f) start =
      extreme (fun a b => ExactNum.lt b a) start (docNumbers parseF64 f docs) := by
  rw [extreme, docNumbers, List.foldl_filterMap]
  congr 1
  funext best doc
  rw [maxStep]
  cases docNumber parseF64 f doc <;> rfl

theorem foldl_distinctStep (docs : List SearchDoc) (f : Text) :
    IsSet (docs.foldl (distinctStep f) []) (docs.filterMap (docValue f)).toFinset := by
  have h := IsSet.nil.foldl_insertDistinct (docs.filterMap (docValue f))
  rw [List.foldl_filterMap, Finset.empty_union] at h
  convert h using 2
  funext set doc
  rw [distinctStep]
  cases docValue f doc <;> rfl

theorem docNumbers_perm (h : docs.Perm matched) :
    (docNumbers parseF64 f docs).Perm (docNumbers parseF64 f matched) := h.filterMap _

theorem reducedRight_reduce_iff (h : docs.Perm matched) (reducer : FtReducer) :
    ReducedRight parseF64 formatFinite matched (reduce parseF64 formatFinite docs reducer) reducer ↔
      ExtremeShown parseF64 matched reducer := by
  cases reducer with
  | count => exact iff_of_true (congrArg formatUsize h.length_eq) trivial
  | sum f =>
    refine iff_of_true ?_ trivial
    rw [reduce, ReducedRight, foldl_sumStep, zero_add, (docNumbers_perm h).sum_eq]
  | min f =>
    have hbest : ∀ m, ExactNum.IsLeastOf (docNumbers parseF64 f matched) m →
        docs.foldl (minStep parseF64 f) .posInf = m := by
      intro m hm
      rw [foldl_minStep]
      exact ExactNum.IsLeastOf.extreme_eq ⟨(docNumbers_perm h).mem_iff.mpr hm.mem, hm.number,
        fun v hv => hm.least v ((docNumbers_perm h).mem_iff.mp hv)⟩
    rw [ReducedRight, ExtremeShown, reduce]
    constructor
    · intro hright hleast
      have hzero := hright .posInf hleast
      simp [hbest .posInf hleast, formatFloat] at hzero
    · intro hshown m hm
      simp only [hbest m hm]
      rw [if_neg fun heq : m = .posInf => hshown (heq ▸ hm)]
  | max f =>
    have hbest : ∀ m, ExactNum.IsGreatestOf (docNumbers parseF64 f matched) m →
        docs.foldl (maxStep parseF64 f) .negInf = m := by
      intro m hm
      rw [foldl_maxStep]
      exact ExactNum.IsGreatestOf.extreme_eq ⟨(docNumbers_perm h).mem_iff.mpr hm.mem, hm.number,
        fun v hv => hm.greatest v ((docNumbers_perm h).mem_iff.mp hv)⟩
    rw [ReducedRight, ExtremeShown, reduce]
    constructor
    · intro hright hgreatest
      have hzero := hright .negInf hgreatest
      simp [hbest .negInf hgreatest, formatFloat] at hzero
    · intro hshown m hm
      simp only [hbest m hm]
      rw [if_neg fun heq : m = .negInf => hshown (heq ▸ hm)]
  | avg f =>
    refine iff_of_true (fun hnone => ?_) trivial
    have hnumbers := @docNumbers_perm parseF64 docs matched f h
    have hpos : 0 < (docNumbers parseF64 f docs).length := by
      rw [hnumbers.length_eq]
      exact List.length_pos_iff.mpr hnone
    rw [reduce]
    simp only [foldl_avgStep, zero_add]
    rw [if_pos hpos, hnumbers.sum_eq, hnumbers.length_eq]
  | countDistinct f =>
    refine iff_of_true ?_ trivial
    rw [reduce, ReducedRight, (foldl_distinctStep docs f).length_eq,
      List.toFinset_eq_of_perm _ _ (h.filterMap (docValue f))]
  | firstValue f => exact Iff.rfl
  | toList f => exact Iff.rfl

/-! ## Covering -/

variable {store : DocStore} {ids candidates : List DocId} {opts : FtAggregate}
  {hashOrder : List (List Text × List SearchDoc) → List (List Text × List SearchDoc)}
  {groupby : FtGroupBy}

theorem matchedDocs_id (hdocs : ∀ id ∈ ids, (store.lookup id).isSome) :
    (matchedDocs store ids).map SearchDoc.id = ids := searchDoc_id hdocs

theorem length_matchedDocs (hdocs : ∀ id ∈ ids, (store.lookup id).isSome) :
    (matchedDocs store ids).length = ids.length := by
  rw [← List.length_map (f := SearchDoc.id), matchedDocs_id hdocs]

theorem length_search_default (hdocs : ∀ id ∈ candidates, (store.lookup id).isSome) :
    (search parseF64 store .default candidates).docs.length = Nat.min 10 candidates.length := by
  have hkeys : ∀ id ∈ (candidates.mergeSort fun a b =>
      (searchCmp parseF64 store none a b).isLE).take 10, (store.lookup id).isSome :=
    fun id hid => hdocs id (List.mem_mergeSort.mp (List.mem_of_mem_take hid))
  have hlength := length_matchedDocs hkeys
  rw [List.length_take, List.length_mergeSort] at hlength
  exact hlength

theorem search_default_perm (hperm : candidates.Perm ids) (hlength : ids.length ≤ 10) :
    (search parseF64 store .default candidates).docs.Perm (matchedDocs store ids) := by
  have hsorted := (List.mergeSort_perm candidates fun a b =>
    (searchCmp parseF64 store none a b).isLE).trans hperm
  have hall : ((candidates.mergeSort fun a b =>
      (searchCmp parseF64 store none a b).isLE).drop 0).take 10 =
      candidates.mergeSort fun a b => (searchCmp parseF64 store none a b).isLE := by
    rw [List.drop_zero, List.take_of_length_le]
    rwa [hsorted.length_eq]
  have hdocs : (search parseF64 store .default candidates).docs = matchedDocs store
      (candidates.mergeSort fun a b => (searchCmp parseF64 store none a b).isLE) :=
    congrArg (List.filterMap (searchDoc store .default)) hall
  rw [hdocs]
  exact hsorted.filterMap _

theorem groupsOf_aggregateGroups (hhash : ∀ groups, (hashOrder groups).Perm groups)
    (docs : List SearchDoc) : GroupsOf (groupKey groupby.fields) docs
      (aggregateGroups hashOrder groupby docs) :=
  (groupsOf_groupBy _ docs).perm (hhash _)

theorem extremeShown_nil (reducer : FtReducer) : ExtremeShown parseF64 [] reducer := by
  cases reducer with
  | min f => exact fun h => List.not_mem_nil h.mem
  | max f => exact fun h => List.not_mem_nil h.mem
  | _ => trivial

theorem groupsCover_iff (hhash : ∀ groups, (hashOrder groups).Perm groups)
    (hperm : docs.Perm matched) :
    GroupsCover parseF64 formatFinite groupby matched (aggregateGroups hashOrder groupby docs) ↔
      ∀ reducer ∈ groupby.reducers, ∀ doc ∈ matched, ExtremeShown parseF64
        (matched.filter fun other => groupKey groupby.fields other = groupKey groupby.fields doc)
        reducer.1 := by
  have hgroups := @groupsOf_aggregateGroups hashOrder groupby hhash docs
  have hgroup : ∀ group ∈ aggregateGroups hashOrder groupby docs, group.2.Perm
      (matched.filter fun doc => groupKey groupby.fields doc = group.1) := by
    intro group hmem
    rw [hgroups.filtered group hmem]
    exact hperm.filter _
  constructor
  · intro h reducer hreducer doc hdoc
    obtain ⟨group, hmem, hkey⟩ := hgroups.exists_group (hperm.mem_iff.mpr hdoc)
    have hright := h.reduced group hmem reducer hreducer
    rw [reducedRight_reduce_iff (hgroup group hmem), hkey] at hright
    exact hright
  · intro h
    refine ⟨hgroups.distinct, hgroups.once.trans hperm, fun group hmem doc hdoc => ?_, ?_,
      fun group hmem reducer hreducer => ?_⟩
    · rw [hgroups.filtered group hmem, List.mem_filter, decide_eq_true_eq] at hdoc
      exact hdoc.2
    · rw [hgroups.sum_length, hperm.length_eq]
    · rw [reducedRight_reduce_iff (hgroup group hmem)]
      rcases List.eq_nil_or_concat (matched.filter fun doc =>
        groupKey groupby.fields doc = group.1) with hnone | ⟨rest, doc, hsome⟩
      · rw [hnone]
        exact extremeShown_nil reducer.1
      · have hdoc : doc ∈ matched.filter fun doc => groupKey groupby.fields doc = group.1 := by
          rw [hsome]
          simp
        rw [List.mem_filter, decide_eq_true_eq] at hdoc
        have hshown := h reducer hreducer doc hdoc.1
        rwa [hdoc.2] at hshown

/-- Aggregation covers the matches exactly when it fits. -/
theorem aggregate_covers_iff (parseF64 : Text → Option F64) (formatFinite : ℚ → Text)
    {hashOrder : List (List Text × List SearchDoc) → List (List Text × List SearchDoc)}
    (hhash : ∀ groups, (hashOrder groups).Perm groups) (store : DocStore) (opts : FtAggregate)
    {ids candidates : List DocId} (hperm : candidates.Perm ids)
    (hdocs : ∀ id ∈ ids, (store.lookup id).isSome) :
    AggregateCovers parseF64 formatFinite hashOrder store opts ids candidates ↔
      AggregateFits parseF64 store opts ids := by
  have hsearch := @length_search_default parseF64 store candidates
    fun id hid => hdocs id (hperm.mem_iff.mp hid)
  rw [hperm.length_eq] at hsearch
  have hmatched := length_matchedDocs hdocs
  constructor
  · intro h
    have hlength : ids.length ≤ 10 := by
      have hall : (search parseF64 store .default candidates).docs.length =
          (matchedDocs store ids).length := by
        cases hgroupbys : opts.groupbys with
        | nil =>
          have hrows := (h.plain hgroupbys).length_eq
          rwa [aggregateRows, hgroupbys, List.isEmpty_nil, if_pos rfl, List.length_map, List.length_map] at hrows
        | cons groupby groupbys =>
          have hcover := h.grouped groupby (hgroupbys ▸ List.mem_cons_self)
          have honce := (@groupsOf_aggregateGroups hashOrder groupby hhash
            (search parseF64 store .default candidates).docs).once
          exact honce.length_eq.symm.trans hcover.once.length_eq
      rw [hsearch, hmatched] at hall
      exact hall ▸ Nat.min_le_left 10 ids.length
    refine ⟨hlength, fun groupby hgroupby => ?_⟩
    exact (groupsCover_iff hhash (search_default_perm hperm hlength)).mp
      (h.grouped groupby hgroupby)
  · rintro ⟨hlength, hextremes⟩
    have hall := @search_default_perm parseF64 store ids candidates hperm hlength
    refine ⟨fun hnone => ?_, fun groupby hgroupby => ?_⟩
    · rw [aggregateRows, hnone, List.isEmpty_nil, if_pos rfl]
      exact hall.map _
    · exact (groupsCover_iff hhash hall).mpr (hextremes groupby hgroupby)

theorem aggregate_covers_iff_count :
    AggregateCovers (fun _ => none) (fun _ => []) (fun groups => groups)
      [(['a'], ⟨[(['f'], ['x'])], .zero, none⟩), (['b'], ⟨[], .zero, none⟩)]
      ⟨[], [⟨[['f']], [(.count, none)]⟩], [], none⟩ [['a'], ['b']] [['b'], ['a']] := by
  refine (aggregate_covers_iff (fun _ => none) (fun _ => []) (fun groups => List.Perm.refl groups)
    [(['a'], ⟨[(['f'], ['x'])], .zero, none⟩), (['b'], ⟨[], .zero, none⟩)]
    ⟨[], [⟨[['f']], [(.count, none)]⟩], [], none⟩ (by decide) (by decide)).mpr ⟨by decide, ?_⟩
  intro groupby hgroupby reducer hreducer doc _
  rw [List.mem_singleton] at hgroupby
  subst hgroupby
  rw [List.mem_singleton] at hreducer
  subst hreducer
  trivial

/-- Eleven documents in one group, of which ten are counted. -/
theorem aggregate_covers_not_eleven :
    let ids := (List.range 11).map fun n => [Char.ofNat (97 + n)]
    ¬AggregateCovers (fun _ => none) (fun _ => []) (fun groups => groups)
      (ids.map fun id => (id, ⟨[], .zero, none⟩)) ⟨[], [⟨[], [(.count, none)]⟩], [], none⟩ ids ids := by
  intro ids h
  have hdocs : ∀ id ∈ ids, (List.lookup id (ids.map fun id =>
      (id, (⟨[], .zero, none⟩ : StoredDoc)))).isSome := by decide
  have hcounts := (h.grouped ⟨[], [(.count, none)]⟩ List.mem_cons_self).counts
  rw [(groupsOf_aggregateGroups (fun groups => List.Perm.refl groups) _).sum_length,
    length_search_default hdocs, length_matchedDocs hdocs] at hcounts
  exact absurd hcounts (by decide)

end

end Wedb
