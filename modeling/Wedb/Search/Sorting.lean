import Mathlib.Data.Char
import Mathlib.Data.List.Lex
import Wedb.Json.Value
import Wedb.Ordered.ScoreOrder

/-!
# Sorting and paging of matches

The matches of a query come out of a hash set in the order it happens to have. They are sorted
by a field, whose values compare as numbers if both are numbers and as strings otherwise, or by
score; then a page is cut out and its documents are read. How a number is read is what the
parser of floats says.
-/

namespace Wedb

abbrev DocId := Text

structure StoredDoc where
  fields : List (Text × Text)
  score : F64
  payload : Option (List UInt8)
  deriving DecidableEq

abbrev DocStore := List (DocId × StoredDoc)

structure FtSearch where
  nocontent : Bool
  withpayloads : Bool
  withsortkeys : Bool
  returns : List (Text × Option Text)
  sortby : Option (Text × Bool)
  limit : Option (ℕ × ℕ)

def FtSearch.default : FtSearch := ⟨false, false, false, [], none, none⟩

structure SearchDoc where
  id : DocId
  score : F64
  payload : Option (List UInt8)
  sortKey : Option Text
  fields : List (Text × Text)
  deriving DecidableEq

structure SearchResult where
  totalResults : ℕ
  docs : List SearchDoc
  deriving DecidableEq

section
variable (parseF64 : Text → Option F64) (docs : DocStore)

def valueCmp (sa sb : Text) : Ordering :=
  match parseF64 sa, parseF64 sb with
  | some na, some nb => (na.partialCmp nb).getD .eq
  | _, _ => linearCmp sa sb

def sortValue (sortField : Text) (id : DocId) : Option Text :=
  (docs.lookup id).bind fun doc => doc.fields.lookup sortField

def fieldCmp (sortField : Text) (a b : DocId) : Ordering :=
  match sortValue docs sortField a, sortValue docs sortField b with
  | some sa, some sb => valueCmp parseF64 sa sb
  | some _, none => .gt
  | none, some _ => .lt
  | none, none => linearCmp a b

def scoreOf (id : DocId) : F64 :=
  ((docs.lookup id).map StoredDoc.score).getD ⟨0x3FF0000000000000⟩

def scoreCmp (a b : DocId) : Ordering :=
  rankCmp (scoreOf docs a, a) (scoreOf docs b, b)

def searchCmp (sortby : Option (Text × Bool)) (a b : DocId) : Ordering :=
  match sortby with
  | some (sortField, asc) =>
    let ord := fieldCmp parseF64 docs sortField a b
    if asc then ord else ord.swap
  | none => scoreCmp docs a b

def docFields (opts : FtSearch) (storedFields : List (Text × Text)) : List (Text × Text) :=
  if opts.nocontent then []
  else if !opts.returns.isEmpty then
    opts.returns.filterMap fun req =>
      (storedFields.lookup req.1).map fun val => (req.2.getD req.1, val)
  else storedFields

def searchDoc (opts : FtSearch) (key : DocId) : Option SearchDoc :=
  (docs.lookup key).map fun doc =>
    { id := key
      score := doc.score
      payload := if opts.withpayloads then doc.payload else none
      sortKey := if opts.withsortkeys then opts.sortby.bind fun sb => doc.fields.lookup sb.1
        else none
      fields := docFields opts doc.fields }

def search (opts : FtSearch) (candidates : List DocId) : SearchResult :=
  let candidateList :=
    candidates.mergeSort fun a b => (searchCmp parseF64 docs opts.sortby a b).isLE
  let (offset, count) := opts.limit.getD (0, 10)
  let pagedKeys := (candidateList.drop offset).take count
  ⟨candidates.length, pagedKeys.filterMap (searchDoc docs opts)⟩

/-! ## What paging needs -/

/-- The comparison orders the matches strictly and totally, and the pages of any size, each
with the matches in any order of the hash set, contain every match once and in order. -/
def SearchPartitions (opts : FtSearch) (matched : List DocId) : Prop :=
  StrictTotalOn (searchCmp parseF64 docs opts.sortby) {id | id ∈ matched} ∧
    ∃ sorted : List DocId, sorted.Perm matched ∧
      sorted.Pairwise (fun a b => searchCmp parseF64 docs opts.sortby a b = .lt) ∧
      ∀ count ≥ 1, ∀ scan : ℕ → List DocId, (∀ page, (scan page).Perm matched) →
        (∀ page, (search parseF64 docs { opts with limit := some (page * count, count) }
          (scan page)).totalResults = matched.length) ∧
        ∀ pages, matched.length ≤ pages * count →
          ((List.range pages).flatMap fun page =>
            (search parseF64 docs { opts with limit := some (page * count, count) }
              (scan page)).docs.map SearchDoc.id) = sorted

/-- Two values that differ, also as numbers. -/
def ValuesApart (va vb : Text) : Prop :=
  va ≠ vb ∧ ∀ x y, parseF64 va = some x → parseF64 vb = some y → x.lt y = true ∨ y.lt x = true

/-- The values of different documents differ, and no string that is not a number lies between
two numbers that it puts the other way round. -/
structure FieldFits (sortField : Text) (matched : List DocId) : Prop where
  apart : ∀ a ∈ matched, ∀ b ∈ matched, a ≠ b → ∀ va vb, sortValue docs sortField a = some va →
    sortValue docs sortField b = some vb → ValuesApart parseF64 va vb
  between : ∀ a ∈ matched, ∀ b ∈ matched, ∀ c ∈ matched, ∀ va vb vc,
    sortValue docs sortField a = some va → sortValue docs sortField b = some vb →
    sortValue docs sortField c = some vc → ∀ x y, parseF64 va = some x → parseF64 vb = some y →
    parseF64 vc = none → x.lt y = true → vb < vc → ¬vc < va

/-- No document whose score is not a number has its name between two documents whose scores put
them the other way round. -/
def ScoreFits (matched : List DocId) : Prop :=
  ∀ a ∈ matched, ∀ b ∈ matched, ∀ c ∈ matched, (scoreOf docs c).isNan = true →
    (scoreOf docs b).lt (scoreOf docs a) = true → b < c → ¬c < a

def SortFits (sortby : Option (Text × Bool)) (matched : List DocId) : Prop :=
  match sortby with
  | some (sortField, _) => FieldFits parseF64 docs sortField matched
  | none => ScoreFits docs matched

end

/-! ## Comparing -/

section
variable {parseF64 : Text → Option F64} {docs : DocStore} {sortField : Text} {a b c : DocId}
  {va vb : Text} {x y : F64} {matched : List DocId}

theorem fieldCmp_of_some (ha : sortValue docs sortField a = some va)
    (hb : sortValue docs sortField b = some vb) :
    fieldCmp parseF64 docs sortField a b = valueCmp parseF64 va vb := by
  rw [fieldCmp, ha, hb]

theorem fieldCmp_of_none (ha : sortValue docs sortField a = none)
    (hb : sortValue docs sortField b = none) :
    fieldCmp parseF64 docs sortField a b = linearCmp a b := by
  rw [fieldCmp, ha, hb]

theorem valueCmp_of_some (ha : parseF64 va = some x) (hb : parseF64 vb = some y) :
    valueCmp parseF64 va vb = (x.partialCmp y).getD .eq := by
  rw [valueCmp, ha, hb]

theorem valueCmp_of_none (h : ¬((parseF64 va).isSome ∧ (parseF64 vb).isSome)) :
    valueCmp parseF64 va vb = linearCmp va vb := by
  rw [valueCmp]
  cases ha : parseF64 va with
  | none => rfl
  | some x =>
    cases hb : parseF64 vb with
    | none => rfl
    | some y => exact absurd ⟨by rw [ha]; rfl, by rw [hb]; rfl⟩ h

theorem fieldCmp_strictTotalOn_numbers {s : Set DocId}
    (hs : ∀ a ∈ s, ∃ va x, sortValue docs sortField a = some va ∧ parseF64 va = some x) :
    StrictTotalOn (fieldCmp parseF64 docs sortField) s ↔
      ∀ a ∈ s, ∀ b ∈ s, a ≠ b → ∀ va vb x y, sortValue docs sortField a = some va →
        sortValue docs sortField b = some vb → parseF64 va = some x → parseF64 vb = some y →
        x.lt y = true ∨ y.lt x = true := by
  have hcmp : ∀ {a b va vb x y}, sortValue docs sortField a = some va →
      sortValue docs sortField b = some vb → parseF64 va = some x → parseF64 vb = some y →
      fieldCmp parseF64 docs sortField a b = (x.partialCmp y).getD .eq := by
    intro a b va vb x y hva hvb hx hy
    rw [fieldCmp_of_some hva hvb, valueCmp_of_some hx hy]
  constructor
  · intro h a ha b hb hne va vb x y hva hvb hx hy
    rw [← F64.partialCmp_ne_eq, ← hcmp hva hvb hx hy]
    exact h.apart a ha b hb hne
  · intro h
    refine ⟨fun a ha b hb => ?_, fun a ha b hb hne => ?_, fun a ha b hb c hc hab hbc => ?_⟩
    · obtain ⟨va, x, hva, hx⟩ := hs a ha
      obtain ⟨vb, y, hvb, hy⟩ := hs b hb
      rw [hcmp hva hvb hx hy, hcmp hvb hva hy hx, F64.partialCmp_swap]
    · obtain ⟨va, x, hva, hx⟩ := hs a ha
      obtain ⟨vb, y, hvb, hy⟩ := hs b hb
      rw [hcmp hva hvb hx hy, F64.partialCmp_ne_eq]
      exact h a ha b hb hne va vb x y hva hvb hx hy
    · obtain ⟨va, x, hva, hx⟩ := hs a ha
      obtain ⟨vb, y, hvb, hy⟩ := hs b hb
      obtain ⟨vc, z, hvc, hz⟩ := hs c hc
      rw [hcmp hva hvb hx hy, F64.partialCmp_eq_lt] at hab
      rw [hcmp hvb hvc hy hz, F64.partialCmp_eq_lt] at hbc
      rw [hcmp hva hvc hx hz, F64.partialCmp_eq_lt]
      exact F64.lt_trans hab hbc

def isNumber (parseF64 : Text → Option F64) (docs : DocStore) (sortField : Text) (id : DocId) :
    Prop := ((sortValue docs sortField id).bind parseF64).isSome

theorem isNumber_iff (hva : sortValue docs sortField a = some va) :
    isNumber parseF64 docs sortField a ↔ ∃ x, parseF64 va = some x := by
  rw [isNumber, hva, Option.bind_some, Option.isSome_iff_exists]

theorem fieldCmp_strictTotalOn_present :
    StrictTotalOn (fieldCmp parseF64 docs sortField)
        {id | id ∈ {id | id ∈ matched} ∧ (sortValue docs sortField id).isSome} ↔
      FieldFits parseF64 docs sortField matched := by
  have hvalue : ∀ {id : DocId}, (sortValue docs sortField id).isSome →
      ∃ v, sortValue docs sortField id = some v := fun h => Option.isSome_iff_exists.mp h
  rw [@strictTotalOn_mixture DocId Text _ _ _ (fun id => (sortValue docs sortField id).getD [])
    (isNumber parseF64 docs sortField) ?cross, fieldCmp_strictTotalOn_numbers ?numbers]
  case cross =>
    rintro a ⟨-, ha⟩ b ⟨-, hb⟩ h
    obtain ⟨va, hva⟩ := hvalue ha
    obtain ⟨vb, hvb⟩ := hvalue hb
    rw [fieldCmp_of_some hva hvb, hva, hvb]
    rw [isNumber_iff hva, isNumber_iff hvb, ← Option.isSome_iff_exists,
      ← Option.isSome_iff_exists] at h
    exact valueCmp_of_none h
  case numbers =>
    rintro a ⟨⟨-, ha⟩, hnumber⟩
    obtain ⟨va, hva⟩ := hvalue ha
    obtain ⟨x, hx⟩ := (isNumber_iff hva).mp hnumber
    exact ⟨va, x, hva, hx⟩
  constructor
  · rintro ⟨hnumbers, hkeys, hbetween⟩
    refine ⟨fun a ha b hb hne va vb hva hvb => ?_, ?_⟩
    · have haIn : (sortValue docs sortField a).isSome := by
        rw [hva]
        rfl
      have hbIn : (sortValue docs sortField b).isSome := by
        rw [hvb]
        rfl
      by_cases hboth : isNumber parseF64 docs sortField a ∧ isNumber parseF64 docs sortField b
      · have hlt := hnumbers a ⟨⟨ha, haIn⟩, hboth.1⟩ b ⟨⟨hb, hbIn⟩, hboth.2⟩ hne va vb
        refine ⟨fun heq => ?_, fun x y hx hy => hlt x y hva hvb hx hy⟩
        obtain ⟨x, hx⟩ := (isNumber_iff hva).mp hboth.1
        rcases hlt x x hva hvb hx (heq ▸ hx) with h | h <;> simp at h
      · have hkey := hkeys a ⟨ha, haIn⟩ b ⟨hb, hbIn⟩ hne hboth
        rw [hva, hvb] at hkey
        refine ⟨hkey, fun x y hx hy => absurd ⟨?_, ?_⟩ hboth⟩
        · exact (isNumber_iff hva).mpr ⟨x, hx⟩
        · exact (isNumber_iff hvb).mpr ⟨y, hy⟩
    · intro a ha b hb c hc va vb vc hva hvb hvc x y hx hy hnone hlt hbc
      have h := hbetween a ⟨ha, by rw [hva]; rfl⟩ b ⟨hb, by rw [hvb]; rfl⟩ c
        ⟨hc, by rw [hvc]; rfl⟩ ((isNumber_iff hva).mpr ⟨x, hx⟩) ((isNumber_iff hvb).mpr ⟨y, hy⟩)
      rw [hva, hvb, hvc] at h
      refine h ?_ ?_ hbc
      · rw [isNumber_iff hvc, hnone]
        simp
      · rw [fieldCmp_of_some hva hvb, valueCmp_of_some hx hy, F64.partialCmp_eq_lt]
        exact hlt
  · rintro ⟨hapart, hbetween⟩
    refine ⟨?_, ?_, ?_⟩
    · rintro a ⟨⟨ha, -⟩, -⟩ b ⟨⟨hb, -⟩, -⟩ hne va vb x y hva hvb hx hy
      exact (hapart a ha b hb hne va vb hva hvb).2 x y hx hy
    · rintro a ⟨ha, haIn⟩ b ⟨hb, hbIn⟩ hne -
      obtain ⟨va, hva⟩ := hvalue haIn
      obtain ⟨vb, hvb⟩ := hvalue hbIn
      rw [hva, hvb]
      exact (hapart a ha b hb hne va vb hva hvb).1
    · rintro a ⟨ha, haIn⟩ b ⟨hb, hbIn⟩ c ⟨hc, hcIn⟩ hna hnb hnc hab
      obtain ⟨va, hva⟩ := hvalue haIn
      obtain ⟨vb, hvb⟩ := hvalue hbIn
      obtain ⟨vc, hvc⟩ := hvalue hcIn
      obtain ⟨x, hx⟩ := (isNumber_iff hva).mp hna
      obtain ⟨y, hy⟩ := (isNumber_iff hvb).mp hnb
      rw [fieldCmp_of_some hva hvb, valueCmp_of_some hx hy, F64.partialCmp_eq_lt] at hab
      rw [hva, hvb, hvc]
      refine hbetween a ha b hb c hc va vb vc hva hvb hvc x y hx hy ?_ hab
      rw [isNumber_iff hvc, not_exists] at hnc
      exact Option.eq_none_iff_forall_ne_some.mpr hnc

theorem fieldCmp_strictTotalOn_iff :
    StrictTotalOn (fieldCmp parseF64 docs sortField) {id | id ∈ matched} ↔
      FieldFits parseF64 docs sortField matched := by
  rw [@strictTotalOn_layers _ _ _ (fun id => (sortValue docs sortField id).isSome) ?cross,
    fieldCmp_strictTotalOn_present]
  case cross =>
    intro a _ b _ ha hb
    obtain ⟨va, hva⟩ := Option.isSome_iff_exists.mp ha
    have hvb := Option.not_isSome_iff_eq_none.mp hb
    simp only [fieldCmp, hva, hvb]
    exact ⟨trivial, trivial⟩
  refine and_iff_left (@strictTotalOn_of_key _ _ _ _ _ id ?_ Function.injective_id.injOn)
  rintro a ⟨-, ha⟩ b ⟨-, hb⟩
  exact fieldCmp_of_none (Option.not_isSome_iff_eq_none.mp ha) (Option.not_isSome_iff_eq_none.mp hb)

theorem scoreCmp_strictTotalOn_iff :
    StrictTotalOn (scoreCmp docs) {id | id ∈ matched} ↔ ScoreFits docs matched := by
  have hnumber : ∀ {id : DocId}, ¬(scoreOf docs id).isNan = false → (scoreOf docs id).isNan = true :=
    Bool.eq_true_of_not_eq_false
  rw [@strictTotalOn_mixture DocId DocId _ _ _ id (fun id => (scoreOf docs id).isNan = false) ?cross]
  case cross =>
    intro a _ b _ h
    refine rankCmp_of_isNan ?_
    rcases not_and_or.mp h with h | h
    · exact Or.inl (hnumber h)
    · exact Or.inr (hnumber h)
  have hinner : StrictTotalOn (scoreCmp docs)
      {a | a ∈ {id | id ∈ matched} ∧ (scoreOf docs a).isNan = false} := by
    refine @strictTotalOn_of_key _ _ _ _ _ (fun a => rankKey (scoreOf docs a, a)) ?_ ?_
    · rintro a ⟨-, ha⟩ b ⟨-, hb⟩
      exact rankCmp_eq ha hb
    · intro a _ b _ h
      exact (rankKey_inj.mp h).2
  have hlt : ∀ {a b : DocId}, (scoreOf docs a).isNan = false → (scoreOf docs b).isNan = false →
      (scoreCmp docs a b = .lt ↔ (scoreOf docs b).order < (scoreOf docs a).order ∨
        (scoreOf docs a).order = (scoreOf docs b).order ∧ a < b) := by
    intro a b ha hb
    rw [scoreCmp, rankCmp_eq ha hb, linearCmp_eq_lt, rankKey_lt_iff]
  constructor
  · rintro ⟨-, -, h⟩ a ha b hb c hc hnc hscore hbc
    have hscore' := hscore
    rw [F64.lt, Bool.and_eq_true, Bool.and_eq_true, Bool.not_eq_true', Bool.not_eq_true',
      decide_eq_true_eq] at hscore'
    refine h a ha b hb c hc hscore'.1.2 hscore'.1.1 ?_ ?_ hbc
    · rw [hnc]
      exact Bool.true_eq_false.mp
    · exact (hlt hscore'.1.2 hscore'.1.1).mpr (Or.inl hscore'.2)
  · intro h
    refine ⟨hinner, fun a _ b _ hne _ => hne, fun a ha b hb c hc hna hnb hnc hab hbc hca => ?_⟩
    rcases (hlt hna hnb).mp hab with hscore | ⟨-, hname⟩
    · exact h a ha b hb c hc (hnumber hnc) ((F64.lt_iff hnb hna).mpr hscore) hbc hca
    · exact absurd hname (hbc.trans hca).asymm

theorem searchCmp_strictTotalOn_iff (sortby : Option (Text × Bool)) :
    StrictTotalOn (searchCmp parseF64 docs sortby) {id | id ∈ matched} ↔
      SortFits parseF64 docs sortby matched := by
  cases sortby with
  | none => exact scoreCmp_strictTotalOn_iff
  | some sb =>
    obtain ⟨sortField, asc⟩ := sb
    cases asc with
    | true => exact fieldCmp_strictTotalOn_iff
    | false => exact strictTotalOn_reverse.trans fieldCmp_strictTotalOn_iff

/-! ## Paging -/

theorem flatMap_pages (l : List DocId) (count pages : ℕ) :
    ((List.range pages).flatMap fun page => (l.drop (page * count)).take count) =
      l.take (pages * count) := by
  induction pages with
  | zero => simp
  | succ pages ih =>
    rw [List.range_succ, List.flatMap_append, ih, List.flatMap_singleton, Nat.succ_mul,
      List.take_add]

theorem searchDoc_id {opts : FtSearch} {keys : List DocId}
    (h : ∀ key ∈ keys, (docs.lookup key).isSome) :
    (keys.filterMap (searchDoc docs opts)).map SearchDoc.id = keys := by
  induction keys with
  | nil => rfl
  | cons key keys ih =>
    obtain ⟨doc, hdoc⟩ := Option.isSome_iff_exists.mp (h key List.mem_cons_self)
    have hkey : ∃ found, searchDoc docs opts key = some found ∧ found.id = key := by
      rw [searchDoc, hdoc]
      exact ⟨_, rfl, rfl⟩
    obtain ⟨found, hfound, hid⟩ := hkey
    rw [List.filterMap_cons_some hfound, List.map_cons, hid,
      ih fun k hk => h k (List.mem_cons_of_mem key hk)]

/-- Pages partition the matches exactly when the sorted values fit. -/
theorem search_partitions_iff (parseF64 : Text → Option F64) (docs : DocStore) (opts : FtSearch)
    {matched : List DocId} (hnodup : matched.Nodup)
    (hdocs : ∀ id ∈ matched, (docs.lookup id).isSome) :
    SearchPartitions parseF64 docs opts matched ↔ SortFits parseF64 docs opts.sortby matched := by
  rw [SearchPartitions, searchCmp_strictTotalOn_iff]
  refine and_iff_left_of_imp fun hfits => ?_
  obtain ⟨sorted, hperm, hsorted, hsort⟩ :=
    ((searchCmp_strictTotalOn_iff opts.sortby).mpr hfits).sort hnodup
  refine ⟨sorted, hperm, hsorted, fun count _ scan hscan => ⟨fun page => ?_, fun pages hpages => ?_⟩⟩
  · exact (hscan page).length_eq
  · have hpage : ∀ page, (search parseF64 docs { opts with limit := some (page * count, count) }
        (scan page)).docs.map SearchDoc.id = (sorted.drop (page * count)).take count := by
      intro page
      simp only [search, hsort (scan page) (hscan page), Option.getD_some]
      refine searchDoc_id fun key hkey => hdocs key (hperm.mem_iff.mp ?_)
      exact List.mem_of_mem_drop (List.mem_of_mem_take hkey)
    simp only [hpage]
    rw [flatMap_pages, List.take_of_length_le]
    rwa [hperm.length_eq]

theorem search_partitions_iff_scores :
    SearchPartitions (fun _ => none) [(['a'], ⟨[], .zero, none⟩), (['b'], ⟨[], .infinity, none⟩)]
      .default [['b'], ['a']] :=
  (search_partitions_iff (fun _ => none)
    [(['a'], ⟨[], .zero, none⟩), (['b'], ⟨[], .infinity, none⟩)] .default (by decide)
    (by decide)).mpr (by unfold SortFits ScoreFits FtSearch.default; decide)

/-- The number 9 is below the number 10, but the string "1a" lies above "10" and below "9". -/
theorem search_partitions_not_mixed :
    ¬SearchPartitions
      (fun s => if s = ['1', '0'] then some ⟨0x4024000000000000⟩
        else if s = ['9'] then some ⟨0x4022000000000000⟩ else none)
      [(['a'], ⟨[(['f'], ['9'])], .zero, none⟩), (['b'], ⟨[(['f'], ['1', '0'])], .zero, none⟩),
        (['c'], ⟨[(['f'], ['1', 'a'])], .zero, none⟩)]
      { FtSearch.default with sortby := some (['f'], true) } [['a'], ['b'], ['c']] := by
  rintro ⟨h, -⟩
  have hcycle := h.trans ['a'] (by simp) ['b'] (by simp) ['c'] (by simp) (by decide) (by decide)
  exact absurd hcycle (by decide)

end

end Wedb
