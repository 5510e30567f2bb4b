import Mathlib.Data.Char
import Mathlib.Data.List.Lex
import Wedb.Ordered.ScoreOrder
import Wedb.Search.Levenshtein

/-!
# Suggestions

A dictionary of strings with scores is asked for the strings that begin with a prefix, or are
one edit away from it. Strings are lowered by what Unicode says; before that the first bytes of
a string are compared with the prefix up to the case of ASCII letters, which is a panic where a
character is cut. The map is scanned in the order it happens to have.
-/

namespace Wedb

def defaultSugLimit : ℕ := 10

structure SugEntry where
  string : Text
  score : F64
  payload : Option Text
  deriving DecidableEq, Repr

structure SuggestionItem where
  string : Text
  score : F64
  payload : Option Text
  deriving DecidableEq, Repr

structure SuggestionDict where
  entries : List SugEntry
  distinct : (entries.map SugEntry.string).Nodup

namespace SuggestionDict

def new : SuggestionDict := ⟨[], List.nodup_nil⟩

def entryOrInsert (entries : List SugEntry) (string : Text) : List SugEntry :=
  if string ∈ entries.map SugEntry.string then entries else entries ++ [⟨string, .zero, none⟩]

def updateEntry (string : Text) (score : F64) (incr : Bool) (payload : Option Text)
    (entry : SugEntry) : SugEntry :=
  if entry.string = string then
    ⟨entry.string, if incr then entry.score.add score else score,
      if payload.isSome then payload else entry.payload⟩
  else entry

theorem updateEntry_string (string : Text) (score : F64) (incr : Bool) (payload : Option Text)
    (entry : SugEntry) : (updateEntry string score incr payload entry).string = entry.string := by
  rw [updateEntry]
  split_ifs <;> rfl

theorem map_string_updateEntry (string : Text) (score : F64) (incr : Bool) (payload : Option Text)
    (entries : List SugEntry) :
    (entries.map (updateEntry string score incr payload)).map SugEntry.string =
      entries.map SugEntry.string := by
  rw [List.map_map]
  exact List.map_congr_left fun entry _ => updateEntry_string string score incr payload entry

theorem nodup_entryOrInsert {entries : List SugEntry} (h : (entries.map SugEntry.string).Nodup)
    (string : Text) : ((entryOrInsert entries string).map SugEntry.string).Nodup := by
  rw [entryOrInsert]
  split_ifs with hmem
  · exact h
  · rw [List.map_append, List.map_singleton, ← List.concat_eq_append]
    exact h.concat hmem

def sugAdd (dict : SuggestionDict) (string : Text) (score : F64) (incr : Bool)
    (payload : Option Text) : SuggestionDict × ℕ :=
  let entries := (entryOrInsert dict.entries string).map (updateEntry string score incr payload)
  (⟨entries, by
    rw [map_string_updateEntry]
    exact nodup_entryOrInsert dict.distinct string⟩, entries.length)

def sugDel (dict : SuggestionDict) (string : Text) : SuggestionDict × Bool :=
  (⟨dict.entries.filter fun entry => entry.string ≠ string,
    dict.distinct.sublist (List.filter_sublist.map _)⟩,
    decide (string ∈ dict.entries.map SugEntry.string))

end SuggestionDict

inductive SugCommand where
  | add (string : Text) (score : F64) (incr : Bool) (payload : Option Text)
  | del (string : Text)

def SugCommand.run (dict : SuggestionDict) : SugCommand → SuggestionDict
  | .add string score incr payload => (dict.sugAdd string score incr payload).1
  | .del string => (dict.sugDel string).1

def sugRun (commands : List SugCommand) : SuggestionDict :=
  commands.foldl SugCommand.run .new

/-! ## Retrieval -/

def sliceTo : Text → ℕ → Option Text
  | _, 0 => some []
  | [], _ + 1 => none
  | c :: s, n + 1 =>
    if c.utf8Size ≤ n + 1 then (sliceTo s (n + 1 - c.utf8Size)).map (c :: ·) else none

def toAsciiLowercase (b : UInt8) : UInt8 := if 65 ≤ b ∧ b ≤ 90 then b + 32 else b

def eqIgnoreAsciiCase (s t : Text) : Bool :=
  (asBytes s).map toAsciiLowercase == (asBytes t).map toAsciiLowercase

def sugCmp (a b : SugEntry) : Ordering := rankCmp (a.score, a.string) (b.score, b.string)

section
variable (toLowercase : Text → Text) (selectNth : ℕ → List SugEntry → List SugEntry)

def sugMatchLower (prefixLower : Text) (fuzzy : Bool) (entry : SugEntry) : Option Bool :=
  let sLower := toLowercase entry.string
  if prefixLower.isPrefixOf sLower then some true
  else if fuzzy then (levenshteinDistance sLower prefixLower).map fun d => decide (d ≤ 1)
  else some false

def sugMatch (prefixText : Text) (fuzzy : Bool) (entry : SugEntry) : Option Bool := do
  let prefixLower := toLowercase prefixText
  let prefixLen := (asBytes prefixText).length
  if prefixLen ≤ (asBytes entry.string).length then
    let head ← sliceTo entry.string prefixLen
    if eqIgnoreAsciiCase head prefixText then some true
    else sugMatchLower toLowercase prefixLower fuzzy entry
  else sugMatchLower toLowercase prefixLower fuzzy entry

def sugMatched (prefixText : Text) (fuzzy : Bool) : List SugEntry → Option (List SugEntry)
  | [] => some []
  | entry :: entries => do
    let hit ← sugMatch toLowercase prefixText fuzzy entry
    let rest ← sugMatched prefixText fuzzy entries
    some (if hit then entry :: rest else rest)

def sugItem (withscores withpayloads : Bool) (entry : SugEntry) : SuggestionItem :=
  ⟨entry.string, if withscores then entry.score else .zero,
    if withpayloads then entry.payload else none⟩

def sugGet (scan : List SugEntry) (prefixText : Text) (fuzzy withscores withpayloads : Bool)
    (max : Option ℕ) : Option (List SuggestionItem) := do
  let limit := max.getD defaultSugLimit
  let matched ← sugMatched toLowercase prefixText fuzzy scan
  let matched := if limit < matched.length then (selectNth limit matched).take limit else matched
  let matched := matched.mergeSort fun a b => (sugCmp a b).isLE
  some (matched.map (sugItem withscores withpayloads))

end

/-! ## What is asked for -/

/-- Better scores come first, and equal ones by their strings. -/
def SugEntry.Before (a b : SugEntry) : Prop :=
  b.score.lt a.score ∨ a.score.eq b.score ∧ a.string < b.string

instance (a b : SugEntry) : Decidable (a.Before b) := by
  unfold SugEntry.Before
  infer_instance

/-- The lowered string begins with the lowered prefix, or is one edit away from it. -/
def Suggested (toLowercase : Text → Text) (prefixText : Text) (fuzzy : Bool) (string : Text) :
    Prop :=
  toLowercase prefixText <+: toLowercase string ∨
    fuzzy = true ∧ ∃ n ≤ 1, Edits n (toLowercase string) (toLowercase prefixText)

/-- The answer is the start of the ordered list of all that is asked for. -/
def SugAnswers (toLowercase : Text → Text) (entries : List SugEntry) (prefixText : Text)
    (fuzzy withscores withpayloads : Bool) (max : Option ℕ)
    (answer : Option (List SuggestionItem)) : Prop :=
  ∃ hits : List SugEntry, hits.Nodup ∧ hits.Pairwise SugEntry.Before ∧
    (∀ entry, entry ∈ hits ↔ entry ∈ entries ∧
      Suggested toLowercase prefixText fuzzy entry.string) ∧
    answer = some ((hits.take (max.getD defaultSugLimit)).map (sugItem withscores withpayloads))

/-- A documented partial selection: what comes before the `n`-th element is not above it, and
what comes after is not below. -/
def SelectsNth (selectNth : ℕ → List SugEntry → List SugEntry) : Prop :=
  ∀ n l, n < l.length → (∀ entry ∈ l, entry.score.isNan = false) →
    (selectNth n l).Perm l ∧ ∃ pivot, (selectNth n l)[n]? = some pivot ∧
      (∀ a ∈ (selectNth n l).take n, (sugCmp a pivot).isLE = true) ∧
      ∀ b ∈ (selectNth n l).drop (n + 1), (sugCmp pivot b).isLE = true

/-- The prefix ends inside a character of the string. -/
def CutsChar (prefixText string : Text) : Prop :=
  (asBytes prefixText).length ≤ (asBytes string).length ∧
    sliceTo string (asBytes prefixText).length = none

def startsAsciiCase (prefixText string : Text) : Bool :=
  decide ((asBytes prefixText).length ≤ (asBytes string).length) &&
    (sliceTo string (asBytes prefixText).length).any fun head => eqIgnoreAsciiCase head prefixText

section
variable {toLowercase : Text → Text} {prefixText : Text} {fuzzy : Bool}

theorem edits_le_one_iff (s t : Text) : (∃ n ≤ 1, Edits n s t) ↔ editDist s t ≤ 1 := by
  refine ⟨fun ⟨n, hn, h⟩ => h.editDist_le.trans hn, fun h => ⟨editDist s t, h, ?_⟩⟩
  exact edits_editDist s t

instance (string : Text) : Decidable (Suggested toLowercase prefixText fuzzy string) :=
  decidable_of_iff (toLowercase prefixText <+: toLowercase string ∨
    fuzzy = true ∧ editDist (toLowercase string) (toLowercase prefixText) ≤ 1)
    (by rw [Suggested, edits_le_one_iff])

/-- No string is cut inside a character, and each string that only the comparison of bytes lets
in has enough proper suggestions before it. -/
def SugFits (toLowercase : Text → Text) (entries : List SugEntry) (prefixText : Text)
    (fuzzy : Bool) (limit : ℕ) : Prop :=
  ∀ entry ∈ entries, ¬CutsChar prefixText entry.string ∧
    (startsAsciiCase prefixText entry.string = true →
      ¬Suggested toLowercase prefixText fuzzy entry.string →
      limit ≤ entries.countP fun other =>
        Suggested toLowercase prefixText fuzzy other.string ∧ other.Before entry)

/-! ## Matching -/

theorem sugMatchLower_eq (entry : SugEntry) :
    sugMatchLower toLowercase (toLowercase prefixText) fuzzy entry =
      some (decide (Suggested toLowercase prefixText fuzzy entry.string)) := by
  rw [sugMatchLower, levenshteinDistance_eq]
  have hsuggested : Suggested toLowercase prefixText fuzzy entry.string ↔
      (toLowercase prefixText).isPrefixOf (toLowercase entry.string) = true ∨
        fuzzy = true ∧ editDist (toLowercase entry.string) (toLowercase prefixText) ≤ 1 := by
    rw [Suggested, edits_le_one_iff, List.isPrefixOf_iff_prefix]
  by_cases hprefix : (toLowercase prefixText).isPrefixOf (toLowercase entry.string) = true
  · rw [if_pos hprefix, decide_eq_true (hsuggested.mpr (Or.inl hprefix))]
  · rw [if_neg hprefix]
    have hone : decide (Suggested toLowercase prefixText fuzzy entry.string) =
        decide (fuzzy = true ∧ editDist (toLowercase entry.string) (toLowercase prefixText) ≤ 1) :=
      decide_eq_decide.mpr (hsuggested.trans (or_iff_right hprefix))
    rw [hone]
    cases fuzzy with
    | true => simp
    | false => simp

def sugHit (toLowercase : Text → Text) (prefixText : Text) (fuzzy : Bool) (entry : SugEntry) :
    Bool :=
  startsAsciiCase prefixText entry.string ||
    decide (Suggested toLowercase prefixText fuzzy entry.string)

theorem sugMatch_eq (entry : SugEntry) (h : ¬CutsChar prefixText entry.string) :
    sugMatch toLowercase prefixText fuzzy entry =
      some (sugHit toLowercase prefixText fuzzy entry) := by
  simp only [sugMatch, sugHit]
  by_cases hlen : (asBytes prefixText).length ≤ (asBytes entry.string).length
  · rw [if_pos hlen]
    cases hslice : sliceTo entry.string (asBytes prefixText).length with
    | none => exact absurd ⟨hlen, hslice⟩ h
    | some head =>
      have hstarts : startsAsciiCase prefixText entry.string =
          eqIgnoreAsciiCase head prefixText := by
        rw [startsAsciiCase, decide_eq_true hlen, hslice, Bool.true_and, Option.any_some]
      rw [Option.bind_eq_bind, Option.bind_some, hstarts]
      by_cases hhead : eqIgnoreAsciiCase head prefixText = true
      · rw [if_pos hhead, hhead, Bool.true_or]
      · rw [if_neg hhead, sugMatchLower_eq, Bool.eq_false_of_not_eq_true hhead, Bool.false_or]
  · rw [if_neg hlen, sugMatchLower_eq, startsAsciiCase, decide_eq_false hlen, Bool.false_and,
      Bool.false_or]

theorem sugMatch_none (entry : SugEntry) (h : CutsChar prefixText entry.string) :
    sugMatch toLowercase prefixText fuzzy entry = none := by
  simp only [sugMatch]
  rw [if_pos h.1, h.2]
  rfl

theorem sugMatched_eq {scan : List SugEntry} (h : ∀ entry ∈ scan, ¬CutsChar prefixText entry.string) :
    sugMatched toLowercase prefixText fuzzy scan =
      some (scan.filter (sugHit toLowercase prefixText fuzzy)) := by
  induction scan with
  | nil => rfl
  | cons entry scan ih =>
    rw [sugMatched, sugMatch_eq entry (h entry List.mem_cons_self),
      ih fun e he => h e (List.mem_cons_of_mem entry he)]
    simp only [Option.bind_eq_bind, Option.bind_some, List.filter_cons]

theorem sugMatched_none {scan : List SugEntry} {entry : SugEntry} (hmem : entry ∈ scan)
    (h : CutsChar prefixText entry.string) :
    sugMatched toLowercase prefixText fuzzy scan = none := by
  induction scan with
  | nil => cases hmem
  | cons first scan ih =>
    rw [sugMatched]
    rcases List.mem_cons.mp hmem with rfl | hmem
    · rw [sugMatch_none entry h]
      rfl
    · rw [ih hmem]
      cases sugMatch toLowercase prefixText fuzzy first with
      | none => rfl
      | some hit => rfl

end

/-! ## The order -/

def sugKey (entry : SugEntry) : ℤᵒᵈ ×ₗ Text := rankKey (entry.score, entry.string)

section
variable {a b : SugEntry}

theorem sugCmp_isLE (ha : a.score.isNan = false) (hb : b.score.isNan = false) :
    (sugCmp a b).isLE = decide (sugKey a ≤ sugKey b) := by
  rw [sugCmp, rankCmp_eq ha hb, Bool.eq_iff_iff, decide_eq_true_eq]
  exact isLE_linearCmp

theorem before_iff_sugKey_lt (ha : a.score.isNan = false) (hb : b.score.isNan = false) :
    a.Before b ↔ sugKey a < sugKey b := by
  rw [SugEntry.Before, F64.lt_iff hb ha, F64.eq_iff ha hb, sugKey, sugKey, rankKey_lt_iff]

theorem nodup_map_sugKey {entries : List SugEntry} (h : (entries.map SugEntry.string).Nodup) :
    (entries.map sugKey).Nodup := by
  refine List.Nodup.of_map (fun k => (ofLex k).2) ?_
  rwa [List.map_map]

theorem CutAt.of_selectsNth {selectNth : ℕ → List SugEntry → List SugEntry}
    (hselect : SelectsNth selectNth) {n : ℕ} {l : List SugEntry} (hn : n < l.length)
    (hscores : ∀ entry ∈ l, entry.score.isNan = false) : CutAt sugKey n l (selectNth n l) := by
  obtain ⟨hperm, pivot, hpivot, hfront, hback⟩ := hselect n l hn hscores
  have hscore : ∀ {e : SugEntry}, e ∈ selectNth n l → e.score.isNan = false :=
    fun he => hscores _ (hperm.mem_iff.mp he)
  have hpivotScore := hscore (List.mem_of_getElem? hpivot)
  refine ⟨hperm, fun a ha b hb => ?_⟩
  have haLe : sugKey a ≤ sugKey pivot := by
    have hle := hfront a ha
    rw [sugCmp_isLE (hscore (List.mem_of_mem_take ha)) hpivotScore] at hle
    exact of_decide_eq_true hle
  obtain ⟨hlt, rfl⟩ := List.getElem?_eq_some_iff.mp hpivot
  rw [List.drop_eq_getElem_cons hlt] at hb
  rcases List.mem_cons.mp hb with rfl | hb
  · exact haLe
  · have hle := hback b hb
    rw [sugCmp_isLE hpivotScore (hscore (List.mem_of_mem_drop hb))] at hle
    exact haLe.trans (of_decide_eq_true hle)

end

/-! ## Answers -/

section
variable {toLowercase : Text → Text} {selectNth : ℕ → List SugEntry → List SugEntry}
  {entries scan : List SugEntry} {prefixText : Text} {fuzzy withscores withpayloads : Bool}
  {max : Option ℕ}

theorem sort_eq_sortByKey {l : List SugEntry} (hscores : ∀ entry ∈ l, entry.score.isNan = false) :
    (l.mergeSort fun a b => (sugCmp a b).isLE) = sortByKey sugKey l := by
  have h : ∀ a ∈ l, ∀ b ∈ l, (sugCmp a b).isLE = decide (sugKey (id a) ≤ sugKey (id b)) :=
    fun a ha b hb => sugCmp_isLE (hscores a ha) (hscores b hb)
  have hsort := List.map_mergeSort (f := id) (s := fun a b => decide (sugKey a ≤ sugKey b)) h
  rwa [List.map_id, List.map_id] at hsort

theorem sugGet_eq (hselect : SelectsNth selectNth)
    (hdistinct : (scan.map SugEntry.string).Nodup)
    (hscores : ∀ entry ∈ scan, entry.score.isNan = false)
    (hcuts : ∀ entry ∈ scan, ¬CutsChar prefixText entry.string) :
    sugGet toLowercase selectNth scan prefixText fuzzy withscores withpayloads max =
      some (((sortByKey sugKey (scan.filter (sugHit toLowercase prefixText fuzzy))).take
        (max.getD defaultSugLimit)).map (sugItem withscores withpayloads)) := by
  have hmatched := hdistinct.sublist
    ((List.filter_sublist (p := sugHit toLowercase prefixText fuzzy)).map SugEntry.string)
  have hmatchedScores : ∀ entry ∈ scan.filter (sugHit toLowercase prefixText fuzzy),
      entry.score.isNan = false := fun entry he => hscores entry (List.mem_of_mem_filter he)
  rw [sugGet, sugMatched_eq hcuts]
  simp only [Option.bind_eq_bind, Option.bind_some]
  by_cases hlimit : max.getD defaultSugLimit <
      (scan.filter (sugHit toLowercase prefixText fuzzy)).length
  · have hcut := CutAt.of_selectsNth hselect hlimit hmatchedScores
    rw [if_pos hlimit, sort_eq_sortByKey, hcut.sortByKey_take (nodup_map_sugKey hmatched) hlimit.le]
    intro entry he
    exact hmatchedScores entry (hcut.perm.mem_iff.mp (List.mem_of_mem_take he))
  · rw [if_neg hlimit, sort_eq_sortByKey hmatchedScores, List.take_of_length_le]
    rw [length_sortByKey]
    exact not_lt.mp hlimit

theorem sugAnswers_iff {answer : Option (List SuggestionItem)}
    (hdistinct : (entries.map SugEntry.string).Nodup)
    (hscores : ∀ entry ∈ entries, entry.score.isNan = false) :
    SugAnswers toLowercase entries prefixText fuzzy withscores withpayloads max answer ↔
      answer = some (((sortByKey sugKey (entries.filter fun entry =>
        Suggested toLowercase prefixText fuzzy entry.string)).take
          (max.getD defaultSugLimit)).map (sugItem withscores withpayloads)) := by
  have hkept := hdistinct.sublist ((List.filter_sublist (p := fun entry : SugEntry =>
    decide (Suggested toLowercase prefixText fuzzy entry.string))).map SugEntry.string)
  constructor
  · rintro ⟨hits, hnodup, hsorted, hmem, rfl⟩
    have hperm : hits.Perm (entries.filter fun entry =>
        Suggested toLowercase prefixText fuzzy entry.string) := by
      refine (List.perm_ext_iff_of_nodup hnodup (List.Nodup.of_map _ hkept)).mpr fun entry => ?_
      rw [hmem, List.mem_filter, decide_eq_true_eq]
    have hkeys : hits.Pairwise fun a b => sugKey a < sugKey b := by
      refine hsorted.imp_of_mem fun ha hb hab => ?_
      exact (before_iff_sugKey_lt (hscores _ ((hmem _).mp ha).1)
        (hscores _ ((hmem _).mp hb).1)).mp hab
    rw [eq_sortByKey hperm hkeys]
  · rintro rfl
    have hmem : ∀ entry, entry ∈ sortByKey sugKey (entries.filter fun entry =>
        Suggested toLowercase prefixText fuzzy entry.string) ↔ entry ∈ entries ∧
          Suggested toLowercase prefixText fuzzy entry.string := by
      intro entry
      rw [mem_sortByKey, List.mem_filter, decide_eq_true_eq]
    refine ⟨_, ?_, ?_, hmem, rfl⟩
    · exact (sortByKey_perm sugKey _).nodup_iff.mpr (List.Nodup.of_map _ hkept)
    · refine (sortByKey_pairwise (nodup_map_sugKey hkept)).imp_of_mem fun ha hb hab => ?_
      exact (before_iff_sugKey_lt (hscores _ ((hmem _).mp ha).1)
        (hscores _ ((hmem _).mp hb).1)).mpr hab

theorem map_sugItem_inj {l m : List SugEntry} (hdistinct : (entries.map SugEntry.string).Nodup)
    (hl : ∀ entry ∈ l, entry ∈ entries) (hm : ∀ entry ∈ m, entry ∈ entries) :
    l.map (sugItem withscores withpayloads) = m.map (sugItem withscores withpayloads) ↔ l = m := by
  refine ⟨fun h => ?_, fun h => by rw [h]⟩
  induction l generalizing m with
  | nil => exact (List.map_eq_nil_iff.mp h.symm).symm
  | cons a l ih =>
    cases m with
    | nil => cases h
    | cons b m =>
      rw [List.map_cons, List.map_cons, List.cons_eq_cons] at h
      have hstring : a.string = b.string := congrArg SuggestionItem.string h.1
      have hab : a = b := List.inj_on_of_nodup_map hdistinct (hl a List.mem_cons_self)
        (hm b List.mem_cons_self) hstring
      rw [hab, ih (fun e he => hl e (List.mem_cons_of_mem a he))
        (fun e he => hm e (List.mem_cons_of_mem b he)) h.2]

theorem sugFits_iff_take (hdistinct : (entries.map SugEntry.string).Nodup)
    (hscores : ∀ entry ∈ entries, entry.score.isNan = false)
    (hcuts : ∀ entry ∈ entries, ¬CutsChar prefixText entry.string) (limit : ℕ) :
    SugFits toLowercase entries prefixText fuzzy limit ↔
      (sortByKey sugKey (entries.filter (sugHit toLowercase prefixText fuzzy))).take limit =
        (sortByKey sugKey (entries.filter fun entry =>
          Suggested toLowercase prefixText fuzzy entry.string)).take limit := by
  have hhits := nodup_map_sugKey (hdistinct.sublist
    ((List.filter_sublist (p := sugHit toLowercase prefixText fuzzy)).map SugEntry.string))
  have hfilter : (entries.filter (sugHit toLowercase prefixText fuzzy)).filter
      (fun entry => Suggested toLowercase prefixText fuzzy entry.string) = entries.filter
        fun entry => Suggested toLowercase prefixText fuzzy entry.string := by
    rw [List.filter_filter]
    refine List.filter_congr fun entry _ => ?_
    rw [sugHit, Bool.and_or_distrib_left, Bool.and_self, Bool.or_eq_right_iff_imp]
    exact fun h => (Bool.and_eq_true _ _ ▸ h).1
  rw [← hfilter, ← sortByKey_filter _ hhits,
    take_eq_take_filter_iff _ (sortByKey_pairwise hhits) limit]
  have hcount : ∀ entry ∈ entries, (sortByKey sugKey (entries.filter
      (sugHit toLowercase prefixText fuzzy))).countP (fun other =>
        decide (Suggested toLowercase prefixText fuzzy other.string) &&
          decide (sugKey other < sugKey entry)) = entries.countP fun other =>
            Suggested toLowercase prefixText fuzzy other.string ∧ other.Before entry := by
    intro entry hentry
    rw [(sortByKey_perm sugKey _).countP_eq, List.countP_filter]
    refine List.countP_congr fun other hother => ?_
    rw [decide_eq_true_eq, Bool.and_eq_true, Bool.and_eq_true, decide_eq_true_eq,
      decide_eq_true_eq, before_iff_sugKey_lt (hscores other hother) (hscores entry hentry)]
    refine and_iff_left_of_imp fun h => ?_
    rw [sugHit, decide_eq_true h.1, Bool.or_true]
  constructor
  · intro h entry hentry hnot
    rw [mem_sortByKey, List.mem_filter, sugHit, Bool.or_eq_true] at hentry
    rw [decide_eq_false_iff_not] at hnot
    have hstarts := hentry.2.resolve_right fun hs => hnot (of_decide_eq_true hs)
    rw [hcount entry hentry.1]
    exact (h entry hentry.1).2 hstarts hnot
  · intro h entry hentry
    refine ⟨hcuts entry hentry, fun hstarts hnot => ?_⟩
    rw [← hcount entry hentry]
    refine h entry ?_ (decide_eq_false hnot)
    rw [mem_sortByKey, List.mem_filter, sugHit, hstarts, Bool.true_or]
    exact ⟨hentry, rfl⟩

theorem sugAnswers_sugGet_iff (hselect : SelectsNth selectNth) (hscan : scan.Perm entries)
    (hdistinct : (entries.map SugEntry.string).Nodup)
    (hscores : ∀ entry ∈ entries, entry.score.isNan = false) :
    SugAnswers toLowercase entries prefixText fuzzy withscores withpayloads max
        (sugGet toLowercase selectNth scan prefixText fuzzy withscores withpayloads max) ↔
      SugFits toLowercase entries prefixText fuzzy (max.getD defaultSugLimit) := by
  rw [sugAnswers_iff hdistinct hscores]
  by_cases hcuts : ∀ entry ∈ entries, ¬CutsChar prefixText entry.string
  · have hscanDistinct := (hscan.map SugEntry.string).nodup_iff.mpr hdistinct
    have hsorted : sortByKey sugKey (scan.filter (sugHit toLowercase prefixText fuzzy)) =
        sortByKey sugKey (entries.filter (sugHit toLowercase prefixText fuzzy)) := by
      refine eq_sortByKey ((sortByKey_perm _ _).trans (hscan.filter _)) ?_
      exact sortByKey_pairwise (nodup_map_sugKey (hscanDistinct.sublist
        (List.filter_sublist.map SugEntry.string)))
    rw [sugGet_eq hselect hscanDistinct (fun e he => hscores e (hscan.mem_iff.mp he))
      (fun e he => hcuts e (hscan.mem_iff.mp he)), Option.some_inj, hsorted,
      sugFits_iff_take hdistinct hscores hcuts]
    refine map_sugItem_inj hdistinct (fun entry he => ?_) (fun entry he => ?_)
    · exact List.mem_of_mem_filter (mem_sortByKey.mp (List.mem_of_mem_take he))
    · exact List.mem_of_mem_filter (mem_sortByKey.mp (List.mem_of_mem_take he))
  · obtain ⟨entry, hentry⟩ := not_forall.mp hcuts
    rw [Classical.not_imp, not_not] at hentry
    obtain ⟨hentry, hcut⟩ := hentry
    rw [sugGet, sugMatched_none (hscan.mem_iff.mpr hentry) hcut]
    refine ⟨fun h => (Option.some_ne_none _ h.symm).elim, fun h => ?_⟩
    exact absurd hcut (h entry hentry).1

end

/-! ## Runs -/

namespace SuggestionDict

end SuggestionDict

/-- After every run the answers are right exactly when the dictionary fits the prefix. -/
theorem sugGet_answers_iff (toLowercase : Text → Text)
    {selectNth : ℕ → List SugEntry → List SugEntry} (hselect : SelectsNth selectNth)
    (commands : List SugCommand) {scan : List SugEntry} (hscan : scan.Perm (sugRun commands).entries)
    (hscores : ∀ entry ∈ (sugRun commands).entries, entry.score.isNan = false) (prefixText : Text)
    (fuzzy withscores withpayloads : Bool) (max : Option ℕ) :
    SugAnswers toLowercase (sugRun commands).entries prefixText fuzzy withscores withpayloads max
        (sugGet toLowercase selectNth scan prefixText fuzzy withscores withpayloads max) ↔
      SugFits toLowercase (sugRun commands).entries prefixText fuzzy
        (max.getD defaultSugLimit) :=
  sugAnswers_sugGet_iff hselect hscan (sugRun commands).distinct hscores

theorem selectsNth_sortByKey : SelectsNth fun _ l => sortByKey sugKey l := by
  intro n l hn hscores
  have hlen : n < (sortByKey sugKey l).length := by rwa [length_sortByKey]
  have hscore : ∀ {e : SugEntry}, e ∈ sortByKey sugKey l → e.score.isNan = false :=
    fun he => hscores _ (mem_sortByKey.mp he)
  have hsorted := sortByKey_pairwise_le sugKey l
  have hpivot := List.getElem_mem hlen
  rw [← List.take_append_drop n (sortByKey sugKey l), List.drop_eq_getElem_cons hlen,
    List.pairwise_append, List.pairwise_cons] at hsorted
  refine ⟨sortByKey_perm sugKey l, _, List.getElem?_eq_getElem hlen, ?_, ?_⟩
  · intro a ha
    rw [sugCmp_isLE (hscore (List.mem_of_mem_take ha)) (hscore hpivot)]
    exact decide_eq_true (hsorted.2.2 a ha _ List.mem_cons_self)
  · intro b hb
    rw [sugCmp_isLE (hscore hpivot) (hscore (List.mem_of_mem_drop hb))]
    exact decide_eq_true (hsorted.2.1.1 b hb)

theorem sugGet_answers_iff_ab :
    let commands := [SugCommand.add ['a', 'b'] .zero false none, .add ['b'] .infinity true none]
    SugAnswers (List.map Char.toLower) (sugRun commands).entries ['A'] true true true none
        (sugGet (List.map Char.toLower) (fun _ l => sortByKey sugKey l) (sugRun commands).entries
          ['A'] true true true none) ↔
      SugFits (List.map Char.toLower) (sugRun commands).entries ['A'] true 10 :=
  sugGet_answers_iff (List.map Char.toLower) selectsNth_sortByKey
    [.add ['a', 'b'] .zero false none, .add ['b'] .infinity true none] (List.Perm.refl _)
    (by decide) ['A'] true true true none

/-- The prefix "a" is one byte long, and the string "é" has no character that ends there. -/
theorem sugGet_not_total :
    ¬SugAnswers (List.map Char.toLower) (sugRun [.add ['é'] .zero false none]).entries ['a'] false
      false false none
      (sugGet (List.map Char.toLower) (fun _ l => sortByKey sugKey l)
        (sugRun [.add ['é'] .zero false none]).entries ['a'] false false false none) := by
  rintro ⟨hits, -, -, -, h⟩
  have hnone : sugGet (List.map Char.toLower) (fun _ l => sortByKey sugKey l)
      (sugRun [.add ['é'] .zero false none]).entries ['a'] false false false none = none := by
    decide
  rw [hnone] at h
  cases h

end Wedb
