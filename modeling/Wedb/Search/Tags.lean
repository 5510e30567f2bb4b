import Wedb.Search.Index

/-!
# Tags in queries

A query for one escaped tag holds no separator that is not escaped, so that both splitters
leave it whole and its clause is the tag. What is asked for is then the tag as it is read back,
and a star at its end asks for a prefix.
-/

namespace Wedb

open JsonPath (isWhitespace trim stripPrefix splitAtFirst)

/-! ## Guarded text -/

/-- No separator stands in the text unless it is escaped; the flag is a pending escape. -/
def guarded (isSeparator : Char → Bool) : Bool → Text → Bool
  | _, [] => true
  | true, _ :: s => guarded isSeparator false s
  | false, c :: s =>
    if c = '\\' then guarded isSeparator true s else !isSeparator c && guarded isSeparator false s

/-- The text is guarded and ends without a pending escape. -/
def Sealed (s : Text) : Prop :=
  ∀ isSeparator : Char → Bool, (∀ c, isSeparator c = true → c = '|' ∨ isWhitespace c = true) →
    ∀ rest, guarded isSeparator false (s ++ rest) = guarded isSeparator false rest

section
variable {isSeparator : Char → Bool} {keepEmpty : Bool} {s t : Text} {c : Char}

theorem ScanState.next_escaped (st : ScanState) (c : Char) :
    (st.next c).escaped = (!st.escaped && decide (c = '\\')) := by
  obtain ⟨paren, bracket, brace, inQuote, escaped⟩ := st
  cases escaped with
  | true => simp [ScanState.next]
  | false =>
    rw [ScanState.next]
    by_cases hc : c = '\\'
    · simp [hc]
    · simp only [Bool.false_eq_true, if_false, if_neg hc, decide_eq_false hc, Bool.and_false]
      split_ifs <;> rfl

theorem foldl_splitStep_of_guarded (hslash : isSeparator '\\' = false) (parts : List Text)
    (cur : Text) (st : ScanState) (h : guarded isSeparator st.escaped s = true) :
    s.foldl (splitStep isSeparator keepEmpty) ⟨parts, cur, st⟩ =
      ⟨parts, cur ++ s, s.foldl ScanState.next st⟩ := by
  induction s generalizing cur st with
  | nil => simp
  | cons c s ih =>
    have hstay : (st.atTop && isSeparator c) = false ∧
        guarded isSeparator (st.next c).escaped s = true := by
      rw [ScanState.next_escaped]
      cases hescaped : st.escaped with
      | true =>
        rw [hescaped, guarded] at h
        exact ⟨by simp [ScanState.atTop, hescaped], h⟩
      | false =>
        rw [hescaped, guarded] at h
        by_cases hc : c = '\\'
        · rw [if_pos hc] at h
          exact ⟨by rw [hc, hslash, Bool.and_false], by simpa [hc] using h⟩
        · rw [if_neg hc, Bool.and_eq_true, Bool.not_eq_true'] at h
          exact ⟨by rw [h.1, Bool.and_false], by simpa [hc] using h.2⟩
    rw [List.foldl_cons, splitStep, hstay.1, if_neg Bool.false_ne_true, ih _ _ hstay.2]
    simp

theorem splitTop_of_guarded (hslash : isSeparator '\\' = false) (hne : s ≠ [])
    (h : guarded isSeparator false s = true) : splitTop isSeparator keepEmpty s = [s] := by
  rw [splitTop, foldl_splitStep_of_guarded hslash [] [] .start h]
  simp [hne]

theorem Sealed.append (hs : Sealed s) (ht : Sealed t) : Sealed (s ++ t) := by
  intro isSeparator hsep rest
  rw [List.append_assoc, hs isSeparator hsep, ht isSeparator hsep]

theorem sealed_singleton (hslash : c ≠ '\\') (hbar : c ≠ '|') (hblank : isWhitespace c = false) :
    Sealed [c] := by
  intro isSeparator hsep rest
  have hc : isSeparator c = false := by
    by_contra hne
    rcases hsep c (Bool.eq_true_of_not_eq_false hne) with h | h
    · exact hbar h
    · rw [hblank] at h
      cases h
  rw [List.singleton_append, guarded, if_neg hslash, hc]
  rfl

theorem sealed_escapeTag (tag : Text) : Sealed (escapeTag '|' tag) := by
  intro isSeparator hsep rest
  induction tag with
  | nil => rfl
  | cons c tag ih =>
    rw [escapeTag_cons, List.append_assoc]
    cases hc : isSpecial '|' c with
    | true =>
      rw [if_pos rfl]
      simp only [List.cons_append, List.nil_append, guarded, if_true, ih]
    | false =>
      rw [if_neg Bool.false_ne_true, List.singleton_append, guarded,
        if_neg (ne_backslash_of_not_special hc), ih]
      have hnot : isSeparator c = false := by
        by_contra hne
        rcases hsep c (Bool.eq_true_of_not_eq_false hne) with h | h <;> simp [isSpecial, h] at hc
      rw [hnot]
      rfl

theorem Sealed.splitTop (hs : Sealed s)
    (hsep : ∀ c, isSeparator c = true → c = '|' ∨ isWhitespace c = true) (hne : s ≠ []) :
    splitTop isSeparator keepEmpty s = [s] := by
  have hslash : isSeparator '\\' = false := by
    by_contra h
    rcases hsep '\\' (Bool.eq_true_of_not_eq_false h) with h | h
    · exact absurd h (by decide)
    · exact absurd h (by decide)
  refine splitTop_of_guarded hslash hne ?_
  have h := hs isSeparator hsep []
  rwa [List.append_nil] at h

end

/-! ## The query for a tag -/

/-- A name that a query can spell in front of a colon. -/
def PlainName (name : Text) : Prop :=
  ∀ c ∈ name, c ≠ ':' ∧ c ≠ '|' ∧ c ≠ '\\' ∧ isWhitespace c = false

def tagQuery (name body : Text) : Text := '@' :: (name ++ ':' :: '{' :: (body ++ ['}']))

section
variable {name body tag : Text}

theorem sealed_plainName (h : PlainName name) : Sealed name := by
  induction name with
  | nil => exact fun _ _ _ => rfl
  | cons c name ih =>
    have hc := h c List.mem_cons_self
    exact (sealed_singleton hc.2.2.1 hc.2.1 hc.2.2.2).append
      (ih fun d hd => h d (List.mem_cons_of_mem c hd))

theorem tagQuery_eq (name body : Text) :
    tagQuery name body = ['@'] ++ (name ++ ([':'] ++ (['{'] ++ (body ++ ['}'])))) := rfl

theorem sealed_tagQuery (hname : PlainName name) (hbody : Sealed body) :
    Sealed (tagQuery name body) := by
  rw [tagQuery_eq]
  refine (sealed_singleton (by decide) (by decide) (by decide)).append ?_
  refine (sealed_plainName hname).append ?_
  refine (sealed_singleton (by decide) (by decide) (by decide)).append ?_
  refine (sealed_singleton (by decide) (by decide) (by decide)).append ?_
  exact hbody.append (sealed_singleton (by decide) (by decide) (by decide))

theorem trim_of_edges {s : Text} (hhead : ∀ c, s.head? = some c → isWhitespace c = false)
    (hlast : ∀ c, s.getLast? = some c → isWhitespace c = false) : trim s = s :=
  trimMatches_of_edges hhead hlast

theorem splitAtFirst_colon (hname : PlainName name) (rest : Text) :
    splitAtFirst [':'] (name ++ ':' :: rest) = some (name, rest) := by
  induction name with
  | nil => simp [splitAtFirst]
  | cons c name ih =>
    have hcolon : ([':'].isPrefixOf (c :: (name ++ ':' :: rest))) = false := by
      rw [List.isPrefixOf_cons_cons, beq_false_of_ne (hname c List.mem_cons_self).1.symm, Bool.false_and]
    rw [List.cons_append, splitAtFirst, hcolon, if_neg Bool.false_ne_true,
      ih fun d hd => hname d (List.mem_cons_of_mem c hd)]
    rfl

theorem getLast?_of_splitAtFirst {pattern s left right : Text} {c : Char}
    (h : splitAtFirst pattern s = some (left, right)) (hlast : s.getLast? = some c)
    (hc : c ∉ pattern) (hne : pattern ≠ []) : right.getLast? = some c := by
  induction s generalizing left with
  | nil => cases hlast
  | cons d s ih =>
    rw [splitAtFirst] at h
    by_cases hpre : pattern.isPrefixOf (d :: s) = true
    · rw [if_pos hpre, Option.some_inj, Prod.mk.injEq] at h
      obtain ⟨-, rfl⟩ := h
      obtain ⟨rest, hrest⟩ := List.isPrefixOf_iff_prefix.mp hpre
      rw [← hrest, List.drop_left]
      rw [← hrest] at hlast
      by_cases hempty : rest = []
      · rw [hempty, List.append_nil] at hlast
        exact absurd (List.mem_of_getLast? hlast) hc
      · rwa [List.getLast?_append_of_ne_nil _ hempty] at hlast
    · rw [if_neg hpre, Option.map_eq_some_iff] at h
      obtain ⟨⟨before, after⟩, hfound, heq⟩ := h
      cases heq
      have hs : s ≠ [] := by
        rintro rfl
        simp [splitAtFirst, hne] at hfound
      rw [List.getLast?_cons_of_ne_nil hs] at hlast
      exact ih hfound hlast

theorem trim_getLast? {s : Text} {c : Char} (hlast : s.getLast? = some c)
    (hc : isWhitespace c = false) : (trim s).getLast? = some c := by
  rcases List.eq_nil_or_concat s with rfl | ⟨front, d, rfl⟩
  · cases hlast
  · rw [List.concat_eq_append] at hlast ⊢
    rw [List.getLast?_concat, Option.some_inj] at hlast
    subst hlast
    rw [trim, List.dropWhile_append]
    split_ifs
    · rw [List.dropWhile_cons, hc, if_neg Bool.false_ne_true, List.rdropWhile_singleton, hc,
        if_neg Bool.false_ne_true]
      rfl
    · rw [List.rdropWhile_concat_neg _ _ _ (by rw [hc]; exact Bool.false_ne_true),
        List.getLast?_concat]

theorem enclosed_of_getLast? {first last : Char} {s : Text} {c : Char}
    (hlast : s.getLast? = some c) (hc : c ≠ last) : enclosed first last s = none := by
  rw [enclosed, if_neg]
  rintro ⟨-, h, -⟩
  rw [hlast, Option.some_inj] at h
  exact hc h

theorem enclosed_of_head? {first last : Char} {s : Text} {c : Char}
    (hhead : s.head? = some c) (hc : c ≠ first) : enclosed first last s = none := by
  rw [enclosed, if_neg]
  rintro ⟨h, -, -⟩
  rw [hhead, Option.some_inj] at h
  exact hc h

theorem enclosed_cons_concat (first last : Char) (body : Text) :
    enclosed first last (first :: (body ++ [last])) = some body := by
  rw [enclosed, if_pos]
  · simp
  · refine ⟨rfl, ?_, by simp⟩
    rw [← List.cons_append, List.getLast?_concat]

theorem head?_tagQuery : (tagQuery name body).head? = some '@' := rfl

theorem getLast?_tagQuery : (tagQuery name body).getLast? = some '}' := by
  rw [tagQuery_eq]
  simp only [← List.append_assoc, List.getLast?_concat]

theorem trim_tagQuery : trim (tagQuery name body) = tagQuery name body := by
  refine trim_of_edges (fun c hc => ?_) fun c hc => ?_
  · cases head?_tagQuery.symm.trans hc
    decide
  · cases getLast?_tagQuery.symm.trans hc
    decide

theorem parse_tagQuery (api : QueryApi) (params : Params) (hname : PlainName name)
    (hbody : Sealed body) : parseSearchQueryWithParams api params (tagQuery name body) =
      some (.tag name (splitTagList params body)) := by
  have hsealed := sealed_tagQuery hname hbody
  have hor : splitTopLevelOr (tagQuery name body) = [tagQuery name body] := by
    refine hsealed.splitTop (fun c hc => Or.inl (beq_iff_eq.mp hc)) ?_
    exact List.cons_ne_nil _ _
  have htokens : splitQueryTokens (tagQuery name body) = [tagQuery name body] :=
    hsealed.splitTop (fun c hc => Or.inr hc) (List.cons_ne_nil _ _)
  have hknn : splitKnn api params (tagQuery name body) = none := by
    rw [splitKnn]
    cases hsplit : splitAtFirst ['=', '>'] (tagQuery name body) with
    | none => rfl
    | some found =>
      obtain ⟨left, right⟩ := found
      have hlast := getLast?_of_splitAtFirst hsplit getLast?_tagQuery (by decide) (by decide)
      have hnone : enclosed '[' ']' (trim right) = none :=
        enclosed_of_getLast? (trim_getLast? hlast (by decide)) (by decide)
      simp only [Option.bind_eq_bind, Option.bind_some, hnone, Option.bind_none]
  have hvalue : trim ('{' :: (body ++ ['}'])) = '{' :: (body ++ ['}']) := by
    refine trim_of_edges (fun c hc => ?_) fun c hc => ?_
    · cases hc
      decide
    · rw [← List.cons_append, List.getLast?_concat] at hc
      cases hc
      decide
  have hclause : ∀ parseQuery, parseSingleClause api params parseQuery (tagQuery name body) =
      some (.tag name (splitTagList params body)) := by
    intro parseQuery
    have hstar : tagQuery name body ≠ ['*'] := by
      intro h
      have hhead := congrArg List.head? h
      rw [head?_tagQuery] at hhead
      exact absurd hhead (by decide)
    have hstrip : stripPrefix ['@'] (tagQuery name body) =
        some (name ++ ':' :: '{' :: (body ++ ['}'])) := by
      simp [stripPrefix, tagQuery]
    rw [parseSingleClause]
    simp only [trim_tagQuery, if_neg hstar]
    rw [enclosed_of_head? head?_tagQuery (by decide), hstrip, Option.bind_some,
      splitAtFirst_colon hname]
    simp only [hvalue]
    rw [fieldClause, enclosed_of_head? (s := '{' :: (body ++ ['}'])) rfl (by decide)]
    simp only [enclosed_cons_concat '{' '}' body]
  have hpart : ∀ parseQuery, parseSearchQueryPart api params parseQuery (tagQuery name body) =
      some (.tag name (splitTagList params body)) := by
    intro parseQuery
    have hdash : stripPrefix ['-'] (tagQuery name body) = none := by
      simp [stripPrefix, tagQuery]
    rw [parseSearchQueryPart, htokens]
    simp only [parseTokens, parseToken, hdash, hclause]
    rfl
  rw [parseSearchQueryWithParams, parseSearchQueryFuel, parseSearchQueryOnce]
  have hempty : ¬(tagQuery name body = ['*'] ∨ tagQuery name body = []) := by
    rintro (h | h)
    · have hhead := congrArg List.head? h
      rw [head?_tagQuery] at hhead
      exact absurd hhead (by decide)
    · exact List.cons_ne_nil _ _ h
  simp only [trim_tagQuery, if_neg hempty, hknn, hor]
  exact hpart _

/-! ## What is asked for -/

def paramOf (params : Params) (text : Text) : Option Text :=
  (stripPrefix ['$'] (trim text)).bind fun param => params.lookup param

variable {params : Params}

theorem foldl_tagListStep_escapeTag (st : TagListScan) (hescaped : st.escaped = false)
    (hquote : st.inQuote = false) (tag : Text) :
    (escapeTag '|' tag).foldl (tagListStep params) st =
      { st with cur := st.cur ++ escapeTag '|' tag } := by
  obtain ⟨tags, cur, inQuote, escaped⟩ := st
  subst hescaped
  subst hquote
  induction tag generalizing cur with
  | nil => simp [escapeTag]
  | cons c tag ih =>
    rw [escapeTag_cons, List.foldl_append]
    cases hc : isSpecial '|' c with
    | true =>
      rw [if_pos rfl]
      simp [tagListStep, ih]
    | false =>
      have hplain : c ≠ '|' ∧ c ≠ '"' ∧ c ≠ '\'' := by
        refine ⟨?_, ?_, ?_⟩ <;> rintro rfl <;> simp [isSpecial] at hc
      rw [if_neg Bool.false_ne_true]
      simp [tagListStep, ih, hplain, ne_backslash_of_not_special hc]

theorem splitTagList_escapeTag (tag : Text) (hne : tag ≠ []) :
    splitTagList params (escapeTag '|' tag) =
      if (processSingleTag params (escapeTag '|' tag)).isEmpty then []
      else [processSingleTag params (escapeTag '|' tag)] := by
  rw [splitTagList, foldl_tagListStep_escapeTag _ rfl rfl]
  simp only [List.nil_append, pushListTag]
  cases (processSingleTag params (escapeTag '|' tag)).isEmpty <;>
    simp [escapeTag_ne_nil '|' hne]

theorem splitTagList_star (tag : Text) :
    splitTagList params (escapeTag '|' tag ++ ['*']) =
      if (processSingleTag params (escapeTag '|' tag ++ ['*'])).isEmpty then []
      else [processSingleTag params (escapeTag '|' tag ++ ['*'])] := by
  rw [splitTagList, List.foldl_append, foldl_tagListStep_escapeTag _ rfl rfl]
  simp only [List.nil_append, List.foldl_cons, List.foldl_nil, tagListStep, pushListTag]
  cases hempty : (processSingleTag params (escapeTag '|' tag ++ ['*'])).isEmpty <;> simp [hempty]

theorem processSingleTag_eq (text : Text) : processSingleTag params text =
    match paramOf params text with
    | some val => unescapeTagString (trim val)
    | none => unescapeTagString (trimTag text) := by
  rw [processSingleTag, paramOf]
  rfl

theorem processSingleTag_escapeTag (hne : tag ≠ []) (hparam : paramOf params (escapeTag '|' tag) = none) :
    processSingleTag params (escapeTag '|' tag) = keptTag tag := by
  rw [processSingleTag_eq, hparam]
  exact (unescapeTagString_trimTag '|' hne).2

theorem processSingleTag_star (hparam : paramOf params (escapeTag '|' tag ++ ['*']) = none) :
    processSingleTag params (escapeTag '|' tag ++ ['*']) = tag ++ ['*'] := by
  have htrim : trimTag (escapeTag '|' tag ++ ['*']) = escapeTag '|' tag ++ ['*'] := by
    refine trimTag_of_edges (fun c hc => isTrimmed_head_escapeTag hc ?_) fun c hc => ?_
    · intro d hd
      cases hd
      decide
    · rw [List.getLast?_concat] at hc
      cases hc
      decide
  rw [processSingleTag_eq, hparam]
  simp only [htrim]
  rw [unescapeTagString_escapeTag, unescapeTagString_cons (by decide), unescapeTagString]

/-! ## Matching -/

/-- The field is the only tag field of its name, and the one that queries find by it. -/
structure IsTagField (schema : SearchIndexSchema) (field : IndexField) : Prop where
  named : TagFieldNamed schema field.name field
  only : ∀ other, TagFieldNamed schema field.name other → other = field
  found : schema.getField field.name = some field

/-- The documents that a clause on a text between braces selects in every index. -/
def QuerySelects (api : QueryApi) (params : Params) (name body : Text)
    (wanted : IndexField → Text → Prop) : Prop :=
  ∃ node, parseSearchQueryWithParams api params (tagQuery name body) = some node ∧
    ∀ leaf schema field commands id, IsTagField schema field → field.name = name →
      (id ∈ evalQueryNode api.toLowercase leaf schema (indexRun api.toLowercase schema commands)
          node ↔
        ∃ doc, (indexRun api.toLowercase schema commands).docs.lookup id = some doc ∧
          ∃ stored ∈ InvertedIndex.fieldTags api.toLowercase field doc.fields, wanted field stored)

/-- One escaped tag selects exactly the documents that have it. -/
def TagQueryExact (api : QueryApi) (params : Params) (name tag : Text) : Prop :=
  QuerySelects api params name (escapeTag '|' tag)
    fun field stored => stored = foldCase api.toLowercase field.caseSensitive tag

/-- A star behind it selects exactly the documents with a tag that begins with it. -/
def TagQueryPrefix (api : QueryApi) (params : Params) (name tag : Text) : Prop :=
  QuerySelects api params name (escapeTag '|' tag ++ ['*'])
    fun field stored => foldCase api.toLowercase field.caseSensitive tag <+: stored

theorem mem_eval_asked {toLowercase : Text → Text} {leaf : SearchQueryNode → Finset DocId}
    {schema : SearchIndexSchema} {field : IndexField} {commands : List IndexCommand} {id : DocId}
    {asked : Text} (hfield : IsTagField schema field) :
    id ∈ evalQueryNode toLowercase leaf schema (indexRun toLowercase schema commands)
        (.tag field.name (if asked.isEmpty then [] else [asked])) ↔
      ∃ doc, (indexRun toLowercase schema commands).docs.lookup id = some doc ∧
        ∃ stored ∈ InvertedIndex.fieldTags toLowercase field doc.fields,
          asked ≠ [] ∧ matchTag toLowercase field.caseSensitive asked stored = true := by
  have hindexed := tagsIndexed_indexRun toLowercase schema commands
  rw [evalQueryNode, mem_evalTag, hfield.found, Option.map_some, Option.getD_some]
  have hasked : ∀ stored, (∃ tag ∈ (if asked.isEmpty then [] else [asked]),
      matchTag toLowercase field.caseSensitive tag stored = true) ↔
        asked ≠ [] ∧ matchTag toLowercase field.caseSensitive asked stored = true := by
    intro stored
    cases asked with
    | nil => simp
    | cons c asked => simp
  simp only [hasked, hindexed field.name _ id]
  constructor
  · rintro ⟨stored, ⟨doc, hdoc, other, hother, hstored⟩, hmatch⟩
    rw [hfield.only other hother] at hstored
    exact ⟨doc, hdoc, stored, hstored, hmatch⟩
  · rintro ⟨doc, hdoc, stored, hstored, hmatch⟩
    exact ⟨stored, ⟨doc, hdoc, field, hfield.named, hstored⟩, hmatch⟩

/-! ## An index with one tag -/

/-- A text whose only tag is given: the pending escape at its end keeps the last character. -/
def spelledTag (tag : Text) : Text := escapeTag ',' tag ++ ['\\']

theorem tokenizeTags_spelledTag (toLowercase : Text → Text) (tag : Text) :
    tokenizeTags toLowercase (spelledTag tag) ',' true = [tag] := by
  have htrim : trimTag (spelledTag tag) = spelledTag tag := by
    refine trimTag_of_edges (fun c hc => isTrimmed_head_escapeTag hc ?_) fun c hc => ?_
    · intro d hd
      cases hd
      exact not_isTrimmed_backslash
    · rw [spelledTag, List.getLast?_concat] at hc
      cases hc
      exact not_isTrimmed_backslash
  have hread : unescapeTagString (spelledTag tag) = tag := by
    rw [spelledTag, unescapeTagString_escapeTag]
    simp [unescapeTagString]
  rw [tokenizeTags, spelledTag, List.foldl_append, foldl_tagStep_escapeTag _ rfl]
  simp only [List.nil_append, List.foldl_cons, List.foldl_nil, tagStep, Bool.false_eq_true,
    if_false, if_true]
  rw [pushTag, ← spelledTag, htrim, hread]
  simp [spelledTag, foldCase]

def oneTagField (name : Text) : IndexField := ⟨name, .tag, none, none, true, false⟩

def oneTagRun (name tag : Text) : List IndexCommand :=
  [.indexDoc [] ⟨[(name, spelledTag tag)], .zero, none⟩]

theorem isTagField_oneTagField (name : Text) :
    IsTagField ⟨[oneTagField name]⟩ (oneTagField name) where
  named := ⟨List.mem_singleton.mpr rfl, rfl, rfl, rfl⟩
  only other h := List.mem_singleton.mp h.1
  found := by simp [SearchIndexSchema.getField, oneTagField]

theorem QuerySelects.oneTag {api : QueryApi} {wanted : IndexField → Text → Prop} {asked : Text}
    (h : QuerySelects api params name body wanted)
    (hparse : parseSearchQueryWithParams api params (tagQuery name body) =
      some (.tag name (if asked.isEmpty then [] else [asked]))) (tag : Text) :
    (asked ≠ [] ∧ matchTag api.toLowercase true asked tag = true) ↔
      wanted (oneTagField name) tag := by
  obtain ⟨node, hnode, hselects⟩ := h
  rw [hparse, Option.some_inj] at hnode
  subst hnode
  have hiff := hselects (fun _ => ∅) ⟨[oneTagField name]⟩ (oneTagField name) (oneTagRun name tag) []
    (isTagField_oneTagField name) rfl
  have hasked := @mem_eval_asked api.toLowercase (fun _ => ∅) _ _ (oneTagRun name tag) []
    asked (isTagField_oneTagField name)
  have htags : InvertedIndex.fieldTags api.toLowercase (oneTagField name)
      [(name, spelledTag tag)] = [tag] := by
    rw [InvertedIndex.fieldTags, show (oneTagField name).name = name from rfl, List.lookup_cons_self]
    exact tokenizeTags_spelledTag api.toLowercase tag
  have hdoc : (indexRun api.toLowercase ⟨[oneTagField name]⟩ (oneTagRun name tag)).docs.lookup [] =
      some ⟨[(name, spelledTag tag)], .zero, none⟩ := by
    simp [indexRun, oneTagRun, IndexCommand.run, InvertedIndex.indexDoc]
  have hboth := hasked.symm.trans hiff
  rw [hdoc] at hboth
  simp only [Option.some.injEq, exists_eq_left', htags, List.mem_singleton, exists_eq_left] at hboth
  exact hboth

theorem QuerySelects.of_asked {api : QueryApi} {wanted : IndexField → Text → Prop} {asked : Text}
    (hparse : parseSearchQueryWithParams api params (tagQuery name body) =
      some (.tag name (if asked.isEmpty then [] else [asked])))
    (hmatch : ∀ field stored, (asked ≠ [] ∧
      matchTag api.toLowercase field.caseSensitive asked stored = true) ↔ wanted field stored) :
    QuerySelects api params name body wanted := by
  refine ⟨_, hparse, fun leaf schema field commands id hfield hnamed => ?_⟩
  subst hnamed
  rw [mem_eval_asked hfield]
  simp only [hmatch]

theorem matchTag_concat_star (toLowercase : Text → Text) (caseSensitive : Bool)
    (front stored : Text) : matchTag toLowercase caseSensitive (front ++ ['*']) stored = true ↔
      foldCase toLowercase caseSensitive front <+: stored := by
  rw [matchTag, List.getLast?_concat, if_pos rfl, List.dropLast_concat, List.isPrefixOf_iff_prefix]

theorem matchTag_of_getLast? {toLowercase : Text → Text} {caseSensitive : Bool} {asked : Text}
    (h : asked.getLast? ≠ some '*') (stored : Text) :
    matchTag toLowercase caseSensitive asked stored = true ↔
      stored = foldCase toLowercase caseSensitive asked := by
  rw [matchTag, if_neg h, beq_iff_eq]

theorem parse_escapeTag (api : QueryApi) (hname : PlainName name) (hne : tag ≠ []) :
    parseSearchQueryWithParams api params (tagQuery name (escapeTag '|' tag)) =
      some (.tag name (if (processSingleTag params (escapeTag '|' tag)).isEmpty then []
        else [processSingleTag params (escapeTag '|' tag)])) := by
  rw [parse_tagQuery api params hname (sealed_escapeTag tag), splitTagList_escapeTag tag hne]

theorem parse_star (api : QueryApi) (hname : PlainName name) :
    parseSearchQueryWithParams api params (tagQuery name (escapeTag '|' tag ++ ['*'])) =
      some (.tag name (if (processSingleTag params (escapeTag '|' tag ++ ['*'])).isEmpty then []
        else [processSingleTag params (escapeTag '|' tag ++ ['*'])])) := by
  have hstar : Sealed ['*'] := sealed_singleton (by decide) (by decide) (by decide)
  rw [parse_tagQuery api params hname ((sealed_escapeTag tag).append hstar), splitTagList_star]

theorem tagQueryExact_iff (api : QueryApi) (hname : PlainName name) (hne : tag ≠ []) :
    TagQueryExact api params name tag ↔
      processSingleTag params (escapeTag '|' tag) = tag ∧ tag.getLast? ≠ some '*' := by
  constructor
  · intro h
    have hiff := h.oneTag (parse_escapeTag api hname hne)
    simp only [foldCase, oneTagField, if_true] at hiff
    obtain ⟨hasked, hmatch⟩ := (hiff tag).mpr rfl
    have hlast : (processSingleTag params (escapeTag '|' tag)).getLast? ≠ some '*' := by
      intro hstar
      obtain ⟨front, hfront⟩ := List.getLast?_eq_some_iff.mp hstar
      rw [hfront] at hiff
      have hany : ∀ c, front ++ [c] = tag := fun c => (hiff (front ++ [c])).mp
        ⟨by simp, (matchTag_concat_star _ _ _ _).mpr (List.prefix_append front [c])⟩
      have hsame := List.append_cancel_left ((hany 'a').trans (hany 'b').symm)
      exact absurd hsame (by decide)
    have hread : tag = processSingleTag params (escapeTag '|' tag) :=
      (matchTag_of_getLast? hlast tag).mp hmatch
    exact ⟨hread.symm, by rwa [← hread] at hlast⟩
  · rintro ⟨hasked, hlast⟩
    refine .of_asked (parse_escapeTag api hname hne) fun field stored => ?_
    rw [hasked, matchTag_of_getLast? hlast]
    exact and_iff_right hne

theorem tagQueryPrefix_iff (api : QueryApi) (hname : PlainName name) :
    TagQueryPrefix api params name tag ↔
      processSingleTag params (escapeTag '|' tag ++ ['*']) = tag ++ ['*'] := by
  constructor
  · intro h
    have hiff := h.oneTag (parse_star api hname)
    simp only [foldCase, oneTagField, if_true] at hiff
    have hmatch : ∀ rest, matchTag api.toLowercase true
        (processSingleTag params (escapeTag '|' tag ++ ['*'])) (tag ++ rest) = true :=
      fun rest => ((hiff (tag ++ rest)).mpr (List.prefix_append tag rest)).2
    by_cases hstar : (processSingleTag params (escapeTag '|' tag ++ ['*'])).getLast? = some '*'
    · obtain ⟨front, hfront⟩ := List.getLast?_eq_some_iff.mp hstar
      rw [hfront] at hiff hmatch ⊢
      have hbegins : ∀ stored, front <+: stored → tag <+: stored := fun stored hstored =>
        (hiff stored).mp ⟨by simp, (matchTag_concat_star _ _ _ _).mpr hstored⟩
      have hfrontTag : front <+: tag := by
        have hnil := (matchTag_concat_star _ _ _ _).mp (hmatch [])
        rwa [List.append_nil] at hnil
      rw [hfrontTag.eq_of_length_le (hbegins front (List.prefix_refl front)).length_le]
    · have hsame : ∀ rest, tag ++ rest = processSingleTag params (escapeTag '|' tag ++ ['*']) :=
        fun rest => (matchTag_of_getLast? hstar _).mp (hmatch rest)
      have hcancel := List.append_cancel_left ((hsame ['a']).trans (hsame ['b']).symm)
      exact absurd hcancel (by decide)
  · intro hasked
    refine .of_asked (parse_star api hname) fun field stored => ?_
    rw [hasked, matchTag_concat_star]
    exact and_iff_right (by simp)

/-- The tag is read as it is written, or the parameter that it names holds just this. -/
def ReadsAs (params : Params) (text tag : Text) : Prop :=
  ∀ val, paramOf params text = some val → unescapeTagString (trim val) = tag

theorem processSingleTag_escapeTag_iff (hne : tag ≠ []) (hends : EndsWell tag) :
    processSingleTag params (escapeTag '|' tag) = tag ↔ ReadsAs params (escapeTag '|' tag) tag := by
  cases hparam : paramOf params (escapeTag '|' tag) with
  | none =>
    rw [processSingleTag_escapeTag hne hparam]
    refine iff_of_true ((endsWell_iff_keptTag hne).mp hends) fun val hval => ?_
    cases hparam.symm.trans hval
  | some val =>
    rw [processSingleTag_eq, hparam]
    refine ⟨fun h other hother => ?_, fun h => h val hparam⟩
    cases hparam.symm.trans hother
    exact h

theorem processSingleTag_star_iff : processSingleTag params (escapeTag '|' tag ++ ['*']) =
    tag ++ ['*'] ↔ ReadsAs params (escapeTag '|' tag ++ ['*']) (tag ++ ['*']) := by
  cases hparam : paramOf params (escapeTag '|' tag ++ ['*']) with
  | none =>
    refine iff_of_true (processSingleTag_star hparam) fun val hval => ?_
    cases hparam.symm.trans hval
  | some val =>
    rw [processSingleTag_eq, hparam]
    refine ⟨fun h other hother => ?_, fun h => h val hparam⟩
    cases hparam.symm.trans hother
    exact h

/-- No tag ends with what is trimmed or with a star, a backslash joins no two, and a tag that
names a parameter of the query is what that holds. -/
structure TagsFit (params : Params) (separator : Char) (tags : List Text) : Prop where
  ends : ∀ tag ∈ tags, EndsWell tag
  separated : separator = '\\' → tags.length ≤ 1
  starless : ∀ tag ∈ tags, tag.getLast? ≠ some '*'
  exact : ∀ tag ∈ tags, ReadsAs params (escapeTag '|' tag) tag
  starred : ∀ tag ∈ tags, ReadsAs params (escapeTag '|' tag ++ ['*']) (tag ++ ['*'])

/-- The tags survive the tokenizer and the query for each selects the documents that have it. -/
def TagsLaw (api : QueryApi) (params : Params) (name : Text) (separator : Char)
    (tags : List Text) : Prop :=
  TagsSurvive api.toLowercase separator tags ∧
    ∀ tag ∈ tags, TagQueryExact api params name tag ∧ TagQueryPrefix api params name tag

theorem tagsLaw_iff (api : QueryApi) (params : Params) (separator : Char) (hname : PlainName name)
    {tags : List Text} (hne : ∀ tag ∈ tags, tag ≠ []) :
    TagsLaw api params name separator tags ↔ TagsFit params separator tags := by
  rw [TagsLaw, tagsSurvive_iff api.toLowercase separator hne]
  constructor
  · rintro ⟨⟨hends, hsep⟩, hqueries⟩
    have hexact := fun tag htag =>
      (tagQueryExact_iff api hname (hne tag htag)).mp (hqueries tag htag).1
    have hstar := fun tag htag =>
      (tagQueryPrefix_iff api hname).mp (hqueries tag htag).2
    exact {
      ends := hends
      separated := hsep
      starless := fun tag htag => (hexact tag htag).2
      exact := fun tag htag =>
        (processSingleTag_escapeTag_iff (hne tag htag) (hends tag htag)).mp (hexact tag htag).1
      starred := fun tag htag => processSingleTag_star_iff.mp (hstar tag htag) }
  · intro h
    refine ⟨⟨h.ends, h.separated⟩, fun tag htag => ⟨?_, ?_⟩⟩
    · rw [tagQueryExact_iff api hname (hne tag htag)]
      exact ⟨(processSingleTag_escapeTag_iff (hne tag htag) (h.ends tag htag)).mpr
        (h.exact tag htag), h.starless tag htag⟩
    · rw [tagQueryPrefix_iff api hname]
      exact processSingleTag_star_iff.mpr (h.starred tag htag)

end

def asciiApi : QueryApi where
  isAlphanumeric := Char.isAlphanum
  toLowercase := List.map Char.toLower
  parseF64 _ := none
  parseUsize _ := none
  parseVector _ := none

theorem tagsLaw_iff_holds :
    TagsLaw asciiApi [] ['f'] ',' [['a', ',', 'b'], ['c', ' ', 'd']] := by
  refine (tagsLaw_iff asciiApi [] ',' ?_ ?_).mpr ⟨?_, ?_, ?_, ?_, ?_⟩
  · simp [PlainName, isWhitespace]
  · decide
  · simp [EndsWell, isTrimmed, isWhitespace]
  · exact fun h => absurd h (by decide)
  · decide
  · intro tag _ val hval
    simp [paramOf] at hval
  · intro tag _ val hval
    simp [paramOf] at hval

/-- A blank at the end of a tag is trimmed off although it is escaped. -/
theorem not_tagsLaw_trailing_blank : ¬TagsLaw asciiApi [] ['f'] ',' [['a', ' ']] := by
  intro h
  exact absurd (h.1 true) (by decide)

end Wedb
