import Mathlib.Data.List.DropRight
import Wedb.Json.Path

/-!
# Words and tags

Text is cut into words of letters, digits and underscores; tags are cut at a
separator, with escapes, and lose the blanks and quotes around them. Which characters
are letters and digits and how letters are lowered is what Unicode says.
-/

namespace Wedb

open JsonPath (isWhitespace trim)

section
variable (isAlphanumeric : Char → Bool) (toLowercase : Text → Text)

def tokenizeStep (st : List Text × Text) (ch : Char) : List Text × Text :=
  if isAlphanumeric ch || ch == '_' then (st.1, st.2 ++ [ch.toLower])
  else if !st.2.isEmpty then (st.1 ++ [st.2], [])
  else st

def tokenizeText (text : Text) : List Text :=
  let st := text.foldl (tokenizeStep isAlphanumeric) ([], [])
  if !st.2.isEmpty then st.1 ++ [st.2] else st.1

def unescapeTagString : Text → Text
  | [] => []
  | ch :: chars =>
    if ch = '\\' then
      match chars with
      | [] => []
      | next :: chars => next :: unescapeTagString chars
    else ch :: unescapeTagString chars

def trimMatches (p : Char → Bool) (s : Text) : Text := (s.dropWhile p).rdropWhile p

def trimTag (cur : Text) : Text :=
  trimMatches (· == '\'') (trimMatches (· == '"') (trimMatches isWhitespace cur))

def foldCase (caseSensitive : Bool) (tag : Text) : Text :=
  if caseSensitive then tag else toLowercase tag

def pushTag (caseSensitive : Bool) (tags : List Text) (cur : Text) : List Text :=
  let trimmed := trimTag cur
  if !trimmed.isEmpty then
    tags ++ [foldCase toLowercase caseSensitive (unescapeTagString trimmed)]
  else tags

/-- What the tag tokenizer carries: the tags, the current one and a pending escape. -/
structure TagScan where
  tags : List Text
  cur : Text
  escaped : Bool

def tagStep (separator : Char) (caseSensitive : Bool) (st : TagScan) (ch : Char) : TagScan :=
  if st.escaped then ⟨st.tags, st.cur ++ ['\\', ch], false⟩
  else if ch = '\\' then { st with escaped := true }
  else if ch = separator then ⟨pushTag toLowercase caseSensitive st.tags st.cur, [], false⟩
  else { st with cur := st.cur ++ [ch] }

def tokenizeTags (text : Text) (separator : Char) (caseSensitive : Bool) : List Text :=
  let st := text.foldl (tagStep toLowercase separator caseSensitive) ⟨[], [], false⟩
  pushTag toLowercase caseSensitive st.tags (if st.escaped then st.cur ++ ['\\'] else st.cur)

end

/-! ## Escaping -/

def isSpecial (separator c : Char) : Bool :=
  c == separator || c == '\\' || c == '"' || c == '\'' || isWhitespace c

def escapeTag (separator : Char) (tag : Text) : Text :=
  tag.flatMap fun c => if isSpecial separator c then ['\\', c] else [c]

def joinTags (separator : Char) (tags : List Text) : Text :=
  [separator].intercalate (tags.map (escapeTag separator))

def isTrimmed (c : Char) : Bool := isWhitespace c || c == '"' || c == '\''

/-- The tokenizer gives the tags back that were escaped and joined. -/
def TagsSurvive (toLowercase : Text → Text) (separator : Char) (tags : List Text) : Prop :=
  ∀ caseSensitive, tokenizeTags toLowercase (joinTags separator tags) separator caseSensitive =
    tags.map (foldCase toLowercase caseSensitive)

def EndsWell (tag : Text) : Prop := ∀ c, tag.getLast? = some c → isTrimmed c = false

section
variable {separator c : Char} {tag cur rest : Text} {p : Char → Bool}

theorem escapeTag_cons (separator c : Char) (tag : Text) : escapeTag separator (c :: tag) =
    (if isSpecial separator c then ['\\', c] else [c]) ++ escapeTag separator tag := rfl

theorem escapeTag_append (separator : Char) (s t : Text) :
    escapeTag separator (s ++ t) = escapeTag separator s ++ escapeTag separator t :=
  List.flatMap_append

theorem isSpecial_of_isTrimmed (separator : Char) (h : isTrimmed c = true) :
    isSpecial separator c = true := by
  simp only [isTrimmed, isSpecial, Bool.or_eq_true] at h ⊢
  tauto

theorem not_isTrimmed_backslash : isTrimmed '\\' = false := by decide

theorem escapeTag_ne_nil (separator : Char) (h : tag ≠ []) : escapeTag separator tag ≠ [] := by
  cases tag with
  | nil => exact absurd rfl h
  | cons c tag =>
    rw [escapeTag_cons]
    split_ifs <;> simp

theorem isTrimmed_head_escapeTag (h : (escapeTag separator tag ++ rest).head? = some c)
    (hrest : ∀ c, rest.head? = some c → isTrimmed c = false) : isTrimmed c = false := by
  cases tag with
  | nil => exact hrest c h
  | cons d tag =>
    rw [escapeTag_cons] at h
    by_cases hd : isSpecial separator d = true
    · rw [if_pos hd] at h
      cases h
      exact not_isTrimmed_backslash
    · rw [if_neg hd] at h
      cases h
      exact Bool.eq_false_of_not_eq_true fun htrim => hd (isSpecial_of_isTrimmed separator htrim)

theorem ne_backslash_of_not_special (h : isSpecial separator c = false) : c ≠ '\\' := by
  rintro rfl
  simp [isSpecial] at h

theorem unescapeTagString_cons (h : c ≠ '\\') (chars : Text) :
    unescapeTagString (c :: chars) = c :: unescapeTagString chars := by
  cases chars <;> simp [unescapeTagString, h]

theorem unescapeTagString_escapeTag (separator : Char) (tag rest : Text) :
    unescapeTagString (escapeTag separator tag ++ rest) = tag ++ unescapeTagString rest := by
  induction tag with
  | nil => rfl
  | cons c tag ih =>
    rw [escapeTag_cons]
    cases hc : isSpecial separator c with
    | true =>
      rw [if_pos rfl, List.append_assoc]
      simp only [List.cons_append, List.nil_append, unescapeTagString, if_true, ih]
    | false =>
      rw [if_neg Bool.false_ne_true, List.append_assoc]
      rw [List.singleton_append, unescapeTagString_cons (ne_backslash_of_not_special hc), ih]
      rfl

/-! ## Trimming -/

theorem trimMatches_of_edges (hhead : ∀ c, cur.head? = some c → p c = false)
    (hlast : ∀ c, cur.getLast? = some c → p c = false) : trimMatches p cur = cur := by
  have hdrop : cur.dropWhile p = cur := by
    cases cur with
    | nil => rfl
    | cons c cur => rw [List.dropWhile_cons, hhead c rfl, if_neg Bool.false_ne_true]
  rw [trimMatches, hdrop]
  rcases List.eq_nil_or_concat cur with rfl | ⟨front, d, rfl⟩
  · rfl
  · have hd := hlast d (by simp)
    rw [List.concat_eq_append, List.rdropWhile_concat_neg _ _ _ (by rw [hd]; simp)]

theorem trimMatches_concat (hc : p c = true) (hcur : ∀ d, cur.head? = some d → p d = false)
    (hne : cur ≠ []) (hlast : ∀ d, cur.getLast? = some d → p d = false) : trimMatches p (cur ++ [c]) = cur := by
  have hkeep := trimMatches_of_edges hcur hlast
  rw [trimMatches] at hkeep ⊢
  cases cur with
  | nil => exact absurd rfl hne
  | cons d cur =>
    have hd := hcur d rfl
    rw [List.cons_append, List.dropWhile_cons, hd, if_neg Bool.false_ne_true, ← List.cons_append,
      List.rdropWhile_concat_pos _ _ _ hc]
    rwa [List.dropWhile_cons, hd, if_neg Bool.false_ne_true] at hkeep

def keptTag (tag : Text) : Text := if tag.getLast?.any isTrimmed then tag.dropLast else tag

theorem endsWell_iff_keptTag (h : tag ≠ []) : EndsWell tag ↔ keptTag tag = tag := by
  rcases List.eq_nil_or_concat tag with rfl | ⟨front, d, rfl⟩
  · exact absurd rfl h
  · rw [keptTag, EndsWell, List.concat_eq_append, List.getLast?_concat, Option.any_some,
      List.dropLast_concat]
    cases hd : isTrimmed d <;> simp [hd]

theorem isTrimmed_false_iff : isTrimmed c = false ↔
    isWhitespace c = false ∧ (c == '"') = false ∧ (c == '\'') = false := by
  simp only [isTrimmed, Bool.or_eq_false_iff, and_assoc]

theorem trimTag_of_edges (hhead : ∀ c, cur.head? = some c → isTrimmed c = false)
    (hlast : ∀ c, cur.getLast? = some c → isTrimmed c = false) : trimTag cur = cur := by
  have h : ∀ p : Char → Bool, (∀ c, isTrimmed c = false → p c = false) → trimMatches p cur = cur :=
    fun p hp => trimMatches_of_edges (fun c hc => hp c (hhead c hc)) fun c hc => hp c (hlast c hc)
  rw [trimTag, h isWhitespace fun c hc => (isTrimmed_false_iff.mp hc).1,
    h (· == '"') fun c hc => (isTrimmed_false_iff.mp hc).2.1,
    h (· == '\'') fun c hc => (isTrimmed_false_iff.mp hc).2.2]

/-- One of the three trims takes the last character, and the others find nothing. -/
theorem trimTag_concat (hne : cur ≠ []) (hc : isTrimmed c = true)
    (hhead : ∀ d, cur.head? = some d → isTrimmed d = false)
    (hlast : ∀ d, cur.getLast? = some d → isTrimmed d = false) : trimTag (cur ++ [c]) = cur := by
  have hhead' : ∀ d, (cur ++ [c]).head? = some d → isTrimmed d = false := by
    intro d hd
    rw [List.head?_append_of_ne_nil _ hne] at hd
    exact hhead d hd
  have hcut : ∀ p : Char → Bool, (∀ c, isTrimmed c = false → p c = false) → p c = true →
      trimMatches p (cur ++ [c]) = cur := fun p hp hpc =>
    trimMatches_concat hpc (fun d hd => hp d (hhead d hd)) hne fun d hd => hp d (hlast d hd)
  have hkeep : ∀ p : Char → Bool, (∀ c, isTrimmed c = false → p c = false) →
      trimMatches p cur = cur := fun p hp =>
    trimMatches_of_edges (fun d hd => hp d (hhead d hd)) fun d hd => hp d (hlast d hd)
  have hpass : ∀ p : Char → Bool, (∀ c, isTrimmed c = false → p c = false) → p c = false →
      trimMatches p (cur ++ [c]) = cur ++ [c] := by
    intro p hp hpc
    refine trimMatches_of_edges (fun d hd => hp d (hhead' d hd)) fun d hd => ?_
    rw [List.getLast?_concat, Option.some_inj] at hd
    exact hd ▸ hpc
  have hblank : ∀ d, isTrimmed d = false → isWhitespace d = false :=
    fun d hd => (isTrimmed_false_iff.mp hd).1
  have hdouble : ∀ d, isTrimmed d = false → (d == '"') = false :=
    fun d hd => (isTrimmed_false_iff.mp hd).2.1
  have hsingle : ∀ d, isTrimmed d = false → (d == '\'') = false :=
    fun d hd => (isTrimmed_false_iff.mp hd).2.2
  rw [trimTag]
  cases hw : isWhitespace c with
  | true => rw [hcut isWhitespace hblank hw, hkeep (· == '"') hdouble, hkeep (· == '\'') hsingle]
  | false =>
    rw [hpass isWhitespace hblank hw]
    cases hd : c == '"' with
    | true => rw [hcut (· == '"') hdouble hd, hkeep (· == '\'') hsingle]
    | false =>
      rw [hpass (· == '"') hdouble hd]
      refine hcut (· == '\'') hsingle ?_
      simpa only [isTrimmed, hw, hd, Bool.false_or] using hc

theorem getLast?_escapeTag_concat (separator : Char) (front : Text) (c : Char) :
    (escapeTag separator (front ++ [c])).getLast? = some c := by
  rw [escapeTag_append, escapeTag_cons]
  split_ifs with hc
  · exact List.getLast?_append_of_ne_nil _ (List.cons_ne_nil _ _)
  · exact List.getLast?_append_of_ne_nil _ (List.cons_ne_nil _ _)

theorem unescapeTagString_trimTag (separator : Char) (h : tag ≠ []) :
    trimTag (escapeTag separator tag) ≠ [] ∧
      unescapeTagString (trimTag (escapeTag separator tag)) = keptTag tag := by
  have hhead : ∀ {t : Text} {rest : Text} (c : Char), (escapeTag separator t ++ rest).head? = some c →
      (∀ c, rest.head? = some c → isTrimmed c = false) → isTrimmed c = false :=
    fun c hc hrest => isTrimmed_head_escapeTag hc hrest
  have hnil : ∀ c : Char, ([] : Text).head? = some c → isTrimmed c = false := by
    intro c hc
    cases hc
  rcases List.eq_nil_or_concat tag with rfl | ⟨front, d, rfl⟩
  · exact absurd rfl h
  rw [List.concat_eq_append]
  cases hd : isTrimmed d with
  | false =>
    have hkeep : trimTag (escapeTag separator (front ++ [d])) = escapeTag separator (front ++ [d]) := by
      refine trimTag_of_edges (fun c hc => ?_) fun c hc => ?_
      · exact hhead c (by rwa [List.append_nil]) hnil
      · rw [getLast?_escapeTag_concat, Option.some_inj] at hc
        exact hc ▸ hd
    have hread := unescapeTagString_escapeTag separator (front ++ [d]) []
    rw [List.append_nil, unescapeTagString, List.append_nil] at hread
    rw [hkeep, hread, keptTag, List.getLast?_concat, Option.any_some, hd, if_neg Bool.false_ne_true]
    exact ⟨escapeTag_ne_nil separator (by simp), rfl⟩
  | true =>
    have hescaped : escapeTag separator (front ++ [d]) =
        (escapeTag separator front ++ ['\\']) ++ [d] := by
      rw [escapeTag_append, escapeTag_cons, if_pos (isSpecial_of_isTrimmed separator hd)]
      simp [escapeTag]
    have hcut : trimTag (escapeTag separator (front ++ [d])) = escapeTag separator front ++ ['\\'] := by
      rw [hescaped]
      refine trimTag_concat (by simp) hd (fun c hc => hhead c hc ?_) fun c hc => ?_
      · intro e he
        cases he
        exact not_isTrimmed_backslash
      · rw [List.getLast?_concat, Option.some_inj] at hc
        exact hc ▸ not_isTrimmed_backslash
    rw [hcut, unescapeTagString_escapeTag, keptTag, List.getLast?_concat, Option.any_some, hd,
      if_pos rfl, List.dropLast_concat]
    refine ⟨by simp, ?_⟩
    simp [unescapeTagString]

/-! ## The tokenizer on escaped tags -/

variable {toLowercase : Text → Text} {caseSensitive : Bool} {tags : List Text}

theorem foldl_tagStep_escapeTag (st : TagScan) (h : st.escaped = false) (tag : Text) :
    (escapeTag separator tag).foldl (tagStep toLowercase separator caseSensitive) st =
      { st with cur := st.cur ++ escapeTag separator tag } := by
  obtain ⟨tags, cur, escaped⟩ := st
  subst h
  induction tag generalizing cur with
  | nil => simp [escapeTag]
  | cons c tag ih =>
    rw [escapeTag_cons, List.foldl_append]
    cases hc : isSpecial separator c with
    | true =>
      rw [if_pos rfl]
      simp [tagStep, ih]
    | false =>
      have hsep : c ≠ separator := by
        rintro rfl
        simp [isSpecial] at hc
      rw [if_neg Bool.false_ne_true]
      simp [tagStep, ih, hsep, ne_backslash_of_not_special hc]

theorem pushTag_escapeTag (h : tag ≠ []) :
    pushTag toLowercase caseSensitive tags (escapeTag separator tag) =
      tags ++ [foldCase toLowercase caseSensitive (keptTag tag)] := by
  obtain ⟨hne, hread⟩ := unescapeTagString_trimTag separator h
  rw [pushTag, hread]
  simp [hne]

theorem tokenizeTags_escapeTag (h : tag ≠ []) :
    tokenizeTags toLowercase (escapeTag separator tag) separator caseSensitive =
      [foldCase toLowercase caseSensitive (keptTag tag)] := by
  rw [tokenizeTags, foldl_tagStep_escapeTag _ rfl]
  exact pushTag_escapeTag h

theorem foldl_tagStep_joinTags (hsep : separator ≠ '\\') (before : List Text)
    (hne : ∀ tag ∈ tags, tag ≠ []) (hlast : tag ≠ []) :
    pushTag toLowercase caseSensitive
        ((joinTags separator (tag :: tags)).foldl (tagStep toLowercase separator caseSensitive)
          ⟨before, [], false⟩).tags
        ((joinTags separator (tag :: tags)).foldl (tagStep toLowercase separator caseSensitive)
          ⟨before, [], false⟩).cur =
      before ++ (tag :: tags).map (fun tag => foldCase toLowercase caseSensitive (keptTag tag)) ∧
      ((joinTags separator (tag :: tags)).foldl (tagStep toLowercase separator caseSensitive)
          ⟨before, [], false⟩).escaped = false := by
  induction tags generalizing tag before with
  | nil =>
    rw [joinTags, List.map_singleton, List.intercalate_singleton, foldl_tagStep_escapeTag _ rfl]
    exact ⟨pushTag_escapeTag hlast, rfl⟩
  | cons next tags ih =>
    have hjoin : joinTags separator (tag :: next :: tags) =
        escapeTag separator tag ++ separator :: joinTags separator (next :: tags) := by
      rw [joinTags, List.map_cons, List.map_cons, List.intercalate_cons_cons, List.append_assoc]
      rfl
    have hstep : tagStep toLowercase separator caseSensitive
        ⟨before, escapeTag separator tag, false⟩ separator =
        ⟨before ++ [foldCase toLowercase caseSensitive (keptTag tag)], [], false⟩ := by
      simp [tagStep, hsep, pushTag_escapeTag hlast]
    rw [hjoin, List.foldl_append, foldl_tagStep_escapeTag _ rfl, List.foldl_cons, List.nil_append,
      hstep]
    have hrest := ih (before ++ [foldCase toLowercase caseSensitive (keptTag tag)])
      (fun t ht => hne t (List.mem_cons_of_mem next ht)) (hne next List.mem_cons_self)
    rwa [List.append_assoc] at hrest

theorem tokenizeTags_joinTags (hsep : separator ≠ '\\') (hne : ∀ tag ∈ tags, tag ≠ []) :
    tokenizeTags toLowercase (joinTags separator tags) separator caseSensitive =
      tags.map fun tag => foldCase toLowercase caseSensitive (keptTag tag) := by
  cases tags with
  | nil => rfl
  | cons tag tags =>
    obtain ⟨hpush, hescaped⟩ := @foldl_tagStep_joinTags separator tag toLowercase caseSensitive tags
      hsep [] (fun t ht => hne t (List.mem_cons_of_mem tag ht)) (hne tag List.mem_cons_self)
    rw [tokenizeTags]
    simp only [hescaped, Bool.false_eq_true, if_false]
    exact hpush

theorem tags_foldl_tagStep_backslash (st : TagScan) (text : Text) :
    (text.foldl (tagStep toLowercase '\\' caseSensitive) st).tags = st.tags := by
  induction text generalizing st with
  | nil => rfl
  | cons c text ih =>
    rw [List.foldl_cons, ih, tagStep]
    split_ifs <;> rfl

theorem length_tokenizeTags_backslash (text : Text) :
    (tokenizeTags toLowercase text '\\' caseSensitive).length ≤ 1 := by
  rw [tokenizeTags]
  simp only [pushTag, tags_foldl_tagStep_backslash]
  split_ifs <;> simp

/-- Tags survive if none ends with a blank or a quote, and a backslash joins no two. -/
theorem tagsSurvive_iff (toLowercase : Text → Text) (separator : Char) {tags : List Text}
    (hne : ∀ tag ∈ tags, tag ≠ []) : TagsSurvive toLowercase separator tags ↔
      (∀ tag ∈ tags, EndsWell tag) ∧ (separator = '\\' → tags.length ≤ 1) := by
  have hkept : (tags.map keptTag = tags) ↔ ∀ tag ∈ tags, EndsWell tag := by
    have hsame := @List.map_inj_left _ _ tags keptTag id
    rw [List.map_id] at hsame
    exact hsame.trans (forall₂_congr fun tag htag => (endsWell_iff_keptTag (hne tag htag)).symm)
  have hwhole : (separator = '\\' → tags.length ≤ 1) → ∀ caseSensitive,
      tokenizeTags toLowercase (joinTags separator tags) separator caseSensitive =
        tags.map fun tag => foldCase toLowercase caseSensitive (keptTag tag) := by
    intro hshort caseSensitive
    by_cases hsep : separator = '\\'
    · have hlength := hshort hsep
      match tags, hlength with
      | [], _ => rfl
      | [tag], _ =>
        rw [joinTags, List.map_singleton, List.intercalate_singleton]
        exact tokenizeTags_escapeTag (hne tag List.mem_cons_self)
    · exact tokenizeTags_joinTags hsep hne
  constructor
  · intro h
    have hshort : separator = '\\' → tags.length ≤ 1 := by
      rintro rfl
      have hlength := congrArg List.length (h true)
      rw [List.length_map] at hlength
      exact hlength ▸ length_tokenizeTags_backslash _
    refine ⟨hkept.mp ?_, hshort⟩
    have hsame := (hwhole hshort true).symm.trans (h true)
    have hplain : tags.map (foldCase toLowercase true) = tags := List.map_id tags
    exact hsame.trans hplain
  · rintro ⟨hends, hshort⟩ caseSensitive
    rw [hwhole hshort]
    refine List.map_congr_left fun tag htag => ?_
    rw [(endsWell_iff_keptTag (hne tag htag)).mp (hends tag htag)]

end

end Wedb
