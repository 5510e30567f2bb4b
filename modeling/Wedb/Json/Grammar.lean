import Wedb.Json.Value

/-!
# The texts of a value

What JSON says of a text: how a string literal is read, and what is left of a text after
a value. Number literals are runs of the characters of numbers, and what a literal
denotes is a parameter.
-/

namespace Wedb.Json

/-! ## String literals -/

def hexDigit (c : Char) : Option ℕ :=
  if '0' ≤ c ∧ c ≤ '9' then some (c.toNat - 48)
  else if 'a' ≤ c ∧ c ≤ 'f' then some (c.toNat - 87)
  else if 'A' ≤ c ∧ c ≤ 'F' then some (c.toNat - 55)
  else none

def readHex : ℕ → ℕ → Text → Option (ℕ × Text)
  | 0, acc, t => some (acc, t)
  | _ + 1, _, [] => none
  | n + 1, acc, c :: t => (hexDigit c).bind fun d => readHex n (acc * 16 + d) t

def readUnicode (t : Text) : Option (Char × Text) :=
  (readHex 4 0 t).bind fun (hi, t) =>
    if hi < 0xd800 ∨ 0xdfff < hi then some (Char.ofNat hi, t)
    else
      match t with
      | '\\' :: 'u' :: t => (readHex 4 0 t).bind fun (lo, t) =>
        if hi < 0xdc00 ∧ 0xdc00 ≤ lo ∧ lo ≤ 0xdfff then
          some (Char.ofNat (0x10000 + (hi - 0xd800) * 0x400 + (lo - 0xdc00)), t)
        else none
      | _ => none

def simpleEscape (c : Char) : Option Char :=
  if c = '"' ∨ c = '\\' ∨ c = '/' then some c
  else if c = 'b' then some (Char.ofNat 8)
  else if c = 'f' then some (Char.ofNat 12)
  else if c = 'n' then some '\n'
  else if c = 'r' then some '\r'
  else if c = 't' then some '\t'
  else none

def readEscape : Text → Option (Char × Text)
  | [] => none
  | c :: t =>
    match simpleEscape c with
    | some e => some (e, t)
    | none => if c = 'u' then readUnicode t else none

theorem readHex_append {n acc value : ℕ} {t r : Text} (h : readHex n acc t = some (value, r)) :
    ∃ e, t = e ++ r ∧ '"' ∉ e := by
  induction n generalizing acc t with
  | zero =>
    obtain ⟨-, rfl⟩ := Prod.mk.inj (Option.some.inj h)
    exact ⟨[], rfl, List.not_mem_nil⟩
  | succ n ih =>
    cases t with
    | nil => cases h
    | cons c t =>
      obtain ⟨d, hd, hrest⟩ := Option.bind_eq_some_iff.mp h
      obtain ⟨e, rfl, he⟩ := ih hrest
      refine ⟨c :: e, rfl, List.not_mem_cons_of_ne_of_not_mem ?_ he⟩
      rintro rfl
      cases hd

theorem readUnicode_append {t r : Text} {c : Char} (h : readUnicode t = some (c, r)) :
    ∃ e, t = e ++ r ∧ '"' ∉ e := by
  obtain ⟨⟨hi, t1⟩, hread, hrest⟩ := Option.bind_eq_some_iff.mp h
  obtain ⟨e, rfl, he⟩ := readHex_append hread
  dsimp only at hrest
  split at hrest
  · obtain ⟨-, rfl⟩ := Prod.mk.inj (Option.some.inj hrest)
    exact ⟨e, rfl, he⟩
  · split at hrest
    · rename_i t2
      obtain ⟨⟨lo, t3⟩, hread', hrest'⟩ := Option.bind_eq_some_iff.mp hrest
      obtain ⟨e', rfl, he'⟩ := readHex_append hread'
      dsimp only at hrest'
      split at hrest'
      · obtain ⟨-, rfl⟩ := Prod.mk.inj (Option.some.inj hrest')
        refine ⟨e ++ '\\' :: 'u' :: e', by simp, ?_⟩
        simp [he, he']
      · cases hrest'
    · cases hrest

theorem readEscape_append {t r : Text} {c : Char} (h : readEscape t = some (c, r)) :
    ∃ e, t = e ++ r ∧ e ≠ [] ∧ ('"' ∈ e → e = ['"'] ∧ c = '"') := by
  cases t with
  | nil => cases h
  | cons d t =>
    rw [readEscape] at h
    split at h
    · rename_i e hsimple
      obtain ⟨rfl, rfl⟩ := Prod.mk.inj (Option.some.inj h)
      refine ⟨[d], rfl, List.cons_ne_nil _ _, fun hmem => ?_⟩
      have hd := List.mem_singleton.mp hmem
      subst hd
      exact ⟨rfl, (Option.some.inj hsimple).symm⟩
    · split at h
      · rename_i hu
        obtain ⟨e, rfl, he⟩ := readUnicode_append h
        refine ⟨d :: e, rfl, List.cons_ne_nil _ _, fun hmem => absurd hmem ?_⟩
        exact List.not_mem_cons_of_ne_of_not_mem (by rw [hu]; decide) he
      · cases h

theorem readEscape_length {t r : Text} {c : Char} (h : readEscape t = some (c, r)) :
    r.length < t.length := by
  obtain ⟨e, rfl, hne, -⟩ := readEscape_append h
  rw [List.length_append]
  have hpos := List.length_pos_of_ne_nil hne
  omega

def readString : Text → Option (Text × Text)
  | [] => none
  | c :: t =>
    if c = '"' then some ([], t)
    else if c = '\\' then
      match _ : readEscape t with
      | none => none
      | some (e, r) => (readString r).map fun (s, rest) => (e :: s, rest)
    else if c.toNat < 0x20 then none
    else (readString t).map fun (s, rest) => (c :: s, rest)
termination_by t => t.length
decreasing_by
  · rename_i hescape
    have hlen := readEscape_length hescape
    simp only [List.length_cons]
    omega
  · simp

/-- A character that stands for itself in a literal. -/
def IsPlainChar (c : Char) : Prop := c ≠ '"' ∧ c ≠ '\\' ∧ 0x20 ≤ c.toNat

instance (c : Char) : Decidable (IsPlainChar c) := inferInstanceAs (Decidable (_ ∧ _))

def IsPlain (s : Text) : Prop := ∀ c ∈ s, IsPlainChar c

instance (s : Text) : Decidable (IsPlain s) := List.decidableBAll IsPlainChar s

theorem readString_quote (t : Text) : readString ('"' :: t) = some ([], t) := by
  rw [readString, if_pos rfl]

theorem readString_plain {c : Char} (hc : IsPlainChar c) (t : Text) :
    readString (c :: t) = (readString t).map fun (s, rest) => (c :: s, rest) := by
  rw [readString, if_neg hc.1, if_neg hc.2.1, if_neg (not_lt.mpr hc.2.2)]

theorem readString_backslash (t : Text) :
    readString ('\\' :: t) = (readEscape t).bind fun (e, r) =>
      (readString r).map fun (s, rest) => (e :: s, rest) := by
  rw [readString, if_neg (by decide), if_pos rfl]
  split
  · rename_i hnone
    rw [hnone, Option.bind_none]
  · rename_i hsome
    rw [hsome, Option.bind_some]

theorem readString_control {c : Char} (hquote : c ≠ '"') (hslash : c ≠ '\\') (hc : ¬IsPlainChar c)
    (t : Text) : readString (c :: t) = none := by
  rw [readString, if_neg hquote, if_neg hslash, if_pos]
  by_contra hge
  exact hc ⟨hquote, hslash, not_lt.mp hge⟩

theorem readString_of_isPlain {s : Text} (hs : IsPlain s) (rest : Text) :
    readString (s ++ '"' :: rest) = some (s, rest) := by
  induction s with
  | nil => exact readString_quote rest
  | cons c s ih =>
    rw [List.cons_append, readString_plain (hs c List.mem_cons_self),
      ih fun d hd => hs d (List.mem_cons_of_mem c hd)]
    rfl

/-- A literal over characters none of which is a quote, up to the next quote: either it ends
there, with as many characters only where all stand for themselves, or it takes that quote in. -/
theorem readString_to_quote {u x s rest : Text} (hu : '"' ∉ u)
    (h : readString (u ++ '"' :: x) = some (s, rest)) :
    (rest = x ∧ (s = u ∧ IsPlain u ∨ s.length < u.length)) ∨
      ∃ s1 s2, s = s1 ++ '"' :: s2 ∧ s1.length < u.length := by
  induction hn : u.length using Nat.strong_induction_on generalizing u s with
  | _ n ih =>
    cases u with
    | nil =>
      rw [List.nil_append, readString_quote] at h
      obtain ⟨rfl, rfl⟩ := Prod.mk.inj (Option.some.inj h)
      exact .inl ⟨rfl, .inl ⟨rfl, fun c hc => absurd hc List.not_mem_nil⟩⟩
    | cons c u =>
      have hc : '"' ≠ c := List.ne_of_not_mem_cons hu
      have hu' : '"' ∉ u := List.not_mem_of_not_mem_cons hu
      rw [List.length_cons] at hn
      rw [List.cons_append] at h
      by_cases hslash : c = '\\'
      · subst hslash
        rw [readString_backslash] at h
        obtain ⟨⟨ch, r⟩, hescape, hread⟩ := Option.bind_eq_some_iff.mp h
        obtain ⟨⟨s', rest'⟩, hread', heq⟩ := Option.map_eq_some_iff.mp hread
        obtain ⟨rfl, rfl⟩ := Prod.mk.inj heq
        obtain ⟨e, happ, hne, hquote⟩ := readEscape_append hescape
        by_cases hmem : '"' ∈ e
        · obtain ⟨-, rfl⟩ := hquote hmem
          exact .inr ⟨[], s', rfl, by simp only [List.length_nil]; omega⟩
        · -- The escape ends before the quote.
          obtain ⟨v, rfl, rfl⟩ : ∃ v, u = e ++ v ∧ r = v ++ '"' :: x := by
            rcases List.append_eq_append_iff.mp happ with ⟨w, rfl, hw⟩ | ⟨w, rfl, hw⟩
            · cases w with
              | nil => exact ⟨[], by simp, by simpa using hw.symm⟩
              | cons d w =>
                obtain ⟨rfl, -⟩ := List.cons.inj hw
                exact absurd (by simp) hmem
            · exact ⟨w, rfl, hw⟩
          have hpos := List.length_pos_of_ne_nil hne
          have hv : '"' ∉ v := fun hmem' => hu' (List.mem_append_right e hmem')
          rw [List.length_append] at hn
          rcases ih v.length (by omega) hv hread' rfl with ⟨rfl, hshort⟩ | ⟨s1, s2, rfl, hlen⟩
          · refine .inl ⟨rfl, .inr ?_⟩
            have hle : s'.length ≤ v.length := by
              rcases hshort with ⟨rfl, -⟩ | hlt
              · exact le_rfl
              · exact hlt.le
            simp only [List.length_cons]
            omega
          · exact .inr ⟨ch :: s1, s2, rfl, by simp only [List.length_cons]; omega⟩
      · by_cases hplain : IsPlainChar c
        · rw [readString_plain hplain] at h
          obtain ⟨⟨s', rest'⟩, hread', heq⟩ := Option.map_eq_some_iff.mp h
          obtain ⟨rfl, rfl⟩ := Prod.mk.inj heq
          rcases ih u.length (by omega) hu' hread' rfl with ⟨rfl, hshort⟩ | ⟨s1, s2, rfl, hlen⟩
          · refine .inl ⟨rfl, hshort.imp ?_ ?_⟩
            · rintro ⟨rfl, hall⟩
              exact ⟨rfl, List.forall_mem_cons.mpr ⟨hplain, hall⟩⟩
            · exact fun hlt => by simp only [List.length_cons]; omega
          · exact .inr ⟨c :: s1, s2, rfl, by simp only [List.length_cons]; omega⟩
        · rw [readString_control (Ne.symm hc) hslash hplain] at h
          cases h

/-- Characters put between quotes as they are read back as themselves only where all are plain. -/
theorem readString_self_iff {s rest rest' : Text} :
    readString (s ++ '"' :: rest) = some (s, rest') ↔ IsPlain s ∧ rest' = rest := by
  constructor
  · intro h
    by_cases hquote : '"' ∈ s
    · obtain ⟨u, v, rfl, hu⟩ := List.eq_append_cons_of_mem hquote
      rw [List.append_assoc, List.cons_append] at h
      rcases readString_to_quote hu h with ⟨-, ⟨hself, -⟩ | hlt⟩ | ⟨s1, s2, heq, hlen⟩
      · exact absurd (hself ▸ hquote) hu
      · simp at hlt
      · -- A quote would stand before the first one.
        rcases List.append_eq_append_iff.mp heq with ⟨w, rfl, -⟩ | ⟨w, rfl, hw⟩
        · simp at hlen
        · cases w with
          | nil => simp at hlen
          | cons d w =>
            obtain ⟨rfl, -⟩ := List.cons.inj hw
            exact absurd (by simp) hu
    · rcases readString_to_quote hquote h with ⟨rfl, ⟨-, hplain⟩ | hlt⟩ | ⟨s1, s2, heq, -⟩
      · exact ⟨hplain, rfl⟩
      · exact absurd hlt (lt_irrefl _)
      · exact absurd (by rw [heq]; simp) hquote
  · rintro ⟨hplain, rfl⟩
    exact readString_of_isPlain hplain rest'

/-! ## Values -/

def isWs (c : Char) : Bool := c == ' ' || c == '\t' || c == '\n' || c == '\r'

def skipWs (t : Text) : Text := t.dropWhile isWs

def isNumberChar (c : Char) : Bool :=
  ('0' ≤ c && c ≤ '9') || c == '+' || c == '-' || c == '.' || c == 'e' || c == 'E'

def after : Text → Text → Option Text
  | [], t => some t
  | _ :: _, [] => none
  | c :: lit, d :: t => if c = d then after lit t else none

def token (c : Char) (t : Text) : Option Text := after [c] (skipWs t)

def restAfterString (s : Text) (t : Text) : Option Text :=
  (after ['"'] t).bind fun t =>
    (readString t).bind fun (s', rest) => if s' = s then some rest else none

section
variable (readNumber : Text → Option JsonNumber)

mutual

def restAfter : Json → Text → Option Text
  | null, t => after "null".toList t
  | bool b, t => after (if b then "true".toList else "false".toList) t
  | number n, t =>
    if readNumber (t.takeWhile isNumberChar) = some n then some (t.dropWhile isNumberChar) else none
  | string s, t => restAfterString s t
  | array xs, t => (after ['['] t).bind (restElements xs 0)
  | object pairs, t => (after ['{'] t).bind (restMembers pairs 0)

def restElements : List Json → ℕ → Text → Option Text
  | [], _, t => token ']' t
  | x :: xs, i, t =>
    ((if 0 < i then token ',' t else some t).bind fun t => restAfter x (skipWs t)).bind
      (restElements xs (i + 1))

def restMembers : List (Text × Json) → ℕ → Text → Option Text
  | [], _, t => token '}' t
  | (k, x) :: pairs, i, t =>
    ((((if 0 < i then token ',' t else some t).bind fun t => restAfterString k (skipWs t)).bind
      (token ':')).bind fun t => restAfter x (skipWs t)).bind (restMembers pairs (i + 1))

end

/-- A whole text that denotes the value. -/
def IsTextOf (t : Text) (v : Json) : Prop :=
  ∃ rest, restAfter readNumber v (skipWs t) = some rest ∧ skipWs rest = []

end

theorem after_append (lit t : Text) : after lit (lit ++ t) = some t := by
  induction lit with
  | nil => rfl
  | cons c lit ih =>
    rw [List.cons_append, after, if_pos rfl, ih]

theorem skipWs_append {ws : Text} (hws : ∀ c ∈ ws, isWs c) (t : Text) :
    skipWs (ws ++ t) = skipWs t := by
  induction ws with
  | nil => rfl
  | cons c ws ih =>
    rw [skipWs, List.cons_append, List.dropWhile_cons_of_pos (hws c List.mem_cons_self)]
    exact ih fun d hd => hws d (List.mem_cons_of_mem c hd)

theorem skipWs_cons {c : Char} (hc : isWs c = false) (t : Text) : skipWs (c :: t) = c :: t := by
  rw [skipWs, List.dropWhile_cons_of_neg]
  rw [hc]
  exact Bool.false_ne_true

theorem token_cons {c : Char} (hc : isWs c = false) (t : Text) : token c (c :: t) = some t := by
  rw [token, skipWs_cons hc, after, if_pos rfl, after]

theorem restAfterString_plain_iff {k t r : Text} :
    restAfterString k ('"' :: (k ++ '"' :: t)) = some r ↔ IsPlain k ∧ r = t := by
  rw [← readString_self_iff, restAfterString, after, if_pos rfl, after, Option.bind_some,
    Option.bind_eq_some_iff]
  constructor
  · rintro ⟨⟨s, rest⟩, hread, hself⟩
    dsimp only at hself
    split_ifs at hself with hs
    rw [hread, hs, Option.some.inj hself]
  · intro hread
    exact ⟨(k, r), hread, if_pos rfl⟩

end Wedb.Json
