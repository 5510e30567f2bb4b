import Wedb.Json.Grammar

/-!
# Formatted texts

Without options a value is written by the serialiser. With any option a printer of its own
walks the value, puts line breaks and indents around what it writes, and writes keys as
they are.
-/

namespace Wedb.Json

/-- The serialisers of whole values and of numbers. -/
structure Serialisers where
  toText : Json → Text
  numberText : JsonNumber → Text

structure FormatOptions where
  indent : Option Text
  newline : Option Text
  space : Option Text

section Printer

variable (ser : Serialisers) (opts : FormatOptions)

def lineBreak (depth : ℕ) : Text :=
  if (opts.newline.getD []) ≠ [] then
    opts.newline.getD [] ++ (List.replicate depth (opts.indent.getD [])).flatten
  else []

def colonSep : Text := if opts.space = some [' '] then [':', ' '] else [':']

mutual

def formatValueRecursive : Json → ℕ → Text
  | null, _ => "null".toList
  | bool b, _ => if b then "true".toList else "false".toList
  | number n, _ => ser.numberText n
  | string s, _ => ser.toText (string s)
  | array [], _ => ['[', ']']
  | array (x :: xs), depth =>
    '[' :: (formatElements (x :: xs) depth 0 ++ (lineBreak opts depth ++ [']']))
  | object [], _ => ['{', '}']
  | object (pair :: pairs), depth =>
    '{' :: (formatMembers (pair :: pairs) depth 0 ++ (lineBreak opts depth ++ ['}']))

def formatElements : List Json → ℕ → ℕ → Text
  | [], _, _ => []
  | elem :: arr, depth, i =>
    (if 0 < i then [','] else []) ++ (lineBreak opts (depth + 1) ++
      (formatValueRecursive elem (depth + 1) ++ formatElements arr depth (i + 1)))

def formatMembers : List (Text × Json) → ℕ → ℕ → Text
  | [], _, _ => []
  | (k, v) :: obj, depth, i =>
    (if 0 < i then [','] else []) ++ (lineBreak opts (depth + 1) ++
      ('"' :: (k ++ '"' :: (colonSep opts ++
        (formatValueRecursive v (depth + 1) ++ formatMembers obj depth (i + 1))))))

end

def formatJson (val : Json) : Text :=
  if opts.indent.isNone ∧ opts.newline.isNone ∧ opts.space.isNone then ser.toText val
  else formatValueRecursive ser opts val 0

end Printer

/-! ## What the printer relies on -/

section

variable (readNumber : Text → Option JsonNumber) (ser : Serialisers)

mutual

/-- The serialisers write the numbers and the strings of a value as literals of them. -/
def LeavesWritten : Json → Prop
  | null => True
  | bool _ => True
  | number n => ser.numberText n ≠ [] ∧ (∀ c ∈ ser.numberText n, isNumberChar c) ∧
    readNumber (ser.numberText n) = some n
  | string s => ∀ rest, restAfterString s (ser.toText (string s) ++ rest) = some rest
  | array xs => ElementsWritten xs
  | object pairs => MembersWritten pairs

def ElementsWritten : List Json → Prop
  | [] => True
  | x :: xs => LeavesWritten x ∧ ElementsWritten xs

def MembersWritten : List (Text × Json) → Prop
  | [] => True
  | (_, x) :: pairs => LeavesWritten x ∧ MembersWritten pairs

end

mutual

/-- Every key of every object stands for itself in a literal. -/
def PlainKeys : Json → Prop
  | null => True
  | bool _ => True
  | number _ => True
  | string _ => True
  | array xs => ElementsPlain xs
  | object pairs => MembersPlain pairs

def ElementsPlain : List Json → Prop
  | [] => True
  | x :: xs => PlainKeys x ∧ ElementsPlain xs

def MembersPlain : List (Text × Json) → Prop
  | [] => True
  | (k, x) :: pairs => IsPlain k ∧ PlainKeys x ∧ MembersPlain pairs

end

end

/-! ## Reading the printed text -/

/-- No number goes on into the text. -/
def NumberEnds (t : Text) : Prop := t.takeWhile isNumberChar = []

theorem numberEnds_cons {c : Char} (hc : isNumberChar c = false) (t : Text) :
    NumberEnds (c :: t) := by
  rw [NumberEnds, List.takeWhile_cons_of_neg]
  rw [hc]
  exact Bool.false_ne_true

theorem isNumberChar_of_isWs {c : Char} (hc : isWs c) : isNumberChar c = false := by
  simp only [isWs, Bool.or_eq_true, beq_iff_eq] at hc
  rcases hc with ((rfl | rfl) | rfl) | rfl <;> rfl

theorem numberEnds_append {ws : Text} (hws : ∀ c ∈ ws, isWs c) {t : Text} (ht : NumberEnds t) :
    NumberEnds (ws ++ t) := by
  cases ws with
  | nil => exact ht
  | cons c ws => exact numberEnds_cons (isNumberChar_of_isWs (hws c List.mem_cons_self)) _

section

variable {readNumber : Text → Option JsonNumber} {ser : Serialisers} {opts : FormatOptions}

/-- The options that are written are blanks. -/
def Blank (opts : FormatOptions) : Prop :=
  (∀ c ∈ opts.indent.getD [], isWs c) ∧ ∀ c ∈ opts.newline.getD [], isWs c

theorem lineBreak_isWs (hblank : Blank opts) (depth : ℕ) : ∀ c ∈ lineBreak opts depth, isWs c := by
  intro c hc
  rw [lineBreak] at hc
  split_ifs at hc
  · rcases List.mem_append.mp hc with hnl | hind
    · exact hblank.2 c hnl
    · obtain ⟨ind, hmem, hin⟩ := List.mem_flatten.mp hind
      rw [List.eq_of_mem_replicate hmem] at hin
      exact hblank.1 c hin
  · cases hc

theorem isWs_of_isNumberChar {c : Char} (hc : isNumberChar c) : isWs c = false := by
  by_contra hws
  rw [isNumberChar_of_isWs (Bool.eq_true_of_not_eq_false hws)] at hc
  cases hc

theorem skipWs_number {lit : Text} (hne : lit ≠ []) (hlit : ∀ c ∈ lit, isNumberChar c) (t : Text) :
    skipWs (lit ++ t) = lit ++ t := by
  cases lit with
  | nil => exact absurd rfl hne
  | cons c lit => exact skipWs_cons (isWs_of_isNumberChar (hlit c List.mem_cons_self)) _

theorem restAfterString_head {s t r : Text} (h : restAfterString s t = some r) :
    ∃ t', t = '"' :: t' := by
  obtain ⟨t', hquote, -⟩ := Option.bind_eq_some_iff.mp h
  cases t with
  | nil => cases hquote
  | cons c t =>
    rw [after] at hquote
    split_ifs at hquote with hc
    exact ⟨t, by rw [hc]⟩

theorem skipWs_formatValueRecursive {v : Json} (hv : LeavesWritten readNumber ser v) (depth : ℕ)
    (t : Text) : skipWs (formatValueRecursive ser opts v depth ++ t) =
      formatValueRecursive ser opts v depth ++ t := by
  cases v with
  | null => rfl
  | bool b => cases b <;> rfl
  | number n =>
    rw [LeavesWritten] at hv
    rw [formatValueRecursive]
    exact skipWs_number hv.1 hv.2.1 t
  | string s =>
    rw [LeavesWritten] at hv
    obtain ⟨t', ht'⟩ := restAfterString_head (hv t)
    rw [formatValueRecursive, ht']
    rfl
  | array xs => cases xs <;> rfl
  | object pairs => cases pairs <;> rfl

theorem restAfter_number {n : JsonNumber} {t : Text} (hall : ∀ c ∈ ser.numberText n, isNumberChar c)
    (hread : readNumber (ser.numberText n) = some n) (ht : NumberEnds t) :
    restAfter readNumber (number n) (ser.numberText n ++ t) = some t := by
  have htake : (ser.numberText n ++ t).takeWhile isNumberChar = ser.numberText n := by
    rw [List.takeWhile_append_of_pos hall, ht, List.append_nil]
  have hdrop : (ser.numberText n ++ t).dropWhile isNumberChar = t := by
    rw [List.dropWhile_append_of_pos hall]
    cases t with
    | nil => rfl
    | cons c t =>
      rw [List.dropWhile_cons_of_neg]
      intro hc
      rw [NumberEnds, List.takeWhile_cons_of_pos hc] at ht
      cases ht
  rw [restAfter, htake, hdrop, if_pos hread]

/-- Past the comma of an element and its line break stands the element. -/
theorem skip_lead (hblank : Blank opts) (i depth : ℕ) (t : Text) {α : Type} (f : Text → Option α) :
    ((if 0 < i then token ',' ((if 0 < i then [','] else []) ++ (lineBreak opts depth ++ t))
      else some ((if 0 < i then [','] else []) ++ (lineBreak opts depth ++ t))).bind
        fun t => f (skipWs t)) = f (skipWs t) := by
  have hws := lineBreak_isWs hblank depth
  by_cases hi : 0 < i
  · rw [if_pos hi, if_pos hi, List.singleton_append, token_cons rfl, Option.bind_some,
      skipWs_append hws]
  · rw [if_neg hi, if_neg hi, List.nil_append, Option.bind_some, skipWs_append hws]

theorem token_lineBreak (hblank : Blank opts) (depth : ℕ) {c : Char} (hc : isWs c = false)
    (t : Text) : token c (lineBreak opts depth ++ c :: t) = some t := by
  rw [token, skipWs_append (lineBreak_isWs hblank depth)]
  exact token_cons hc t

theorem colonSep_eq (opts : FormatOptions) :
    ∃ ws, colonSep opts = ':' :: ws ∧ ∀ c ∈ ws, isWs c := by
  rw [colonSep]
  split_ifs
  · exact ⟨[' '], rfl, by simp [isWs]⟩
  · exact ⟨[], rfl, by simp⟩

theorem read_key_iff {k t r : Text} (f : Text → Option Text) :
    ((restAfterString k ('"' :: (k ++ '"' :: (colonSep opts ++ t)))).bind (token ':')).bind
      (fun t => f (skipWs t)) = some r ↔ IsPlain k ∧ f (skipWs t) = some r := by
  obtain ⟨ws, hcolon, hws⟩ := colonSep_eq opts
  have htoken : (token ':' (colonSep opts ++ t)).bind (fun t => f (skipWs t)) = f (skipWs t) := by
    rw [hcolon, List.cons_append, token_cons rfl, Option.bind_some, skipWs_append hws]
  rw [Option.bind_assoc, Option.bind_eq_some_iff]
  constructor
  · rintro ⟨t', hkey, hread⟩
    obtain ⟨hplain, rfl⟩ := restAfterString_plain_iff.mp hkey
    exact ⟨hplain, by rw [← htoken, hread]⟩
  · rintro ⟨hplain, hread⟩
    exact ⟨_, restAfterString_plain_iff.mpr ⟨hplain, rfl⟩, by rw [htoken, hread]⟩

variable (ser) in
theorem numberEnds_formatElements (hblank : Blank opts) (xs : List Json) (depth i : ℕ) {c : Char}
    (hc : isNumberChar c = false) (t : Text) :
    NumberEnds (formatElements ser opts xs depth (i + 1) ++ (lineBreak opts depth ++ c :: t)) := by
  cases xs with
  | nil => exact numberEnds_append (lineBreak_isWs hblank depth) (numberEnds_cons hc t)
  | cons x xs => exact numberEnds_cons rfl _

variable (ser) in
theorem numberEnds_formatMembers (hblank : Blank opts) (pairs : List (Text × Json)) (depth i : ℕ)
    {c : Char} (hc : isNumberChar c = false) (t : Text) :
    NumberEnds
      (formatMembers ser opts pairs depth (i + 1) ++ (lineBreak opts depth ++ c :: t)) := by
  cases pairs with
  | nil => exact numberEnds_append (lineBreak_isWs hblank depth) (numberEnds_cons hc t)
  | cons pair pairs => exact numberEnds_cons rfl _

mutual

theorem restAfter_formatValueRecursive_iff (hblank : Blank opts) (v : Json)
    (hv : LeavesWritten readNumber ser v) (depth : ℕ) {t r : Text} (ht : NumberEnds t) :
    restAfter readNumber v (formatValueRecursive ser opts v depth ++ t) = some r ↔
      PlainKeys v ∧ r = t := by
  cases v with
  | null =>
    rw [restAfter, formatValueRecursive, after_append, PlainKeys, true_and, Option.some_inj,
      eq_comm]
  | bool b =>
    rw [restAfter, formatValueRecursive, after_append, PlainKeys, true_and, Option.some_inj,
      eq_comm]
  | number n =>
    rw [LeavesWritten] at hv
    rw [formatValueRecursive, restAfter_number hv.2.1 hv.2.2 ht, PlainKeys, true_and,
      Option.some_inj, eq_comm]
  | string s =>
    rw [LeavesWritten] at hv
    rw [restAfter, formatValueRecursive, hv t, PlainKeys, true_and, Option.some_inj, eq_comm]
  | array xs =>
    rw [LeavesWritten] at hv
    have hrest := restElements_formatElements_iff hblank xs hv depth 0 t r
    cases xs with
    | nil =>
      rw [restAfter, formatValueRecursive, PlainKeys, ElementsPlain, true_and]
      change token ']' (']' :: t) = some r ↔ r = t
      rw [token_cons rfl, Option.some_inj, eq_comm]
    | cons x xs =>
      rw [restAfter, formatValueRecursive, PlainKeys, ← hrest, List.cons_append, after, if_pos rfl,
        after, Option.bind_some, List.append_assoc, List.append_assoc, List.singleton_append]
  | object pairs =>
    rw [LeavesWritten] at hv
    have hrest := restMembers_formatMembers_iff hblank pairs hv depth 0 t r
    cases pairs with
    | nil =>
      rw [restAfter, formatValueRecursive, PlainKeys, MembersPlain, true_and]
      change token '}' ('}' :: t) = some r ↔ r = t
      rw [token_cons rfl, Option.some_inj, eq_comm]
    | cons pair pairs =>
      rw [restAfter, formatValueRecursive, PlainKeys, ← hrest, List.cons_append, after, if_pos rfl,
        after, Option.bind_some, List.append_assoc, List.append_assoc, List.singleton_append]

theorem restElements_formatElements_iff (hblank : Blank opts) (xs : List Json)
    (hxs : ElementsWritten readNumber ser xs) (depth i : ℕ) (t r : Text) :
    restElements readNumber xs i
        (formatElements ser opts xs depth i ++ (lineBreak opts depth ++ ']' :: t)) = some r ↔
      ElementsPlain xs ∧ r = t := by
  cases xs with
  | nil =>
    rw [restElements, formatElements, List.nil_append, token_lineBreak hblank depth rfl,
      ElementsPlain, true_and, Option.some_inj, eq_comm]
  | cons x xs =>
    rw [ElementsWritten] at hxs
    have hmore := numberEnds_formatElements ser hblank xs depth i (c := ']') rfl t
    have hrest := restElements_formatElements_iff hblank xs hxs.2 depth (i + 1) t r
    rw [restElements, formatElements, List.append_assoc, List.append_assoc, List.append_assoc,
      skip_lead hblank, skipWs_formatValueRecursive hxs.1, Option.bind_eq_some_iff]
    simp only [restAfter_formatValueRecursive_iff hblank x hxs.1 (depth + 1) hmore]
    rw [ElementsPlain, and_assoc, ← hrest]
    constructor
    · rintro ⟨t', ⟨hx, rfl⟩, h⟩
      exact ⟨hx, h⟩
    · rintro ⟨hx, h⟩
      exact ⟨_, ⟨hx, rfl⟩, h⟩

theorem restMembers_formatMembers_iff (hblank : Blank opts) (pairs : List (Text × Json))
    (hpairs : MembersWritten readNumber ser pairs) (depth i : ℕ) (t r : Text) :
    restMembers readNumber pairs i
        (formatMembers ser opts pairs depth i ++ (lineBreak opts depth ++ '}' :: t)) = some r ↔
      MembersPlain pairs ∧ r = t := by
  cases pairs with
  | nil =>
    rw [restMembers, formatMembers, List.nil_append, token_lineBreak hblank depth rfl,
      MembersPlain, true_and, Option.some_inj, eq_comm]
  | cons pair pairs =>
    obtain ⟨k, x⟩ := pair
    rw [MembersWritten] at hpairs
    have hmore := numberEnds_formatMembers ser hblank pairs depth i (c := '}') rfl t
    have hrest := restMembers_formatMembers_iff hblank pairs hpairs.2 depth (i + 1) t r
    rw [restMembers, formatMembers]
    simp only [List.append_assoc, List.cons_append]
    rw [skip_lead hblank, skipWs_cons rfl, Option.bind_eq_some_iff]
    simp only [read_key_iff (restAfter readNumber x), skipWs_formatValueRecursive hpairs.1,
      restAfter_formatValueRecursive_iff hblank x hpairs.1 (depth + 1) hmore]
    rw [MembersPlain, and_assoc, and_assoc, ← hrest]
    constructor
    · rintro ⟨t', ⟨hk, hx, rfl⟩, h⟩
      exact ⟨hk, hx, h⟩
    · rintro ⟨hk, hx, h⟩
      exact ⟨_, ⟨hk, hx, rfl⟩, h⟩

end

theorem formatValueRecursive_isTextOf_iff (hblank : Blank opts) (v : Json)
    (hv : LeavesWritten readNumber ser v) :
    IsTextOf readNumber (formatValueRecursive ser opts v 0) v ↔ PlainKeys v := by
  have hread : ∀ r, restAfter readNumber v (formatValueRecursive ser opts v 0) = some r ↔
      PlainKeys v ∧ r = [] := by
    intro r
    have h := @restAfter_formatValueRecursive_iff readNumber ser opts hblank v hv 0 [] r rfl
    rwa [List.append_nil] at h
  have hskip := @skipWs_formatValueRecursive readNumber ser opts v hv 0 []
  rw [List.append_nil] at hskip
  rw [IsTextOf]
  simp only [hskip, hread]
  constructor
  · rintro ⟨r, ⟨hplain, -⟩, -⟩
    exact hplain
  · intro hplain
    exact ⟨[], ⟨hplain, rfl⟩, rfl⟩

/-- The printed text of a value denotes it exactly where no option is given or no key needs an
escape. -/
theorem formatJson_isTextOf_iff (hblank : Blank opts) (v : Json)
    (hv : LeavesWritten readNumber ser v) (htext : IsTextOf readNumber (ser.toText v) v) :
    IsTextOf readNumber (formatJson ser opts v) v ↔
      (opts.indent = none ∧ opts.newline = none ∧ opts.space = none) ∨ PlainKeys v := by
  rw [formatJson]
  simp only [Option.isNone_iff_eq_none]
  split_ifs with hnone
  · rw [iff_true_intro htext, true_iff]
    exact .inl hnone
  · rw [or_iff_right hnone, formatValueRecursive_isTextOf_iff hblank v hv]

end

def nullMember (lit : Text) : Text := '{' :: (lit ++ [':', 'n', 'u', 'l', 'l', '}'])

theorem isTextOf_nullMember (readNumber : Text → Option JsonNumber) {k lit : Text}
    (hlit : ∀ t, restAfterString k (lit ++ t) = some t) :
    IsTextOf readNumber (nullMember lit) (object [(k, null)]) := by
  obtain ⟨t', ht'⟩ := restAfterString_head (hlit [':', 'n', 'u', 'l', 'l', '}'])
  have hskip : skipWs (lit ++ [':', 'n', 'u', 'l', 'l', '}']) =
      lit ++ [':', 'n', 'u', 'l', 'l', '}'] := by
    rw [ht']
    exact skipWs_cons rfl t'
  refine ⟨[], ?_, rfl⟩
  rw [nullMember, skipWs_cons rfl, restAfter, after, if_pos rfl, after, Option.bind_some,
    restMembers, if_neg (lt_irrefl 0), Option.bind_some, hskip, hlit, Option.bind_some,
    token_cons rfl, Option.bind_some, skipWs_cons rfl, restAfter]
  rfl

/-- An object whose key is one letter, with the serialisers that write it. -/
theorem formatJson_isTextOf_letter :
    IsTextOf (fun _ => none)
        (formatJson ⟨fun _ => nullMember ['"', 'a', '"'], fun _ => []⟩
          ⟨some [' '], some ['\n'], none⟩ (object [(['a'], null)])) (object [(['a'], null)]) ↔
      (some [' '] = none ∧ some ['\n'] = none ∧ (none : Option Text) = none) ∨
        PlainKeys (object [(['a'], null)]) := by
  refine formatJson_isTextOf_iff ?_ _ ⟨trivial, trivial⟩ ?_
  · exact ⟨by simp [isWs], by simp [isWs]⟩
  · exact isTextOf_nullMember _ fun t =>
      (@restAfterString_plain_iff ['a'] t t).mpr ⟨by decide, rfl⟩

theorem restAfterString_quote (t : Text) :
    restAfterString ['"'] (['"', '\\', '"', '"'] ++ t) = some t := by
  have hescape : readEscape ('"' :: '"' :: t) = some ('"', '"' :: t) := rfl
  have hread : readString ('\\' :: '"' :: '"' :: t) = some (['"'], t) := by
    rw [readString_backslash, hescape, Option.bind_some]
    dsimp only
    rw [readString_quote]
    rfl
  change (readString ('\\' :: '"' :: '"' :: t)).bind _ = some t
  rw [hread, Option.bind_some]
  exact if_pos rfl

/-- A key that is a quote is written as it is. -/
theorem formatJson_quote_key :
    ¬∀ (readNumber : Text → Option JsonNumber) (ser : Serialisers) (opts : FormatOptions)
      (v : Json),
      Blank opts → LeavesWritten readNumber ser v → IsTextOf readNumber (ser.toText v) v →
        IsTextOf readNumber (formatJson ser opts v) v := by
  intro hclaim
  have hblank : Blank ⟨some [' '], none, none⟩ := ⟨by simp [isWs], by simp⟩
  have hprinted := hclaim (fun _ => none)
    ⟨fun _ => nullMember ['"', '\\', '"', '"'], fun _ => []⟩ ⟨some [' '], none, none⟩
    (object [(['"'], null)]) hblank ⟨trivial, trivial⟩
    (isTextOf_nullMember _ restAfterString_quote)
  have hplain := (formatValueRecursive_isTextOf_iff hblank _ (by exact ⟨trivial, trivial⟩)).mp
    hprinted
  rw [PlainKeys, MembersPlain] at hplain
  exact absurd hplain.1 (by decide)

end Wedb.Json
