import Mathlib.Data.List.DropRight
import Wedb.Engine.Error
import Wedb.Json.Slice
import Wedb.Json.Value

/-!
# Paths

A path is parsed into segments by scans over its text: one for names, one for the extent of
a bracket, one for the parts of a union and one for the operator of a filter.
-/

def F64.integral (a : F64) : Option ℤ :=
  let exponent := a.magnitude / 2 ^ 52
  let fraction := a.magnitude % 2 ^ 52
  let significand := if exponent = 0 then fraction else 2 ^ 52 + fraction
  let shift := max exponent 1
  if exponent = 2047 then none
  else
    (if 1075 ≤ shift then some (significand * 2 ^ (shift - 1075))
      else if significand % 2 ^ (1075 - shift) = 0 then some (significand / 2 ^ (1075 - shift))
      else none).map fun n : ℕ => if a.isNegative then -(n : ℤ) else n

namespace Wedb

inductive FilterOp
  | «exists»
  | notExists
  | eq (target : Json)
  | ne (target : Json)
  | lt (target : F64)
  | le (target : F64)
  | gt (target : F64)
  | ge (target : F64)

structure FilterExpr where
  path : List Text
  op : FilterOp

inductive PathSegment
  | root
  | field (name : Text)
  | multiField (names : List Text)
  | index (idx : Int64)
  | multiIndex (slices : List SliceIndex)
  | wildcard
  | filter (expr : FilterExpr)
  | recursive (target : PathSegment)

/-- What the serialiser's values and the parser of floats say. -/
structure ValueApi where
  asF64 : Json → Option F64
  valueEq : Json → Json → Bool
  ofI64 : Int64 → Json
  ofF64 : F64 → Json
  parseF64 : Text → Option F64

namespace JsonPath

/-! ## Strings -/

def isWhitespace (c : Char) : Bool :=
  let n := c.toNat
  (9 ≤ n && n ≤ 13) || n == 0x20 || n == 0x85 || n == 0xa0 || n == 0x1680 ||
    (0x2000 ≤ n && n ≤ 0x200a) || n == 0x2028 || n == 0x2029 || n == 0x202f || n == 0x205f ||
    n == 0x3000

def trim (s : Text) : Text := (s.dropWhile isWhitespace).rdropWhile isWhitespace

theorem trim_trim (s : Text) : trim (trim s) = trim s := by
  have hhead : (trim s).dropWhile isWhitespace = trim s := by
    rw [List.dropWhile_eq_self_iff]
    intro hpos
    have hpre : trim s <+: s.dropWhile isWhitespace := List.rdropWhile_prefix _ _
    have hlen := hpos.trans_le hpre.length_le
    rw [hpre.getElem hpos]
    exact List.dropWhile_get_zero_not _ _ hlen
  rw [trim, hhead]
  exact List.rdropWhile_idempotent _ _

def stripPrefix (pre s : Text) : Option Text :=
  if pre.isPrefixOf s then some (s.drop pre.length) else none

def splitAtFirst (pat : Text) : Text → Option (Text × Text)
  | [] => if pat = [] then some ([], []) else none
  | c :: s =>
    if pat.isPrefixOf (c :: s) then some ([], (c :: s).drop pat.length)
    else (splitAtFirst pat s).map fun (before, rest) => (c :: before, rest)

def replacePair (a b r : Char) : Text → Text
  | c :: d :: s =>
    if c = a ∧ d = b then r :: replacePair a b r s else c :: replacePair a b r (d :: s)
  | s => s

def parseDigits (s : Text) : Option ℕ :=
  if s ≠ [] ∧ s.all Char.isDigit then some (s.foldl (fun n c => n * 10 + (c.toNat - 48)) 0)
  else none

def parseIsize (s : Text) : Option Int64 :=
  let value : Option ℤ :=
    match s with
    | '-' :: digits => (parseDigits digits).map fun n => -(n : ℤ)
    | '+' :: digits => (parseDigits digits).map Int.ofNat
    | digits => (parseDigits digits).map Int.ofNat
  value.bind fun n => if -2 ^ 63 ≤ n ∧ n < 2 ^ 63 then some (Int64.ofInt n) else none

/-! ## Brackets -/

def scanBracket : Text → ℕ → Bool → Bool → Text → Option (Text × Text)
  | [], _, _, _, _ => none
  | [c], depth, inSingle, inDouble, inner =>
    if c = ']' ∧ ¬inSingle ∧ ¬inDouble ∧ depth = 1 then some (inner, []) else none
  | c :: e :: s, depth, inSingle, inDouble, inner =>
    if c = '\\' ∧ (inSingle ∨ inDouble) then scanBracket s depth inSingle inDouble (inner ++ [c, e])
    else if c = '\'' ∧ ¬inDouble then scanBracket (e :: s) depth (!inSingle) inDouble (inner ++ [c])
    else if c = '"' ∧ ¬inSingle then scanBracket (e :: s) depth inSingle (!inDouble) (inner ++ [c])
    else if c = '[' ∧ ¬inSingle ∧ ¬inDouble then
      scanBracket (e :: s) (depth + 1) inSingle inDouble (inner ++ [c])
    else if c = ']' ∧ ¬inSingle ∧ ¬inDouble then
      if depth = 1 then some (inner, e :: s)
      else scanBracket (e :: s) (depth - 1) inSingle inDouble (inner ++ [c])
    else scanBracket (e :: s) depth inSingle inDouble (inner ++ [c])

def pushRest (cur : Text) : List Text := if trim cur ≠ [] then [trim cur] else []

def splitBracketParts : Text → Bool → Bool → Text → List Text
  | [], _, _, cur => pushRest cur
  | [c], inSingle, inDouble, cur =>
    if c = ',' ∧ ¬inSingle ∧ ¬inDouble then [trim cur] else pushRest (cur ++ [c])
  | c :: e :: s, inSingle, inDouble, cur =>
    if c = '\\' ∧ (inSingle ∨ inDouble) then splitBracketParts s inSingle inDouble (cur ++ [c, e])
    else if c = '\'' ∧ ¬inDouble then splitBracketParts (e :: s) (!inSingle) inDouble (cur ++ [c])
    else if c = '"' ∧ ¬inSingle then splitBracketParts (e :: s) inSingle (!inDouble) (cur ++ [c])
    else if c = ',' ∧ ¬inSingle ∧ ¬inDouble then
      trim cur :: splitBracketParts (e :: s) inSingle inDouble []
    else splitBracketParts (e :: s) inSingle inDouble (cur ++ [c])

def quotedBy (q : Char) (s : Text) : Prop := s.head? = some q ∧ s.getLast? = some q

instance (q : Char) (s : Text) : Decidable (quotedBy q s) := inferInstanceAs (Decidable (_ ∧ _))

def unquoteCow (s : Text) : Text :=
  let s := trim s
  if (quotedBy '\'' s ∨ quotedBy '"' s) ∧ 2 ≤ s.length then
    let inner := s.tail.dropLast
    if '\\' ∈ inner then
      replacePair '\\' '\\' '\\' (replacePair '\\' '"' '"' (replacePair '\\' '\'' '\'' inner))
    else inner
  else s

def parsePart (p : Text) : Option (Option Int64) :=
  let t := trim p
  if t = [] then some none else (parseIsize t).map some

def parseSingleSlice (s : Text) : Option SliceIndex :=
  let s := trim s
  if ':' ∈ s then
    match s.splitOn ':' with
    | [p0, p1] => (parsePart p0).bind fun start => (parsePart p1).map fun stop =>
        .slice start stop none
    | [p0, p1, p2] => (parsePart p0).bind fun start => (parsePart p1).bind fun stop =>
        (parsePart p2).map fun step => .slice start stop step
    | _ => none
  else (parseIsize s).map .index

/-! ## Filters -/

section
variable (api : ValueApi)

def rightVal (right : Text) : Json :=
  if quotedBy '\'' right ∨ quotedBy '"' right then .string (unquoteCow right)
  else if right = "true".toList then .bool true
  else if right = "false".toList then .bool false
  else if right = "null".toList then .null
  else
    match api.parseF64 right with
    | some num =>
      match num.integral with
      | some n =>
        if -2 ^ 63 ≤ n ∧ n ≤ 2 ^ 63 then api.ofI64 (Int64.ofInt (min n (2 ^ 63 - 1)))
        else api.ofF64 num
      | none => api.ofF64 num
    | none => .string right

def comparison (op right : Text) : FilterOp :=
  let num := (api.parseF64 right).getD F64.zero
  if op = "==".toList then .eq (rightVal api right)
  else if op = "!=".toList then .ne (rightVal api right)
  else if op = "<".toList then .lt num
  else if op = "<=".toList then .le num
  else if op = ">".toList then .gt num
  else .ge num

def leftPath (left : Text) : Option (List Text) :=
  (stripPrefix ['@'] left).map fun inner =>
    ((stripPrefix ['.'] (trim inner)).getD left).splitOn '.'

def filterOps : List Text := ["==", "!=", "<=", ">=", "<", ">"].map String.toList

def findOp (s : Text) : List Text → Option (Text × Text × Text)
  | [] => none
  | op :: ops =>
    match splitAtFirst op s with
    | some (left, right) => some (op, left, right)
    | none => findOp s ops

def existsPath (s : Text) : Option (List Text) :=
  (stripPrefix ['@'] s).map fun left => ((stripPrefix ['.'] (trim left)).getD left).splitOn '.'

def parseFilterExpr (s : Text) : Option FilterExpr :=
  let s := trim s
  match stripPrefix ['!'] s with
  | some stripped => (stripPrefix ['@'] (trim stripped)).map fun inner =>
      ⟨((stripPrefix ['.'] (trim inner)).getD inner).splitOn '.', .notExists⟩
  | none =>
    match findOp s filterOps with
    | some (op, left, right) => (leftPath (trim left)).map fun path =>
        ⟨path, comparison api op (trim right)⟩
    | none => (existsPath s).map fun path => ⟨path, .exists⟩

/-! ## Segments -/

def parseUnion (parts : List Text) : PathSegment :=
  if parts.all fun part => (parseSingleSlice (trim part)).isSome then
    .multiIndex (parts.filterMap fun part => parseSingleSlice (trim part))
  else .multiField (parts.map unquoteCow)

def parseSingle (inner : Text) : Except Error PathSegment :=
  match parseSingleSlice inner with
  | some (.index idx) => .ok (.index idx)
  | some slice => .ok (.multiIndex [slice])
  | none =>
    let unquoted := unquoteCow inner
    if unquoted ≠ [] then .ok (.field unquoted)
    else .error (.invalidData "Invalid empty bracket content")

def parseBracketContent (inner : Text) : Except Error PathSegment :=
  let inner := trim inner
  if inner = [] ∨ inner = ['*'] then .ok .wildcard
  else
    match stripPrefix ['?'] inner with
    | some stripped =>
      let exprStr := trim (((trim stripped).dropWhile (· = '(')).rdropWhile (· = ')'))
      match parseFilterExpr api exprStr with
      | some filter => .ok (.filter filter)
      | none => .error (.invalidData "Invalid filter expression in JSONPath")
    | none =>
      if ',' ∈ inner then
        let parts := splitBracketParts inner false false []
        if 1 < parts.length then .ok (parseUnion parts) else parseSingle inner
      else parseSingle inner

def parseBracket (s : Text) : Except Error (PathSegment × Text) :=
  match scanBracket s 1 false false [] with
  | none => .error (.invalidData "Invalid JSONPath: unclosed bracket")
  | some (inner, rest) => (parseBracketContent api (trim inner)).map fun seg => (seg, rest)

def isNameChar (c : Char) : Bool := c != '.' && c != '['

def takeName (message : String) (s : Text) : Except Error (Text × Text) :=
  let name := trim (s.takeWhile isNameChar)
  if name = [] then .error (.invalidData message) else .ok (name, s.dropWhile isNameChar)

def fieldOrWildcard (name : Text) : PathSegment := if name = ['*'] then .wildcard else .field name

def parseDescent : Text → Except Error (PathSegment × Text)
  | [] => .error (.invalidData "Invalid JSONPath: trailing recursive descent '..'")
  | '*' :: s => .ok (.recursive .wildcard, s)
  | '[' :: s => (parseBracket api s).map fun (seg, rest) => (.recursive seg, rest)
  | s => (takeName "Invalid JSONPath: empty identifier after '..'" s).map fun (name, rest) =>
      (.recursive (.field name), rest)

def parseDotted : Text → Except Error (PathSegment × Text)
  | [] => .error (.invalidData "Invalid JSONPath: trailing dot")
  | '.' :: s => parseDescent api s
  | '*' :: s => .ok (.wildcard, s)
  | '[' :: s => parseBracket api s
  | s => (takeName "Invalid JSONPath: empty identifier after '.'" s).map fun (name, rest) =>
      (fieldOrWildcard name, rest)

def parseStep : Text → Except Error (PathSegment × Text)
  | '.' :: s => parseDotted api s
  | '[' :: s => parseBracket api s
  | s => (takeName "Invalid JSONPath: unexpected token" s).map fun (name, rest) =>
      (fieldOrWildcard name, rest)

theorem scanBracket_length {s inner inner' rest : Text} {depth : ℕ} {inSingle inDouble : Bool}
    (h : scanBracket s depth inSingle inDouble inner = some (inner', rest)) :
    rest.length < s.length := by
  induction hn : s.length using Nat.strong_induction_on generalizing s depth inSingle inDouble inner
    with
  | _ n ih =>
    cases s with
    | nil => cases h
    | cons c s =>
      cases s with
      | nil =>
        rw [scanBracket] at h
        split_ifs at h
        obtain ⟨-, rfl⟩ := Prod.mk.inj (Option.some.inj h)
        simp only [List.length_nil, List.length_cons] at hn ⊢
        omega
      | cons e s =>
        simp only [List.length_cons] at hn
        have next : ∀ {depth inSingle inDouble inner},
            scanBracket (e :: s) depth inSingle inDouble inner = some (inner', rest) →
              rest.length < n :=
          fun h => (ih (s.length + 1) (by omega) h rfl).trans (by omega)
        rw [scanBracket] at h
        split_ifs at h
        · exact (ih s.length (by omega) h rfl).trans (by omega)
        · exact next h
        · exact next h
        · exact next h
        · obtain ⟨-, rfl⟩ := Prod.mk.inj (Option.some.inj h)
          simp only [List.length_cons]
          omega
        · exact next h
        · exact next h

theorem exists_ok_of_map {α β : Type} {x : Except Error α} {f : α → β} {b : β}
    (h : x.map f = .ok b) : ∃ a, x = .ok a ∧ f a = b := by
  cases x with
  | error err => cases h
  | ok a => exact ⟨a, rfl, Except.ok.inj h⟩

theorem parseBracket_length {s rest : Text} {seg : PathSegment}
    (h : parseBracket api s = .ok (seg, rest)) : rest.length < s.length := by
  rw [parseBracket] at h
  split at h
  · cases h
  · rename_i inner rest' hscan
    obtain ⟨seg', -, heq⟩ := exists_ok_of_map h
    obtain ⟨-, rfl⟩ := Prod.mk.inj heq
    exact scanBracket_length hscan

theorem takeName_eq {message : String} {s name rest : Text}
    (h : takeName message s = .ok (name, rest)) :
    name = trim (s.takeWhile isNameChar) ∧ rest = s.dropWhile isNameChar ∧ name ≠ [] := by
  rw [takeName] at h
  split_ifs at h with hname
  obtain ⟨rfl, rfl⟩ := Prod.mk.inj (Except.ok.inj h)
  exact ⟨rfl, rfl, hname⟩

theorem takeName_length {message : String} {s name rest : Text}
    (h : takeName message s = .ok (name, rest)) : rest.length < s.length := by
  obtain ⟨hname, hrest, hne⟩ := takeName_eq h
  have hsplit := congrArg List.length (List.takeWhile_append_dropWhile (p := isNameChar) (l := s))
  rw [List.length_append, ← hrest] at hsplit
  have hpos : 0 < (s.takeWhile isNameChar).length := by
    refine List.length_pos_of_ne_nil fun hnil => hne ?_
    rw [hname, hnil]
    rfl
  omega

theorem parseDescent_length {s rest : Text} {seg : PathSegment}
    (h : parseDescent api s = .ok (seg, rest)) : rest.length < s.length := by
  rw [parseDescent.eq_def] at h
  split at h
  · cases h
  · obtain ⟨-, rfl⟩ := Prod.mk.inj (Except.ok.inj h)
    simp
  · obtain ⟨⟨seg', rest'⟩, hread, heq⟩ := exists_ok_of_map h
    obtain ⟨-, rfl⟩ := Prod.mk.inj heq
    exact (parseBracket_length api hread).trans (by simp)
  · obtain ⟨⟨name, rest'⟩, hread, heq⟩ := exists_ok_of_map h
    obtain ⟨-, rfl⟩ := Prod.mk.inj heq
    exact takeName_length hread

theorem parseDotted_length {s rest : Text} {seg : PathSegment}
    (h : parseDotted api s = .ok (seg, rest)) : rest.length < s.length := by
  rw [parseDotted.eq_def] at h
  split at h
  · cases h
  · exact (parseDescent_length api h).trans (by simp)
  · obtain ⟨-, rfl⟩ := Prod.mk.inj (Except.ok.inj h)
    simp
  · exact (parseBracket_length api h).trans (by simp)
  · obtain ⟨⟨name, rest'⟩, hread, heq⟩ := exists_ok_of_map h
    obtain ⟨-, rfl⟩ := Prod.mk.inj heq
    exact takeName_length hread

theorem parseStep_length {s rest : Text} {seg : PathSegment}
    (h : parseStep api s = .ok (seg, rest)) : rest.length < s.length := by
  rw [parseStep.eq_def] at h
  split at h
  · exact (parseDotted_length api h).trans (by simp)
  · exact (parseBracket_length api h).trans (by simp)
  · obtain ⟨⟨name, rest'⟩, hread, heq⟩ := exists_ok_of_map h
    obtain ⟨-, rfl⟩ := Prod.mk.inj heq
    exact takeName_length hread

def parseSegments (s : Text) : Except Error (List PathSegment) :=
  if s = [] then .ok []
  else
    match _ : parseStep api s with
    | .error err => .error err
    | .ok (seg, rest) => (parseSegments rest).map fun segs => seg :: segs
termination_by s.length
decreasing_by
  rename_i hstep
  exact parseStep_length api hstep

def isRootPath (s : Text) : Prop := s = [] ∨ s = ['$'] ∨ s = ['.']

instance (s : Text) : Decidable (isRootPath s) := inferInstanceAs (Decidable (_ ∨ _ ∨ _))

def parseJsonPath (path : Text) : Except Error (List PathSegment) :=
  let s := trim path
  if isRootPath s then .ok [.root]
  else
    match s with
    | '$' :: s => (parseSegments api s).map fun segs => .root :: segs
    | s => parseSegments api s

def extractSimpleField (path : Text) : Option Text :=
  let s := trim path
  let candidate :=
    match stripPrefix ['$', '.'] s with
    | some sub => some sub
    | none =>
      match stripPrefix ['.'] s with
      | some sub => some sub
      | none => if s.head? ≠ some '$' ∧ s.head? ≠ some '[' then some s else none
  candidate.bind fun candidate =>
    let candidate := trim candidate
    if candidate = [] ∨ candidate = ['*'] ∨ candidate.any fun c =>
        c ∈ ['.', '[', ']', '*', '?', '(', ')', '\'', '"', '\\', ' ', '\t', '\n', '\r'] then none
    else some candidate

end

end JsonPath

end Wedb
