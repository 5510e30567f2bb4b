import Wedb.Search.Tokenizer

/-!
# Queries

A query is cut at its top-level bars and blanks, where quotes, escapes and three kinds of
brackets keep a part together, and each clause is recognised by its first and last characters.
Clauses in parentheses are queries again, so that parsing is counted down by a fuel that the
length of the query bounds.
-/

namespace Wedb

open JsonPath (isWhitespace trim stripPrefix splitAtFirst)

inductive SearchQueryNode
  | wildcard
  | term (field : Option Text) (term : Text) (isPrefix isFuzzy : Bool) (maxEdits : ℕ)
  | phrase (field : Option Text) (terms : List Text) (slop : ℕ) (inOrder : Bool)
  | tag (field : Text) (tags : List Text)
  | numericRange (field : Text) (min : F64) (minInclusive : Bool) (max : F64) (maxInclusive : Bool)
  | geoFilter (field : Text) (lon lat radiusM : F64)
  | vectorKnn (field : Text) (k : ℕ) (vectorParam : Text) (vector : Option (List F64))
  | vectorRange (field : Text) (radius : F64) (vectorParam : Text) (vector : Option (List F64))
  | and (nodes : List SearchQueryNode)
  | or (nodes : List SearchQueryNode)
  | not (inner : SearchQueryNode)

namespace SearchQueryNode

def isWildcard : SearchQueryNode → Bool
  | wildcard => true
  | _ => false

def word (field : Option Text) (term : Text) : SearchQueryNode := .term field term false false 0

end SearchQueryNode

/-- What Unicode and the parsers of numbers and vectors say. -/
structure QueryApi where
  isAlphanumeric : Char → Bool
  toLowercase : Text → Text
  parseF64 : Text → Option F64
  parseUsize : Text → Option ℕ
  parseVector : Text → Option (List F64)

abbrev Params := List (Text × Text)

/-! ## Splitting -/

structure ScanState where
  paren : ℕ
  bracket : ℕ
  brace : ℕ
  inQuote : Bool
  escaped : Bool
  deriving DecidableEq

namespace ScanState

def start : ScanState := ⟨0, 0, 0, false, false⟩

/-- Neither escaped nor quoted nor inside of any bracket. -/
def atTop (st : ScanState) : Bool :=
  !st.escaped && !st.inQuote && st.paren == 0 && st.bracket == 0 && st.brace == 0

def next (st : ScanState) (ch : Char) : ScanState :=
  if st.escaped then { st with escaped := false }
  else if ch = '\\' then { st with escaped := true }
  else if ch = '"' then { st with inQuote := !st.inQuote }
  else if st.inQuote then st
  else if ch = '\x7b' ∧ st.bracket = 0 then { st with brace := st.brace + 1 }
  else if ch = '\x7d' ∧ st.bracket = 0 then { st with brace := st.brace - 1 }
  else if ch = '[' ∧ st.brace = 0 then { st with bracket := st.bracket + 1 }
  else if ch = ']' ∧ st.brace = 0 then { st with bracket := st.bracket - 1 }
  else if ch = '(' ∧ st.bracket = 0 ∧ st.brace = 0 then { st with paren := st.paren + 1 }
  else if ch = ')' ∧ st.bracket = 0 ∧ st.brace = 0 then { st with paren := st.paren - 1 }
  else st

end ScanState

/-- What a splitter carries: the parts, the current one and where it stands. -/
structure SplitState where
  parts : List Text
  cur : Text
  scan : ScanState

def splitStep (isSeparator : Char → Bool) (keepEmpty : Bool) (st : SplitState) (ch : Char) :
    SplitState :=
  if st.scan.atTop && isSeparator ch then
    ⟨if keepEmpty || !st.cur.isEmpty then st.parts ++ [st.cur] else st.parts, [], st.scan⟩
  else ⟨st.parts, st.cur ++ [ch], st.scan.next ch⟩

def splitTop (isSeparator : Char → Bool) (keepEmpty : Bool) (s : Text) : List Text :=
  let st := s.foldl (splitStep isSeparator keepEmpty) ⟨[], [], .start⟩
  if !st.cur.isEmpty then st.parts ++ [st.cur] else st.parts

def splitTopLevelOr (s : Text) : List Text := splitTop (· == '|') true s

def splitQueryTokens (s : Text) : List Text := splitTop isWhitespace false s

/-! ## Strings -/

def enclosed (first last : Char) (s : Text) : Option Text :=
  if s.head? = some first ∧ s.getLast? = some last ∧ 2 ≤ s.length then some s.tail.dropLast
  else none

def splitWhitespace (s : Text) : List Text := (s.splitOnP isWhitespace).filter (!·.isEmpty)

def trimStartMatches (c : Char) (s : Text) : Text := s.dropWhile (· == c)

def trimEndMatches (c : Char) (s : Text) : Text := s.rdropWhile (· == c)

def eqIgnoreCase (s t : Text) : Bool := s.map Char.toLower == t.map Char.toLower

section
variable (api : QueryApi) (params : Params)

/-! ## Tags and numbers -/

def processSingleTag (item : Text) : Text :=
  let trimmed := trim item
  match (stripPrefix ['$'] trimmed).bind fun name => params.lookup name with
  | some val => unescapeTagString (trim val)
  | none => unescapeTagString (trimMatches (· == '\'') (trimMatches (· == '"') trimmed))

/-- What the tag list carries: the tags, the current one, and whether it is quoted or escaped. -/
structure TagListScan where
  tags : List Text
  cur : Text
  inQuote : Bool
  escaped : Bool

def pushListTag (tags : List Text) (cur : Text) : List Text :=
  let parsedTag := processSingleTag params cur
  if !parsedTag.isEmpty then tags ++ [parsedTag] else tags

def tagListStep (st : TagListScan) (ch : Char) : TagListScan :=
  if st.escaped then { st with cur := st.cur ++ [ch], escaped := false }
  else if ch = '\\' then { st with cur := st.cur ++ [ch], escaped := true }
  else if ch = '"' ∨ ch = '\'' then { st with cur := st.cur ++ [ch], inQuote := !st.inQuote }
  else if st.inQuote then { st with cur := st.cur ++ [ch] }
  else if ch = '|' then { st with tags := pushListTag params st.tags st.cur, cur := [] }
  else { st with cur := st.cur ++ [ch] }

def splitTagList (inner : Text) : List Text :=
  let st := inner.foldl (tagListStep params) ⟨[], [], false, false⟩
  if !st.cur.isEmpty then pushListTag params st.tags st.cur else st.tags

def parseNumBound (boundStr : Text) : F64 × Bool :=
  let clean := trimEndMatches ')' (trimEndMatches ']' (trimStartMatches '[' (trim boundStr)))
  let (valStr, inclusive) := match stripPrefix ['('] clean with
    | some stripped => (stripped, false)
    | none => (clean, true)
  let resolvedVal := match stripPrefix ['$'] valStr with
    | some name => (params.lookup name).getD valStr
    | none => valStr
  if eqIgnoreCase resolvedVal ['-', 'i', 'n', 'f'] then (.negInfinity, true)
  else if eqIgnoreCase resolvedVal ['+', 'i', 'n', 'f'] || eqIgnoreCase resolvedVal ['i', 'n', 'f']
  then (.infinity, true)
  else ((api.parseF64 resolvedVal).getD .zero, inclusive)

/-! ## Clauses -/

def attachFieldToNode (field : Text) : SearchQueryNode → SearchQueryNode
  | .term _ term isPrefix isFuzzy maxEdits => .term (some field) term isPrefix isFuzzy maxEdits
  | .phrase _ terms slop inOrder => .phrase (some field) terms slop inOrder
  | .and children => .and (children.map (attachFieldToNode field))
  | .or children => .or (children.map (attachFieldToNode field))
  | .not inner => .not (attachFieldToNode field inner)
  | node => node

def phraseNode (field : Option Text) (phrase : Text) : SearchQueryNode :=
  match tokenizeText api.isAlphanumeric phrase with
  | [] => .word field []
  | [first] => .word field first
  | terms => .phrase field terms 0 true

def textNode (field : Option Text) (value : Text) : SearchQueryNode :=
  match enclosed '"' '"' value with
  | some phrase => phraseNode api field phrase
  | none =>
    if ['%', '%'] <+: value ∧ ['%', '%'] <:+ value ∧ 4 ≤ value.length then
      .term field (api.toLowercase ((value.drop 2).dropLast.dropLast)) false true 2
    else match enclosed '%' '%' value with
      | some term => .term field (api.toLowercase term) false true 1
      | none =>
        if value.getLast? = some '*' then
          .term field (api.toLowercase value.dropLast) true false 0
        else .term field (api.toLowercase value) false false 0

def vectorRangeName : Text := "VECTOR_RANGE".toList

def rangeNode (field inner : Text) : Option SearchQueryNode :=
  let parts := splitWhitespace inner
  match if vectorRangeName <+: inner.map Char.toUpper then parts else [], parts with
  | _ :: radius :: param :: _, _ =>
    let radius := match stripPrefix ['$'] radius with
      | some name => ((params.lookup name).bind api.parseF64).getD ⟨0x3FF0000000000000⟩
      | none => (api.parseF64 radius).getD ⟨0x3FF0000000000000⟩
    let paramName := trimStartMatches '$' param
    some (.vectorRange field radius paramName ((params.lookup paramName).bind api.parseVector))
  | _, low :: high :: _ =>
    let (min, minInc) := parseNumBound api params low
    let (max, maxInc) := parseNumBound api params high
    some (.numericRange field min minInc max maxInc)
  | _, _ => none

def enclosedRange (value : Text) : Option Text :=
  if (value.head? = some '[' ∨ value.head? = some '(') ∧
      (value.getLast? = some ']' ∨ value.getLast? = some ')') ∧ 2 ≤ value.length then
    some value.tail.dropLast
  else none

variable (parseQuery : Text → Option SearchQueryNode)

def fieldClause (field value : Text) : Option SearchQueryNode :=
  match enclosed '(' ')' value with
  | some inner => (parseQuery (trim inner)).map (attachFieldToNode field)
  | none =>
    match enclosed '\x7b' '\x7d' value with
    | some inner => some (.tag field (splitTagList params inner))
    | none =>
      match (enclosedRange value).bind fun inner => rangeNode api params field (trim inner) with
      | some node => some node
      | none => some (textNode api (some field) value)

def parseSingleClause (clause : Text) : Option SearchQueryNode :=
  let trimmed := trim clause
  if trimmed = ['*'] then some .wildcard
  else match enclosed '(' ')' trimmed with
    | some inner => parseQuery (trim inner)
    | none =>
      match (stripPrefix ['@'] trimmed).bind (splitAtFirst [':']) with
      | some (field, value) => fieldClause api params parseQuery field (trim value)
      | none => some (textNode api none trimmed)

def parseToken (token : Text) : Option (List SearchQueryNode) :=
  match stripPrefix ['-'] token with
  | some [] => some []
  | some stripped => (parseSingleClause api params parseQuery stripped).map fun inner => [.not inner]
  | none => (parseSingleClause api params parseQuery token).map fun inner => [inner]

def parseTokens : List Text → Option (List SearchQueryNode)
  | [] => some []
  | token :: tokens => do
    let node ← parseToken api params parseQuery token
    let nodes ← parseTokens tokens
    some (node ++ nodes)

def andNode : List SearchQueryNode → SearchQueryNode
  | [] => .wildcard
  | [node] => node
  | nodes => .and nodes

def parseSearchQueryPart (part : Text) : Option SearchQueryNode :=
  (parseTokens api params parseQuery (splitQueryTokens part)).map andNode

def knnNode (inner : Text) : Option SearchQueryNode :=
  match splitWhitespace inner with
  | knn :: kStr :: field :: param :: _ =>
    if eqIgnoreCase knn ['K', 'N', 'N'] then
      let k := match stripPrefix ['$'] kStr with
        | some name => ((params.lookup name).bind api.parseUsize).getD 10
        | none => (api.parseUsize kStr).getD 10
      let paramName := trimStartMatches '$' param
      some (.vectorKnn (trimStartMatches '@' field) k paramName
        ((params.lookup paramName).bind api.parseVector))
    else none
  | _ => none

def splitKnn (trimmed : Text) : Option (Text × SearchQueryNode) := do
  let (left, right) ← splitAtFirst ['=', '>'] trimmed
  let inner ← enclosed '[' ']' (trim right)
  let node ← knnNode api params (trim inner)
  some (trim left, node)

def withFilter (knn filter : SearchQueryNode) : SearchQueryNode :=
  if filter.isWildcard then knn else .and [filter, knn]

def parseParts (parts : List Text) : Option (List SearchQueryNode) :=
  parts.mapM fun part => parseSearchQueryPart api params parseQuery (trim part)

def parseSearchQueryOnce (query : Text) : Option SearchQueryNode :=
  let trimmed := trim query
  if trimmed = ['*'] ∨ trimmed = [] then some .wildcard
  else match splitKnn api params trimmed with
    | some (left, knn) =>
      if left = ['*'] ∨ left = [] then some (withFilter knn .wildcard)
      else (parseSearchQueryPart api params parseQuery left).map (withFilter knn)
    | none => do
      let orParts := splitTopLevelOr trimmed
      let nodes ← if 1 < orParts.length then parseParts api params parseQuery orParts else some []
      match nodes.filter (!·.isWildcard) with
      | [] => parseSearchQueryPart api params parseQuery trimmed
      | [node] => some node
      | nodes => some (.or nodes)

end

def parseSearchQueryFuel (api : QueryApi) (params : Params) : ℕ → Text → Option SearchQueryNode
  | 0, _ => none
  | fuel + 1, query =>
    parseSearchQueryOnce api params (parseSearchQueryFuel api params fuel) query

def parseSearchQueryWithParams (api : QueryApi) (params : Params) (query : Text) :
    Option SearchQueryNode :=
  parseSearchQueryFuel api params (query.length + 1) query

end Wedb
