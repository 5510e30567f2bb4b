import Mathlib.Data.List.Sort
import Wedb.Hash.ReadBack
import Wedb.Key.Del
import Wedb.List.Reads
import Wedb.Ordered.Comparator
import Wedb.Set.Algebra
import Wedb.String.Value
import Wedb.ZSet.Rank

/-!
# Sorting the elements of a key

SORT looks a weight up for each element of a list, a set or a sorted set, sorts the elements by
weight, cuts a page and projects it through further lookups. A lookup puts the element into a
pattern and takes the result apart, so an element with an arrow can move the place where it comes
apart. A stored result replaces the destination in two commits.
-/

namespace Wedb

/-! ## Patterns -/

def elementPattern : Bytes := [0x23]

def asterisk : UInt8 := 0x2A

def arrowPosition : Bytes → Option ℕ
  | b :: c :: rest =>
    if b = 0x2D ∧ c = 0x3E then some 0 else (arrowPosition (c :: rest)).map (· + 1)
  | _ => none

def expandPattern (pattern member : Bytes) : Bytes :=
  match pattern.findIdx? (· = asterisk) with
  | some pos => pattern.take pos ++ (member ++ pattern.drop (pos + 1))
  | none => pattern

/-- What a pattern stands for: the element, a string, or a field of a hash. -/
inductive SortTarget
  | element
  | string (key : Bytes)
  | field (key name : Bytes)
  deriving DecidableEq, Repr

/-- The expanded pattern is taken apart at its first arrow. -/
def sortTarget (pattern member : Bytes) : SortTarget :=
  if pattern = elementPattern then .element
  else
    let expanded := expandPattern pattern member
    match arrowPosition expanded with
    | some arrowPos => .field (expanded.take arrowPos) (expanded.drop (arrowPos + 2))
    | none => .string expanded

/-- The pattern is taken apart at its own first arrow, and then expanded. -/
def opaqueTarget (pattern member : Bytes) : SortTarget :=
  if pattern = elementPattern then .element
  else
    match arrowPosition pattern with
    | some arrowPos =>
      let key := pattern.take arrowPos
      let name := pattern.drop (arrowPos + 2)
      if asterisk ∈ key then .field (expandPattern key member) name
      else .field key (expandPattern name member)
    | none => .string (expandPattern pattern member)

def SortTarget.keyText : SortTarget → Bytes
  | .element => []
  | .string key => key
  | .field key _ => key

def SortTarget.text : SortTarget → Bytes
  | .element => []
  | .string key => key
  | .field key name => key ++ ([0x2D, 0x3E] ++ name)

def SortTarget.ofText (text : Bytes) : SortTarget :=
  match arrowPosition text with
  | some arrowPos => .field (text.take arrowPos) (text.drop (arrowPos + 2))
  | none => .string text

section

variable {a b member pattern : Bytes} {n : ℕ}

theorem arrowPosition_lt (h : arrowPosition a = some n) : n + 2 ≤ a.length := by
  induction a generalizing n with
  | nil => cases h
  | cons b a ih =>
    cases a with
    | nil => cases h
    | cons c a =>
      rw [arrowPosition] at h
      split_ifs at h with hbc
      · cases h
        simp
      · obtain ⟨k, hk, rfl⟩ := Option.map_eq_some_iff.mp h
        have hlen := ih hk
        simp only [List.length_cons] at hlen ⊢
        omega

theorem arrowPosition_append (h : arrowPosition a = some n) (b : Bytes) :
    arrowPosition (a ++ b) = some n := by
  induction a generalizing n with
  | nil => cases h
  | cons x a ih =>
    cases a with
    | nil => cases h
    | cons y a =>
      rw [arrowPosition] at h
      rw [List.cons_append, List.cons_append, arrowPosition]
      split_ifs at h with hxy
      · rw [if_pos hxy, h]
      · obtain ⟨k, hk, rfl⟩ := Option.map_eq_some_iff.mp h
        rw [if_neg hxy, ← List.cons_append, ih hk]
        rfl

theorem arrowPosition_append_arrow (h : arrowPosition a = none) (b : Bytes) :
    arrowPosition (a ++ ([0x2D, 0x3E] ++ b)) = some a.length := by
  induction a with
  | nil => rfl
  | cons x a ih =>
    cases a with
    | nil =>
      have hx : ¬(x = 0x2D ∧ (0x2D : UInt8) = 0x3E) := fun hc => absurd hc.2 (by decide)
      show (if x = 0x2D ∧ (0x2D : UInt8) = 0x3E then some 0 else _) = _
      rw [if_neg hx]
      rfl
    | cons y a =>
      rw [arrowPosition] at h
      split_ifs at h with hxy
      rw [List.cons_append, List.cons_append, arrowPosition, if_neg hxy, ← List.cons_append,
        ih (Option.map_eq_none_iff.mp h)]
      rfl

theorem SortTarget.ofText_text_iff {target : SortTarget} (hne : target ≠ .element) :
    ofText target.text = target ↔ arrowPosition target.keyText = none := by
  cases target with
  | element => exact absurd rfl hne
  | string key =>
    rw [ofText, text, keyText]
    cases arrowPosition key <;> simp
  | field key name =>
    rw [ofText, text, keyText]
    cases hkey : arrowPosition key with
    | none =>
      rw [arrowPosition_append_arrow hkey]
      have hdrop : (key ++ ([0x2D, 0x3E] ++ name)).drop (key.length + 2) = name := by
        rw [← List.drop_drop, List.drop_left]
        rfl
      simp only [List.take_left, hdrop]
    | some k =>
      rw [arrowPosition_append hkey]
      refine iff_of_false (fun heq => ?_) (by simp)
      have hlt := arrowPosition_lt hkey
      have hkeys := congrArg (fun t => t.keyText.length) heq
      simp only [keyText, List.length_take, List.length_append] at hkeys
      omega

theorem findIdx?_append_of_mem {p : Bytes} (h : asterisk ∈ p) (t : Bytes) :
    (p ++ t).findIdx? (· = asterisk) = p.findIdx? (· = asterisk) := by
  rw [List.findIdx?_append]
  have hsome : (p.findIdx? (· = asterisk)).isSome := by
    rw [List.findIdx?_isSome, List.any_eq_true]
    exact ⟨asterisk, h, by simp⟩
  cases hp : p.findIdx? (· = asterisk) with
  | none =>
    rw [hp] at hsome
    cases hsome
  | some k => rfl

theorem expandPattern_append_left {p : Bytes} (h : asterisk ∈ p) (t member : Bytes) :
    expandPattern (p ++ t) member = expandPattern p member ++ t := by
  rw [expandPattern, expandPattern, findIdx?_append_of_mem h]
  cases hp : p.findIdx? (· = asterisk) with
  | none => rfl
  | some k =>
    obtain ⟨hk, -⟩ := List.findIdx?_eq_some_iff_getElem.mp hp
    simp only
    rw [List.take_append_of_le_length hk.le, List.drop_append_of_le_length hk, List.append_assoc,
      List.append_assoc]

theorem expandPattern_append_right {p : Bytes} (h : asterisk ∉ p) (t member : Bytes) :
    expandPattern (p ++ t) member = p ++ expandPattern t member := by
  have hp : p.findIdx? (· = asterisk) = none := by
    rw [List.findIdx?_eq_none_iff]
    intro x hx
    rw [decide_eq_false_iff_not]
    intro heq
    rw [heq] at hx
    exact h hx
  rw [expandPattern, expandPattern, List.findIdx?_append, hp]
  cases ht : t.findIdx? (· = asterisk) with
  | none => rfl
  | some k =>
    have hdrop : (p ++ t).drop (k + p.length + 1) = t.drop (k + 1) := by
      rw [show k + p.length + 1 = p.length + (k + 1) by omega, ← List.drop_drop, List.drop_left]
    have htake : (p ++ t).take (k + p.length) = p ++ t.take k := by
      rw [Nat.add_comm, List.take_length_add_append]
    simp only [Option.none_or, Option.map_some, htake, hdrop, List.append_assoc]

theorem arrow_split (h : arrowPosition pattern = some n) :
    pattern = pattern.take n ++ ([0x2D, 0x3E] ++ pattern.drop (n + 2)) := by
  induction pattern generalizing n with
  | nil => cases h
  | cons x pattern ih =>
    cases pattern with
    | nil => cases h
    | cons y pattern =>
      rw [arrowPosition] at h
      split_ifs at h with hxy
      · cases h
        rw [hxy.1, hxy.2]
        rfl
      · obtain ⟨k, hk, rfl⟩ := Option.map_eq_some_iff.mp h
        rw [List.take_succ_cons, List.cons_append, show k + 1 + 2 = k + 2 + 1 by omega,
          List.drop_succ_cons, ← ih hk]

theorem text_opaqueTarget (hne : pattern ≠ elementPattern) (member : Bytes) :
    (opaqueTarget pattern member).text = expandPattern pattern member := by
  rw [opaqueTarget, if_neg hne]
  cases harrow : arrowPosition pattern with
  | none => rfl
  | some n =>
    have hnot : asterisk ∉ ([0x2D, 0x3E] : Bytes) := by decide
    simp only
    conv_rhs => rw [arrow_split harrow]
    split_ifs with hstar
    · rw [expandPattern_append_left hstar]
      rfl
    · rw [expandPattern_append_right hstar, expandPattern_append_right hnot]
      rfl

/-- A lookup goes where the pattern says unless the key with the element has an arrow. -/
theorem sortTarget_eq_opaqueTarget_iff (pattern member : Bytes) :
    sortTarget pattern member = opaqueTarget pattern member ↔
      arrowPosition (opaqueTarget pattern member).keyText = none := by
  by_cases hpat : pattern = elementPattern
  · rw [sortTarget, opaqueTarget, if_pos hpat, if_pos hpat]
    exact iff_of_true rfl rfl
  · have helement : opaqueTarget pattern member ≠ .element := by
      rw [opaqueTarget, if_neg hpat]
      cases arrowPosition pattern with
      | none => simp
      | some n =>
        simp only
        split_ifs <;> simp
    rw [← SortTarget.ofText_text_iff helement, text_opaqueTarget hpat, sortTarget, if_neg hpat]
    rfl

end

/-! ## The command -/

def errValueNotFloat : String := "ERR value is not a valid float"

def errSortWeight : String := "One or more scores can't be converted into double"

structure SortArgs where
  byPat : Option Bytes
  offset : UInt64
  count : Option UInt64
  get : List Bytes
  desc : Bool
  alpha : Bool
  store : Option Key
  dontSort : Bool

structure SortItem where
  member : Bytes
  numVal : F64
  strVal : Option Bytes
  deriving DecidableEq, Repr

abbrev SortRows := List (Option Bytes)

def SortArgs.patterns (args : SortArgs) : List Bytes := args.byPat.toList ++ args.get

/-- A byte vector as a key; a vector has fewer than `2 ^ 63` bytes, so nothing is cut. -/
def Key.ofVec (bytes : Bytes) : Key :=
  ⟨bytes.take (2 ^ 63 - 1), lt_of_le_of_lt (List.length_take_le _ _) (by decide)⟩

section

variable (parseF64 : String → Option F64)

def parseRedisFloat (v : Bytes) : Except Error F64 :=
  if v.isEmpty || v.head?.any isAsciiWhitespace || v.getLast?.any isAsciiWhitespace then
    .error (.invalidData errValueNotFloat)
  else
    match (fromUtf8 v).bind parseF64 with
    | some val =>
      if 0x7FF0000000000000 ≤ val.magnitude then .error (.invalidData errValueNotFloat)
      else .ok val
    | none => .error (.invalidData errValueNotFloat)

variable (s : Store) (kc : KeyComposer) (key : Key) (nowMs : UInt64) (args : SortArgs)
  (target : Bytes → Bytes → SortTarget)

def dbGet (key : Key) : Except Error (Option Bytes) :=
  (getStringRaw s kc key nowMs).map fun found => found.map fun x => x.1.drop x.2.2

def sortElements : Except Error (Option (List Bytes)) :=
  match keyTypeImpl s kc key nowMs with
  | "none" => .ok none
  | "list" => (lrange s kc key nowMs 0 (-1)).map some
  | "set" => (smembers s kc key nowMs).map some
  | "zset" => (zrangebyrank s kc key nowMs 0 (-1) false).map fun rows => some (rows.map Prod.fst)
  | _ => .error Error.wrongTypeDefault

def readTarget (member : Bytes) : SortTarget → Except Error (Option Bytes)
  | .element => .ok (some member)
  | .string key => dbGet s kc nowMs (.ofVec key)
  | .field key name => hget s kc (.ofVec key) nowMs name

def lookupSortPattern (pattern member : Bytes) : Except Error (Option Bytes) :=
  readTarget s kc nowMs member (target pattern member)

def sortVal (member : Bytes) : Except Error (Option Bytes) :=
  match args.byPat with
  | some pattern => lookupSortPattern s kc nowMs target pattern member
  | none => .ok (some member)

def sortWeight (val : Option Bytes) : Except Error (F64 × Option Bytes) :=
  if args.alpha then .ok (.zero, val)
  else
    match val with
    | some v =>
      if v.isEmpty then .ok (.zero, none)
      else
        match parseRedisFloat parseF64 v with
        | .ok num => .ok (num, none)
        | .error _ => .error (.redis errSortWeight)
    | none => .ok (.zero, none)

def sortItem (member : Bytes) : Except Error SortItem := do
  let val ← sortVal s kc nowMs args target member
  let (numVal, strVal) ← sortWeight parseF64 args val
  return ⟨member, numVal, strVal⟩

def sortCmp (a b : SortItem) : Ordering :=
  let cmp :=
    if args.alpha then linearCmp (a.strVal.getD []) (b.strVal.getD [])
    else linearCmp a.numVal.totalOrder b.numVal.totalOrder
  if args.desc then cmp.swap else cmp

def sortItems (items : List SortItem) : List SortItem :=
  if args.dontSort then items
  else items.insertionSort fun a b => (sortCmp args a b).isLE = true

/-- The sum of the limits wraps; `none` is a slice whose start is behind its end, which panics. -/
def sortPage (items : List SortItem) : Option (List SortItem) :=
  let totalLen := items.length
  let start := min args.offset.toNat totalLen
  let stop :=
    match args.count with
    | some cnt => min ((start + cnt.toNat) % 2 ^ 64) totalLen
    | none => totalLen
  if start ≤ stop then some ((items.take stop).drop start) else none

def sortRows (paginated : List SortItem) : Except Error SortRows :=
  if args.get.isEmpty then .ok (paginated.map fun item => some item.member)
  else
    (paginated.mapM fun item => args.get.mapM fun pattern =>
      lookupSortPattern s kc nowMs target pattern item.member).map List.flatten

end

def pushItems (result : SortRows) : List Bytes := result.map fun opt => opt.getD []

def sortStore (e : Engine) (kc : KeyComposer) (nowMs version : UInt64) (storeKey : Key)
    (result : SortRows) : Except Error SortRows × Engine :=
  match delImpl e kc nowMs [storeKey] with
  | .error err => (.error err, e)
  | .ok (_, cleared) =>
    if result.isEmpty then (.ok result, cleared)
    else
      match rpush cleared.store kc storeKey nowMs version (pushItems result) with
      | .error err => (.error err, cleared)
      | .ok (_, ops) =>
        match cleared.commit ops with
        | .error err => (.error err, cleared)
        | .ok pushed => (.ok result, pushed)

/-- The reply and the engine after the call, which reads one clock value; `none` is a panic. -/
def sortImpl (parseF64 : String → Option F64) (e : Engine) (kc : KeyComposer) (key : Key)
    (nowMs version : UInt64) (args : SortArgs) : Option (Except Error SortRows × Engine) :=
  match sortElements e.store kc key nowMs with
  | .error err => some (.error err, e)
  | .ok none => some (.ok [], e)
  | .ok (some rawElements) =>
    match rawElements.mapM (sortItem parseF64 e.store kc nowMs args sortTarget) with
    | .error err => some (.error err, e)
    | .ok items =>
      (sortPage args (sortItems args items)).map fun paginated =>
        match sortRows e.store kc nowMs args sortTarget paginated with
        | .error err => (.error err, e)
        | .ok result =>
          match args.store with
          | none => (.ok result, e)
          | some storeKey => sortStore e kc nowMs version storeKey result

/-! ## What the command is for -/

def cutPage {α : Type} (args : SortArgs) (items : List α) : List α :=
  match args.count with
  | some cnt => (items.drop args.offset.toNat).take cnt.toNat
  | none => items.drop args.offset.toNat

section

variable (parseF64 : String → Option F64) (s : Store) (kc : KeyComposer) (nowMs : UInt64)
  (args : SortArgs)

/-- The rows are a page of a stable sort of the elements by weight, projected through lookups
that see an element as opaque bytes. -/
def SortAnswers (elements : List Bytes) (rows : SortRows) : Prop :=
  ∃ items sorted, elements.mapM (sortItem parseF64 s kc nowMs args opaqueTarget) = .ok items ∧
    (args.dontSort = true → sorted = items) ∧
    (args.dontSort = false →
      StableSort (fun a b => (sortCmp args a b).isLE = true) items sorted) ∧
    sortRows s kc nowMs args opaqueTarget (cutPage args sorted) = .ok rows

end

section

variable (parseF64 : String → Option F64) (e : Engine) (kc : KeyComposer) (key : Key)
  (nowMs version : UInt64) (args : SortArgs) (elements : List Bytes)

/-- The call returns an error and leaves the store, or the rows, which a destination then holds. -/
structure SortExact : Prop where
  patterns : ∀ x ∈ elements, ∀ p ∈ args.patterns, sortTarget p x = opaqueTarget p x
  reply : ∃ reply e', sortImpl parseF64 e kc key nowMs version args = some (reply, e') ∧
    (∀ err, reply = .error err → e'.store = e.store) ∧
    ∀ rows, reply = .ok rows → SortAnswers parseF64 e.store kc nowMs args elements rows ∧
      (args.store = none → e' = e) ∧
      ∀ dst, args.store = some dst → ListReads e'.store kc dst nowMs (pushItems rows)

/-- No element makes an arrow in the key of a lookup, the limits add up in a word, and what is
live under the destination stands in front. -/
structure SortUndisturbed : Prop where
  patterns : ∀ x ∈ elements, ∀ p ∈ args.patterns,
    arrowPosition (opaqueTarget p x).keyText = none
  limits : ∀ items cnt,
    elements.mapM (sortItem parseF64 e.store kc nowMs args opaqueTarget) = .ok items →
    args.count = some cnt → min args.offset.toNat elements.length + cnt.toNat < 2 ^ 64
  front : ∀ rows dst, SortAnswers parseF64 e.store kc nowMs args elements rows →
    args.store = some dst → LiveInFront e.store kc nowMs dst

/-- The rows are a vector, and the engine has room for them as a list in the place of the
destination. -/
structure SortRoom : Prop where
  length_lt : ∀ rows, SortAnswers parseF64 e.store kc nowMs args elements rows →
    rows.length < 2 ^ 63
  fits : ∀ rows dst n ops, SortAnswers parseF64 e.store kc nowMs args elements rows →
    args.store = some dst →
    rpush (e.store.apply (delOne e.store kc dst nowMs).2) kc dst nowMs version (pushItems rows) =
      .ok (n, ops) → ((e.store.apply (delOne e.store kc dst nowMs).2).apply ops).Fits

end

/-! ## Weights, pages and rows -/

section

variable {parseF64 : String → Option F64} {s : Store} {kc : KeyComposer} {nowMs : UInt64}
  {args : SortArgs} {target target' : Bytes → Bytes → SortTarget} {elements : List Bytes}
  {items : List SortItem} {x : Bytes}

theorem sortItem_member {item : SortItem}
    (h : sortItem parseF64 s kc nowMs args target x = .ok item) : item.member = x := by
  rw [sortItem] at h
  obtain ⟨val, -, h⟩ := bind_eq_ok h
  obtain ⟨weight, -, h⟩ := bind_eq_ok h
  cases h
  rfl

theorem members_of_mapM (h : elements.mapM (sortItem parseF64 s kc nowMs args target) = .ok items) :
    items.map SortItem.member = elements := by
  induction elements generalizing items with
  | nil =>
    cases h
    rfl
  | cons x xs ih =>
    rw [List.mapM_cons] at h
    obtain ⟨item, hitem, h⟩ := bind_eq_ok h
    obtain ⟨rest, hrest, h⟩ := bind_eq_ok h
    cases h
    rw [List.map_cons, sortItem_member hitem, ih hrest]

theorem mapM_congr {α β : Type} {f g : α → Except Error β} {l : List α}
    (h : ∀ a ∈ l, f a = g a) : l.mapM f = l.mapM g := by
  induction l with
  | nil => rfl
  | cons a l ih =>
    rw [List.mapM_cons, List.mapM_cons, h a List.mem_cons_self,
      ih fun b hb => h b (List.mem_cons_of_mem _ hb)]

theorem sortItem_congr (h : ∀ p ∈ args.patterns, target p x = target' p x) :
    sortItem parseF64 s kc nowMs args target x = sortItem parseF64 s kc nowMs args target' x := by
  have hvalue : sortVal s kc nowMs args target x = sortVal s kc nowMs args target' x := by
    rw [sortVal, sortVal]
    cases hby : args.byPat with
    | none => rfl
    | some p =>
      have hp : p ∈ args.patterns := by simp [SortArgs.patterns, hby]
      simp only [lookupSortPattern, h p hp]
  rw [sortItem, sortItem, hvalue]

theorem sortRows_congr
    (h : ∀ item ∈ items, ∀ p ∈ args.patterns, target p item.member = target' p item.member) :
    sortRows s kc nowMs args target items = sortRows s kc nowMs args target' items := by
  rw [sortRows, sortRows]
  split_ifs
  · rfl
  · refine congrArg (Except.map List.flatten) (mapM_congr fun item hitem => ?_)
    refine mapM_congr fun p hp => ?_
    rw [lookupSortPattern, lookupSortPattern, h item hitem p (List.mem_append_right _ hp)]

theorem isLE_sortCmp (a b : SortItem) : (sortCmp args a b).isLE = true ↔
    if args.alpha then
      if args.desc then b.strVal.getD [] ≤ a.strVal.getD [] else a.strVal.getD [] ≤ b.strVal.getD []
    else if args.desc then b.numVal.totalOrder ≤ a.numVal.totalOrder
    else a.numVal.totalOrder ≤ b.numVal.totalOrder := by
  rw [sortCmp]
  cases args.alpha
  · exact isLE_directed (fun i : SortItem => i.numVal.totalOrder) args.desc a b
  · exact isLE_directed (fun i : SortItem => i.strVal.getD []) args.desc a b

theorem sortCmp_total (args : SortArgs) (a b : SortItem) :
    (sortCmp args a b).isLE = true ∨ (sortCmp args b a).isLE = true := by
  rw [isLE_sortCmp, isLE_sortCmp]
  cases args.alpha <;> cases args.desc <;> exact le_total _ _

theorem sortCmp_trans (args : SortArgs) (a b c : SortItem) (hab : (sortCmp args a b).isLE = true)
    (hbc : (sortCmp args b c).isLE = true) : (sortCmp args a c).isLE = true := by
  rw [isLE_sortCmp] at hab hbc ⊢
  revert hab hbc
  cases args.alpha <;> cases args.desc
  · exact fun hab hbc => le_trans hab hbc
  · exact fun hab hbc => le_trans hbc hab
  · exact fun hab hbc => le_trans hab hbc
  · exact fun hab hbc => le_trans hbc hab

theorem sortItems_stable (h : args.dontSort = false) (items : List SortItem) :
    StableSort (fun a b => (sortCmp args a b).isLE = true) items (sortItems args items) := by
  rw [sortItems, h, if_neg Bool.false_ne_true]
  exact stableSort_insertionSort (sortCmp_total args) (sortCmp_trans args) items

theorem perm_sortItems (args : SortArgs) (items : List SortItem) :
    (sortItems args items).Perm items := by
  cases h : args.dontSort with
  | true => rw [sortItems, h, if_pos rfl]
  | false => exact (sortItems_stable h items).perm

theorem mem_of_mem_cutPage {item : SortItem} (h : item ∈ cutPage args items) : item ∈ items := by
  rw [cutPage] at h
  cases hc : args.count with
  | none =>
    rw [hc] at h
    exact List.mem_of_mem_drop h
  | some cnt =>
    rw [hc] at h
    exact List.mem_of_mem_drop (List.mem_of_mem_take h)

theorem sortPage_of_fits (h : ∀ cnt, args.count = some cnt →
    min args.offset.toNat items.length + cnt.toNat < 2 ^ 64) :
    sortPage args items = some (cutPage args items) := by
  rw [sortPage, cutPage]
  cases hc : args.count with
  | none =>
    simp only [min_le_right, if_true, List.take_length]
    rcases Nat.le_total args.offset.toNat items.length with hle | hle
    · rw [min_eq_left hle]
    · rw [min_eq_right hle, List.drop_length, List.drop_eq_nil_of_le hle]
  | some cnt =>
    simp only [Nat.mod_eq_of_lt (h cnt hc)]
    rw [if_pos (by omega)]
    rcases Nat.le_total args.offset.toNat items.length with hle | hle
    · rw [min_eq_left hle, List.drop_take]
      refine congrArg some ?_
      rcases Nat.le_total (args.offset.toNat + cnt.toNat) items.length with hend | hend
      · rw [min_eq_left hend, Nat.add_sub_cancel_left]
      · rw [min_eq_right hend, List.take_of_length_le (by simp),
          List.take_of_length_le (by simp; omega)]
    · rw [min_eq_right hle, List.drop_take, List.drop_length, List.drop_eq_nil_of_le hle]
      simp

theorem sortPage_of_overflow {cnt : UInt64} (hc : args.count = some cnt)
    (h : 2 ^ 64 ≤ min args.offset.toNat items.length + cnt.toNat) : sortPage args items = none := by
  have hcnt := cnt.toNat_lt
  have hoff := args.offset.toNat_lt
  rw [sortPage, hc]
  simp only
  rw [if_neg]
  omega

end

/-! ## The destination -/

section

variable {s : Store} {e e' : Engine} {kc : KeyComposer} {key dst : Key} {nowMs version : UInt64}
  {reply : Except Error SortRows} {rows : SortRows}

theorem existsOne_delOne_iff (s : Store) (kc : KeyComposer) (nowMs : UInt64) (dst : Key) :
    existsOne (s.apply (delOne s kc dst nowMs).2) kc dst nowMs = false ↔
      LiveInFront s kc nowMs dst := by
  have h := @delAll_gone_iff s kc nowMs [dst] dst (List.mem_singleton_self dst)
  rwa [List.flatMap_cons, List.flatMap_nil, List.append_nil] at h

theorem at_delOne (slot : Slot) (hslot : slot.Valid) :
    (s.apply (delOne s kc dst nowMs).2).at ⟨kc, dst, slot⟩ = none ∨
      (s.apply (delOne s kc dst nowMs).2).at ⟨kc, dst, slot⟩ = s.at ⟨kc, dst, slot⟩ := by
  classical
  have h := at_apply_delOne (t := s) kc dst nowMs (b := ⟨kc, dst, slot⟩) hslot id
  rw [h]
  split_ifs
  · exact Or.inl rfl
  · exact Or.inr rfl

theorem ListMetaEncoded.delOne (h : ListMetaEncoded s kc dst) :
    ListMetaEncoded (s.apply (delOne s kc dst nowMs).2) kc dst := by
  intro v hv
  rcases @at_delOne s kc dst nowMs (.metadata .listMeta) rfl with hnone | hsame
  · rw [hnone] at hv
    cases hv
  · rw [hsame] at hv
    exact h v hv

theorem liveInFront_of_unchanged (h : s.apply (delOne s kc dst nowMs).2 = s) :
    LiveInFront s kc nowMs dst := by
  classical
  have hclear : ∀ slot : Slot, slot.Valid → DelClears s kc nowMs dst slot →
      s.at ⟨kc, dst, slot⟩ = none := by
    intro slot hslot hdel
    have hat := at_apply_delOne (t := s) kc dst nowMs (b := ⟨kc, dst, slot⟩) hslot id
    rw [if_pos ⟨rfl, rfl, hdel⟩, h] at hat
    exact hat
  have hstr : liveString s kc dst nowMs = none :=
    liveString_of_at_none (hclear .str trivial (Or.inl rfl))
  intro tag htag hlive
  cases hf : firstMeta s kc dst with
  | some u =>
    have hgone := hclear (.metadata u) (allCompositeMetaTags_isMeta (firstMeta_mem hf))
      (Or.inr ⟨hstr, u, hf, Or.inl rfl⟩)
    have hfound := List.find?_some hf
    obtain ⟨v, hv⟩ := SortedMap.contains_eq_true.mp hfound
    have hat : s.at ⟨kc, dst, .metadata u⟩ = some v := hv
    rw [hgone] at hat
    cases hat
  | none =>
    have hnone := List.find?_eq_none.mp hf tag htag
    rw [Bool.not_eq_true, SortedMap.contains_eq_false] at hnone
    have hat : s.at ⟨kc, dst, .metadata tag⟩ = none := hnone
    rw [liveMeta_of_at_none hat] at hlive
    cases hlive

theorem delImpl_one (e : Engine) (kc : KeyComposer) (nowMs : UInt64) (dst : Key) :
    ∃ n cleared, delImpl e kc nowMs [dst] = .ok (n, cleared) ∧
      cleared.store = e.store.apply (delOne e.store kc dst nowMs).2 := by
  obtain ⟨e', he', hs⟩ := e.commit_of_forall_rm
    (b := [dst].flatMap fun k => (delOne e.store kc k nowMs).2) fun o ho => delAll_value ho
  refine ⟨_, e', by simp only [delImpl, he', bind, Except.bind]; rfl, ?_⟩
  rw [hs, List.flatMap_cons, List.flatMap_nil, List.append_nil]

theorem pushItems_eq_nil : pushItems rows = [] ↔ rows = [] := by
  rw [pushItems, List.map_eq_nil_iff]

/-- A destination whose live value stands in front holds the rows afterwards. -/
theorem sortStore_exact (henc : ListMetaEncoded e.store kc dst)
    (hfront : LiveInFront e.store kc nowMs dst)
    (hlen : rows.length < 2 ^ 63)
    (hroom : ∀ n ops, rpush (e.store.apply (delOne e.store kc dst nowMs).2) kc dst nowMs version
      (pushItems rows) = .ok (n, ops) →
        ((e.store.apply (delOne e.store kc dst nowMs).2).apply ops).Fits) :
    ∃ e', sortStore e kc nowMs version dst rows = (.ok rows, e') ∧
      ListReads e'.store kc dst nowMs (pushItems rows) := by
  obtain ⟨n, cleared, hdel, hcleared⟩ := delImpl_one e kc nowMs dst
  have hgone : existsOne cleared.store kc dst nowMs = false := by
    rw [hcleared]
    exact (existsOne_delOne_iff _ _ _ _).mpr hfront
  rw [sortStore, hdel]
  simp only
  by_cases hnil : rows = []
  · rw [hnil]
    exact ⟨cleared, rfl, fun _ => hgone, fun h => absurd rfl h⟩
  · have hencoded : ListMetaEncoded cleared.store kc dst := by
      rw [hcleared]
      exact henc.delOne
    have hvalues : pushItems rows ≠ [] := fun h => hnil (pushItems_eq_nil.mp h)
    have hcount : (pushItems rows).length < 2 ^ 63 := by
      rw [pushItems, List.length_map]
      exact hlen
    obtain ⟨m, ops, hpush, -, hreads⟩ := @rpush_fresh _ kc dst nowMs version _
      (checkKeyNotOtherType_of_absent .listMeta hgone) (getListMeta_of_absent hencoded hgone)
      hvalues hcount
    have hfits : (cleared.store.apply ops).Fits := by
      rw [hcleared] at hpush ⊢
      exact hroom m ops hpush
    have hempty : rows.isEmpty = false := by
      rw [List.isEmpty_eq_false_iff]
      exact hnil
    rw [if_neg (by rw [hempty]; exact Bool.false_ne_true), hpush]
    simp only
    rw [Engine.commit_of_fits hfits]
    exact ⟨_, rfl, hreads⟩

theorem liveInFront_of_sortStore (henc : ListMetaEncoded e.store kc dst)
    (h : sortStore e kc nowMs version dst rows = (reply, e'))
    (herr : ∀ err, reply = .error err → e'.store = e.store)
    (hok : ∀ rows', reply = .ok rows' → ListReads e'.store kc dst nowMs (pushItems rows')) :
    LiveInFront e.store kc nowMs dst := by
  obtain ⟨n, cleared, hdel, hcleared⟩ := delImpl_one e kc nowMs dst
  have hunchanged : cleared.store = e.store → LiveInFront e.store kc nowMs dst := by
    intro heq
    rw [hcleared] at heq
    exact liveInFront_of_unchanged heq
  have hgone : existsOne cleared.store kc dst nowMs = false → LiveInFront e.store kc nowMs dst := by
    rw [hcleared]
    exact (existsOne_delOne_iff _ _ _ _).mp
  rw [sortStore, hdel] at h
  simp only at h
  by_cases hnil : rows = []
  · rw [hnil] at h
    cases h
    exact hgone ((hok [] rfl).absent rfl)
  · have hempty : rows.isEmpty = false := by
      rw [List.isEmpty_eq_false_iff]
      exact hnil
    have hvalues : pushItems rows ≠ [] := fun h => hnil (pushItems_eq_nil.mp h)
    have hencoded : ListMetaEncoded cleared.store kc dst := by
      rw [hcleared]
      exact henc.delOne
    rw [if_neg (by rw [hempty]; exact Bool.false_ne_true)] at h
    cases hpush : rpush cleared.store kc dst nowMs version (pushItems rows) with
    | error err =>
      rw [hpush] at h
      cases h
      exact hunchanged (herr err rfl)
    | ok pushed =>
      obtain ⟨m, ops⟩ := pushed
      rw [hpush] at h
      simp only at h
      cases hcommit : cleared.commit ops with
      | error err =>
        rw [hcommit] at h
        cases h
        exact hunchanged (herr err rfl)
      | ok stored =>
        rw [hcommit] at h
        cases h
        have hreads := hok rows rfl
        rw [Engine.commit_eq_ok hcommit] at hreads
        have hcheck := (hreads.present hvalues).1
        rw [checkKeyNotOtherType_apply_of_owned (rpush_owned hvalues hpush)] at hcheck
        refine hgone ?_
        cases hget : getListMeta cleared.store kc dst nowMs with
        | error err =>
          rw [getListMeta, getMetaChecked_of_check (M := ListMeta) hcheck] at hget
          cases hget
        | ok found =>
          cases found with
          | none => exact existsOne_of_getListMeta_none hencoded hcheck hget
          | some m' => exact absurd hreads (ListReads.not_onto hencoded hget hvalues hpush)

end

/-! ## When the command is exact -/

section

variable {parseF64 : String → Option F64} {e : Engine} {kc : KeyComposer} {key : Key}
  {nowMs version : UInt64} {args : SortArgs} {elements : List Bytes} {items : List SortItem}

theorem mapM_sortTarget
    (h : ∀ x ∈ elements, ∀ p ∈ args.patterns, sortTarget p x = opaqueTarget p x) :
    elements.mapM (sortItem parseF64 e.store kc nowMs args sortTarget) =
      elements.mapM (sortItem parseF64 e.store kc nowMs args opaqueTarget) :=
  mapM_congr fun x hx => sortItem_congr (h x hx)

theorem sortRows_page
    (h : ∀ x ∈ elements, ∀ p ∈ args.patterns, sortTarget p x = opaqueTarget p x)
    (hitems : elements.mapM (sortItem parseF64 e.store kc nowMs args opaqueTarget) = .ok items) :
    sortRows e.store kc nowMs args sortTarget (cutPage args (sortItems args items)) =
      sortRows e.store kc nowMs args opaqueTarget (cutPage args (sortItems args items)) := by
  refine sortRows_congr fun item hitem => h item.member ?_
  have hmem := (perm_sortItems args items).mem_iff.mp (mem_of_mem_cutPage hitem)
  rw [← members_of_mapM hitems]
  exact List.mem_map_of_mem hmem

theorem sortAnswers_page {rows : SortRows}
    (hitems : elements.mapM (sortItem parseF64 e.store kc nowMs args opaqueTarget) = .ok items)
    (hrows : sortRows e.store kc nowMs args opaqueTarget (cutPage args (sortItems args items)) =
      .ok rows) : SortAnswers parseF64 e.store kc nowMs args elements rows := by
  refine ⟨items, sortItems args items, hitems, fun h => ?_, fun h => ?_, hrows⟩
  · rw [sortItems, if_pos h]
  · exact sortItems_stable h items

theorem SortUndisturbed.exact (hread : sortElements e.store kc key nowMs = .ok (some elements))
    (henc : ∀ dst, args.store = some dst → ListMetaEncoded e.store kc dst)
    (hroom : SortRoom parseF64 e kc nowMs version args elements)
    (h : SortUndisturbed parseF64 e kc nowMs args elements) :
    SortExact parseF64 e kc key nowMs version args elements := by
  have hpatterns : ∀ x ∈ elements, ∀ p ∈ args.patterns, sortTarget p x = opaqueTarget p x :=
    fun x hx p hp => (sortTarget_eq_opaqueTarget_iff p x).mpr (h.patterns x hx p hp)
  refine ⟨hpatterns, ?_⟩
  rw [sortImpl, hread]
  simp only
  rw [mapM_sortTarget hpatterns]
  cases hitems : elements.mapM (sortItem parseF64 e.store kc nowMs args opaqueTarget) with
  | error err => exact ⟨.error err, e, rfl, fun _ _ => rfl, fun rows hrows => (by cases hrows)⟩
  | ok items =>
    have hlength : (sortItems args items).length = elements.length := by
      rw [(perm_sortItems args items).length_eq, ← members_of_mapM hitems, List.length_map]
    have hpage := @sortPage_of_fits args (sortItems args items) fun cnt hcnt => by
      rw [hlength]
      exact h.limits items cnt hitems hcnt
    simp only
    rw [hpage, Option.map_some, sortRows_page hpatterns hitems]
    cases hrows : sortRows e.store kc nowMs args opaqueTarget
      (cutPage args (sortItems args items)) with
    | error err => exact ⟨.error err, e, rfl, fun _ _ => rfl, fun rows hr => (by cases hr)⟩
    | ok rows =>
      have hanswers := sortAnswers_page hitems hrows
      cases hstore : args.store with
      | none =>
        refine ⟨.ok rows, e, rfl, fun err herr => (by cases herr), fun rows' hr => ?_⟩
        cases hr
        exact ⟨hanswers, fun _ => rfl, fun dst hdst => (by cases hdst)⟩
      | some dst =>
        obtain ⟨e', hrun, hreads⟩ := sortStore_exact (henc dst hstore)
          (h.front rows dst hanswers hstore) (hroom.length_lt rows hanswers)
          fun n ops => hroom.fits rows dst n ops hanswers hstore
        refine ⟨.ok rows, e', congrArg some hrun, fun err herr => (by cases herr),
          fun rows' hr => ?_⟩
        cases hr
        refine ⟨hanswers, fun hnone => (by cases hnone), fun dst' hdst => ?_⟩
        cases hdst
        exact hreads

theorem SortExact.undisturbed (hread : sortElements e.store kc key nowMs = .ok (some elements))
    (henc : ∀ dst, args.store = some dst → ListMetaEncoded e.store kc dst)
    (h : SortExact parseF64 e kc key nowMs version args elements) :
    SortUndisturbed parseF64 e kc nowMs args elements := by
  obtain ⟨hpatterns, reply, e', hrun, herr, hok⟩ := h
  have hsealed : ∀ x ∈ elements, ∀ p ∈ args.patterns,
      arrowPosition (opaqueTarget p x).keyText = none :=
    fun x hx p hp => (sortTarget_eq_opaqueTarget_iff p x).mp (hpatterns x hx p hp)
  rw [sortImpl, hread] at hrun
  simp only at hrun
  rw [mapM_sortTarget hpatterns] at hrun
  have hlimits : ∀ items cnt,
      elements.mapM (sortItem parseF64 e.store kc nowMs args opaqueTarget) = .ok items →
      args.count = some cnt → min args.offset.toNat elements.length + cnt.toNat < 2 ^ 64 := by
    intro items cnt hitems hcnt
    by_contra hover
    have hlength : (sortItems args items).length = elements.length := by
      rw [(perm_sortItems args items).length_eq, ← members_of_mapM hitems, List.length_map]
    rw [hitems] at hrun
    simp only at hrun
    rw [sortPage_of_overflow hcnt (by rw [hlength]; omega)] at hrun
    cases hrun
  refine ⟨hsealed, hlimits, fun rows dst hanswers hstore => ?_⟩
  obtain ⟨items, sorted, hitems, hkept, hsorted, hrows⟩ := hanswers
  have hsame : sorted = sortItems args items := by
    cases hdont : args.dontSort with
    | true => rw [hkept hdont, sortItems, if_pos hdont]
    | false =>
      exact (hsorted hdont).unique (fun a => or_self_iff.mp (sortCmp_total args a a))
        (sortCmp_trans args) (sortItems_stable hdont items)
  have hlength : (sortItems args items).length = elements.length := by
    rw [(perm_sortItems args items).length_eq, ← members_of_mapM hitems, List.length_map]
  rw [hsame] at hrows
  rw [hitems] at hrun
  simp only at hrun
  rw [sortPage_of_fits fun cnt hcnt => by rw [hlength]; exact hlimits items cnt hitems hcnt,
    Option.map_some, sortRows_page hpatterns hitems, hrows, hstore] at hrun
  exact liveInFront_of_sortStore (henc dst hstore) (Option.some.inj hrun) herr
    fun rows' hr => (hok rows' hr).2.2 dst hstore

/-- The command is exact just when no element makes an arrow in a key, the limits add up in a
word, and the destination can be cleared. -/
theorem sortImpl_exact_iff (hread : sortElements e.store kc key nowMs = .ok (some elements))
    (henc : ∀ dst, args.store = some dst → ListMetaEncoded e.store kc dst)
    (hroom : SortRoom parseF64 e kc nowMs version args elements) :
    SortExact parseF64 e kc key nowMs version args elements ↔
      SortUndisturbed parseF64 e kc nowMs args elements :=
  ⟨fun h => h.undisturbed hread henc, fun h => h.exact hread henc hroom⟩

end

def arrowList : Except Error Engine := do
  let (_, ops) ← rpush ∅ ⟨0, 0⟩ sampleKey 1 1 [[0x61, 0x2D, 0x3E, 0x62], [0x63]]
  Engine.empty.commit ops

def limitArgs (offset count : UInt64) (get : List Bytes) : SortArgs :=
  ⟨none, offset, some count, get, false, true, none, false⟩

theorem arrowList_elements : ∃ e, arrowList = .ok e ∧
    sortElements e.store ⟨0, 0⟩ sampleKey 2 = .ok (some [[0x61, 0x2D, 0x3E, 0x62], [0x63]]) := by
  have hrun : (arrowList.bind fun e => sortElements e.store ⟨0, 0⟩ sampleKey 2).toOption =
      some (some [[0x61, 0x2D, 0x3E, 0x62], [0x63]]) := by decide +kernel
  obtain ⟨e, he, hread⟩ := exists_ok_of_toOption_bind hrun
  refine ⟨e, he, ?_⟩
  cases hr : sortElements e.store ⟨0, 0⟩ sampleKey 2 with
  | error err =>
    rw [hr] at hread
    cases hread
  | ok found =>
    rw [hr] at hread
    exact congrArg Except.ok (Option.some.inj hread)

/-- A page of one element is exact. -/
theorem sortImpl_exact_arrowList : ∃ e, arrowList = .ok e ∧
    SortExact (fun _ => none) e ⟨0, 0⟩ sampleKey 2 3 (limitArgs 1 1 [])
      [[0x61, 0x2D, 0x3E, 0x62], [0x63]] := by
  obtain ⟨e, he, hread⟩ := arrowList_elements
  refine ⟨e, he, (sortImpl_exact_iff hread (fun dst hdst => by cases hdst) ⟨?_, ?_⟩).mpr ?_⟩
  · intro rows hanswers
    obtain ⟨items, sorted, hitems, -, hsorted, hrows⟩ := hanswers
    have hlength := congrArg List.length (members_of_mapM hitems)
    have hperm := (hsorted rfl).perm.length_eq
    simp only [sortRows, limitArgs, List.isEmpty_nil, if_true, Except.ok.injEq] at hrows
    rw [← hrows]
    simp only [List.length_map, cutPage, List.length_take, List.length_drop]
    simp only [List.length_map, List.length_cons, List.length_nil] at hlength
    omega
  · intro rows dst n ops _ hdst
    cases hdst
  · refine ⟨?_, ?_, ?_⟩
    · intro x _ p hp
      cases hp
    · intro items cnt _ hcnt
      cases hcnt
      decide
    · intro rows dst _ hdst
      cases hdst

/-- The element `a->b` under the pattern `*` is looked up as a field of `a`, and an offset of 1
with the greatest count panics. -/
theorem sort_splits_and_panics : ∃ e, arrowList = .ok e ∧
    ¬SortExact (fun _ => none) e ⟨0, 0⟩ sampleKey 2 3 (limitArgs 0 2 [[asterisk]])
      [[0x61, 0x2D, 0x3E, 0x62], [0x63]] ∧
    ¬SortExact (fun _ => none) e ⟨0, 0⟩ sampleKey 2 3 (limitArgs 1 0xFFFFFFFFFFFFFFFF [])
      [[0x61, 0x2D, 0x3E, 0x62], [0x63]] := by
  obtain ⟨e, he, hread⟩ := arrowList_elements
  refine ⟨e, he, fun h => ?_, fun h => ?_⟩
  · have hsplit := h.patterns [0x61, 0x2D, 0x3E, 0x62] (by simp) [asterisk]
      (by simp [SortArgs.patterns, limitArgs])
    exact absurd hsplit (by decide)
  · obtain ⟨reply, e', hrun, -⟩ := h.reply
    have hitems : ([[0x61, 0x2D, 0x3E, 0x62], [0x63]] : List Bytes).mapM
        (sortItem (fun _ => none) e.store ⟨0, 0⟩ 2 (limitArgs 1 0xFFFFFFFFFFFFFFFF []) sortTarget) =
        .ok [⟨[0x61, 0x2D, 0x3E, 0x62], .zero, some [0x61, 0x2D, 0x3E, 0x62]⟩,
          ⟨[0x63], .zero, some [0x63]⟩] := rfl
    have hlength := (perm_sortItems (limitArgs 1 0xFFFFFFFFFFFFFFFF [])
      [⟨[0x61, 0x2D, 0x3E, 0x62], .zero, some [0x61, 0x2D, 0x3E, 0x62]⟩,
        ⟨[0x63], .zero, some [0x63]⟩]).length_eq
    rw [sortImpl, hread] at hrun
    simp only at hrun
    rw [hitems] at hrun
    simp only at hrun
    have hcount : (0xFFFFFFFFFFFFFFFF : UInt64).toNat = 2 ^ 64 - 1 := rfl
    have hoffset : (limitArgs 1 0xFFFFFFFFFFFFFFFF []).offset.toNat = 1 := rfl
    rw [@sortPage_of_overflow _ _ 0xFFFFFFFFFFFFFFFF rfl (by
      rw [hlength, hcount, hoffset, List.length_cons]
      omega)] at hrun
    cases hrun

end Wedb
