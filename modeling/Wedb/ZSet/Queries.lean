import Wedb.ZSet.Impl

/-!
# Sorted set queries

Ranks, ranges by rank, by score and by name, and counts. Each query walks one of
the two indexes in one direction and hands the members it meets to a step that
skips, collects or counts.
-/

universe u

namespace Wedb

section
variable (s : Store) (kc : KeyComposer) (key : Key) (nowMs : UInt64)

def zcard : Except Error UInt64 :=
  (getZsetMeta s kc key nowMs).map fun found =>
    match found with
    | some m => m.base.size
    | none => 0

def zscore (member : Bytes) : Except Error (Option F64) :=
  (getZsetMeta s kc key nowMs).map fun found =>
    match found with
    | some _ => (s.data.get (composeZsetKey kc key member)).bind decodeSortableF64Slice
    | none => none

/-! ## Walks -/

def ziterDirected {σ : Type u} (reverse : Bool) (f : σ → Bytes → F64 → σ × Bool) (st : σ) :
    Except Error σ :=
  (getZsetMeta s kc key nowMs).map fun found =>
    match found with
    | some _ =>
      let pre := composeZsetScorePrefix kc key
      foldBreak (scoreVisit pre fun st _ => f st) st (directed reverse (SortedMap.prefixed pre s.data))
    | none => st

def ziter {σ : Type u} (f : σ → Bytes → F64 → σ × Bool) (st : σ) : Except Error σ :=
  ziterDirected s kc key nowMs false f st

def ziterRev {σ : Type u} (f : σ → Bytes → F64 → σ × Bool) (st : σ) : Except Error σ :=
  ziterDirected s kc key nowMs true f st

def ziterRangeByscore {σ : Type u} (spec : RangeScore) (f : σ → Bytes → F64 → σ × Bool) (st : σ) :
    Except Error σ :=
  if spec.isEmpty then .ok st
  else
    (getZsetMeta s kc key nowMs).map fun found =>
      match found with
      | some _ =>
        let pre := composeZsetScorePrefix kc key
        let (start, stop) := scoreRangeBounds pre spec
        foldBreak (scoreVisit pre (byScoreVisit spec fun st _ => f st)) st (s.data.range start stop)
      | none => st

def ziterRangeByscoreRev {σ : Type u} (spec : RangeScore) (f : σ → Bytes → F64 → σ × Bool) (st : σ) :
    Except Error σ :=
  if spec.isEmpty then .ok st
  else
    (getZsetMeta s kc key nowMs).map fun found =>
      match found with
      | some _ =>
        let pre := composeZsetScorePrefix kc key
        let (start, stop) := scoreRangeBounds pre spec
        foldBreak (scoreVisit pre (byScoreVisitRev spec fun st _ => f st)) st
          (s.data.range start stop).reverse
      | none => st

def withScore {σ : Type u} (f : σ → Bytes → F64 → σ × Bool) (st : σ) (_ v member : Bytes) : σ × Bool :=
  f st member ((decodeSortableF64Slice v).getD .zero)

def ziterRangeBylex {σ : Type u} (spec : RangeLex) (f : σ → Bytes → F64 → σ × Bool) (st : σ) :
    Except Error σ :=
  if spec.isEmpty then .ok st
  else
    (getZsetMeta s kc key nowMs).map fun found =>
      match found with
      | some _ =>
        let pre := composeZsetPrefix kc key
        let (start, stop) := lexRangeBounds pre spec
        foldBreak (memberVisit pre (byLexVisit spec (withScore f))) st (s.data.range start stop)
      | none => st

def ziterRangeBylexRev {σ : Type u} (spec : RangeLex) (f : σ → Bytes → F64 → σ × Bool) (st : σ) :
    Except Error σ :=
  if spec.isEmpty then .ok st
  else
    (getZsetMeta s kc key nowMs).map fun found =>
      match found with
      | some _ =>
        let pre := composeZsetPrefix kc key
        let (start, stop) := lexRangeBounds pre spec
        foldBreak (memberVisit pre (byLexVisitRev spec (withScore f))) st
          (s.data.range start stop).reverse
      | none => st

/-! ## Ranges and counts -/

def processItem (start stop count : ℕ) (st : ℕ × List ZSetMemberScore) (member : Bytes) (score : F64) :
    (ℕ × List ZSetMemberScore) × Bool :=
  let items := if st.1 ≥ start then st.2 ++ [(member, score)] else st.2
  if st.1 ≥ start ∧ items.length ≥ count then ((st.1, items), false)
  else ((st.1 + 1, items), decide (st.1 + 1 ≤ stop))

def zrangebyrank (start stop : Int64) (reversed : Bool) : Except Error (List ZSetMemberScore) := do
  let card ← zcard s kc key nowMs
  match zsetNormalizeRange card start stop with
  | none => return []
  | some (first, last) =>
    return (← ziterDirected s kc key nowMs reversed (processItem first last (last - first + 1))
      (0, [])).2

def zrevrange (start stop : Int64) : Except Error (List ZSetMemberScore) :=
  zrangebyrank s kc key nowMs start stop true

def limitItem {α : Type u} (g : Bytes → F64 → α) (offset : ℕ) (count : Option ℕ) (st : ℕ × List α)
    (member : Bytes) (score : F64) : (ℕ × List α) × Bool :=
  if st.1 < offset then ((st.1 + 1, st.2), true)
  else
    let items := st.2 ++ [g member score]
    ((st.1, items), !count.any fun c => decide (items.length ≥ c))

def zrangebyscore (spec : RangeScore) : Except Error (List ZSetMemberScore) :=
  if spec.count = some 0 ∨ spec.isEmpty = true then .ok []
  else
    (ziterRangeByscore s kc key nowMs spec (limitItem Prod.mk spec.offset spec.count) (0, [])).map
      Prod.snd

def zrevrangebyscore (spec : RangeScore) : Except Error (List ZSetMemberScore) :=
  if spec.count = some 0 ∨ spec.isEmpty = true then .ok []
  else
    let spec := if spec.max.lt spec.min then
        { spec with min := spec.max, max := spec.min, minex := spec.maxex, maxex := spec.minex }
      else spec
    (ziterRangeByscoreRev s kc key nowMs spec (limitItem Prod.mk spec.offset spec.count) (0, [])).map
      Prod.snd

def countItem (st : ℕ) (_ : Bytes) (_ : F64) : ℕ × Bool := (st + 1, true)

def zcount (spec : RangeScore) : Except Error ℕ :=
  if spec.isEmpty then .ok 0 else ziterRangeByscore s kc key nowMs spec countItem 0

def zrangebylex (spec : RangeLex) : Except Error (List Bytes) :=
  if spec.count = some 0 ∨ spec.isEmpty = true then .ok []
  else
    (ziterRangeBylex s kc key nowMs spec (limitItem (fun member _ => member) spec.offset spec.count)
      (0, [])).map Prod.snd

def zrevrangebylex (spec : RangeLex) : Except Error (List Bytes) :=
  if spec.count = some 0 ∨ spec.isEmpty = true then .ok []
  else
    (ziterRangeBylexRev s kc key nowMs spec (limitItem (fun member _ => member) spec.offset spec.count)
      (0, [])).map Prod.snd

def zlexcount (spec : RangeLex) : Except Error ℕ :=
  if spec.isEmpty then .ok 0 else ziterRangeBylex s kc key nowMs spec countItem 0

/-! ## Ranks -/

def rankItem (targetScore : F64) (target : Bytes) (st : ℕ × Bool) (m : Bytes) (score : F64) :
    (ℕ × Bool) × Bool :=
  if score.eq targetScore && m == target then ((st.1, true), false)
  else if targetScore.lt score || score.eq targetScore && decide (target < m) then (st, false)
  else ((st.1 + 1, st.2), true)

def revrankItem (targetScore : F64) (target : Bytes) (st : ℕ × Bool) (m : Bytes) (score : F64) :
    (ℕ × Bool) × Bool :=
  if score.eq targetScore && m == target then ((st.1, true), false)
  else if score.lt targetScore || score.eq targetScore && decide (m < target) then (st, false)
  else ((st.1 + 1, st.2), true)

def zrankWithScore (member : Bytes) : Except Error (Option (ℕ × F64)) := do
  match ← zscore s kc key nowMs member with
  | none => return none
  | some targetScore =>
    let (rank, found) ← ziter s kc key nowMs (rankItem targetScore member) (0, false)
    return if found then some (rank, targetScore) else none

def zrank (member : Bytes) : Except Error (Option ℕ) :=
  (zrankWithScore s kc key nowMs member).map fun r => r.map Prod.fst

def zrevrankWithScore (member : Bytes) : Except Error (Option (ℕ × F64)) := do
  match ← zscore s kc key nowMs member with
  | none => return none
  | some targetScore =>
    let (rank, found) ← ziterRev s kc key nowMs (revrankItem targetScore member) (0, false)
    return if found then some (rank, targetScore) else none

def zrevrank (member : Bytes) : Except Error (Option ℕ) :=
  (zrevrankWithScore s kc key nowMs member).map fun r => r.map Prod.fst

end

end Wedb
