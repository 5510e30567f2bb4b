import Wedb.Meta.Sortable
import Wedb.Ordered.Scan
import Wedb.Meta.SimpleMeta
import Wedb.Ordered.Distinct

/-!
# Ranges of scores

A range between two scores, each closed or open, with a window. A score is checked
numerically; the keys of the score index are bounded by encoded scores.
-/

namespace Wedb

structure RangeScore where
  min : F64 := .negInfinity
  max : F64 := .infinity
  minex : Bool := false
  maxex : Bool := false
  offset : ℕ := 0
  count : Option ℕ := none
  deriving DecidableEq, Repr

namespace RangeScore

def isEmpty (spec : RangeScore) : Bool :=
  decide (spec.max.totalOrder < spec.min.totalOrder) ||
    spec.min.bits == spec.max.bits && (spec.minex || spec.maxex)

def minOk (spec : RangeScore) (score : F64) : Bool :=
  if spec.minex then spec.min.lt score else spec.min.le score

def maxOk (spec : RangeScore) (score : F64) : Bool :=
  if spec.maxex then score.lt spec.max else score.le spec.max

def check (spec : RangeScore) (score : F64) : Bool := spec.minOk score && spec.maxOk score

end RangeScore

def scoreRangeBounds (scorePrefix : Bytes) (spec : RangeScore) : Bound Bytes × Bound Bytes :=
  (if spec.min = .negInfinity then .included scorePrefix
    else
      let minVal :=
        if spec.min.eq .zero then (if spec.minex then .zero else .negZero) else spec.min
      let k := scorePrefix ++ encodeSortableF64 minVal
      if spec.minex then prefixUpperBound k else .included k,
  if spec.max = .infinity then prefixUpperBound scorePrefix
    else
      let maxVal :=
        if spec.max.eq .zero then (if spec.maxex then .negZero else .zero) else spec.max
      let k := scorePrefix ++ encodeSortableF64 maxVal
      if spec.maxex then .excluded k else prefixUpperBound k)

/-!
## Ranges of names

A range of byte strings between two bounds, each closed, open or infinite, with a
window and a direction. Sorted sets and hashes share it.
-/

structure RangeLex where
  min : Bytes := []
  max : Bytes := []
  minex : Bool := false
  maxex : Bool := false
  minInfinite : Bool := false
  maxInfinite : Bool := false
  offset : ℕ := 0
  count : Option ℕ := none
  reversed : Bool := false
  deriving DecidableEq, Repr

namespace RangeLex

def isEmpty (spec : RangeLex) : Bool :=
  !spec.minInfinite && !spec.maxInfinite &&
    (decide (spec.max < spec.min) || spec.min == spec.max && (spec.minex || spec.maxex))

def minOk (spec : RangeLex) (member : Bytes) : Bool :=
  if spec.minInfinite then true
  else if spec.minex then decide (spec.min < member)
  else decide (spec.min ≤ member)

def maxOk (spec : RangeLex) (member : Bytes) : Bool :=
  if spec.maxInfinite then true
  else if spec.maxex then decide (member < spec.max)
  else decide (member ≤ spec.max)

def check (spec : RangeLex) (member : Bytes) : Bool := spec.minOk member && spec.maxOk member

end RangeLex

end Wedb

/-!
## Sorted set commands

A member is stored with its encoded score, and again in a score index whose keys
are the encoded score followed by the member. Every change of a score removes the
index key rebuilt from the stored score and queues the new one; removals walk one
of the two indexes and queue both keys of a member.
-/

section

universe u

namespace Wedb

abbrev ZSetMemberScore := Bytes × F64

abbrev ZSetMeta := SimpleMeta .zSet .zSetMeta

inductive ZAdd
  | nx
  | xx
  | gt
  | lt
  | ch
  | incr
  deriving DecidableEq, Repr

def scoreLen : ℕ := 8

def errScoreNotFloat : String := "ERR score is not a valid float"
def errIncrementNotFloat : String := "ERR increment is not a valid float"
def errXxNx : String := "ERR XX and NX options at the same time are not compatible"
def errGtLtNx : String := "ERR GT, LT, and/or NX options at the same time are not compatible"
def errIncrPairs : String := "ERR INCR option supports a single increment-element pair"
def errResultNan : String := "ERR resulting score is not a number (NaN)"

def parseScoreSub (sub : Bytes) : Option (F64 × Bytes) :=
  (decodeSortableF64Slice sub).map fun score => (score, sub.drop scoreLen)

def composeZsetMetaKey (kc : KeyComposer) (key : Key) : Bytes :=
  kc.composeMetaKeyStack KeyTag.zSetMeta.asSlice key.bytes

def composeZsetPrefix (kc : KeyComposer) (key : Key) : Bytes :=
  kc.composePrefixStack KeyTag.zSetData.asSlice key.bytes

def composeZsetScorePrefix (kc : KeyComposer) (key : Key) : Bytes :=
  kc.composePrefixStack KeyTag.zSetScore.asSlice key.bytes

def composeZsetKey (kc : KeyComposer) (key : Key) (member : Bytes) : Bytes :=
  kc.composeSubkeyStack KeyTag.zSetData.asSlice key.bytes member

def composeZsetScoreKey (kc : KeyComposer) (key : Key) (score : F64) (member : Bytes) : Bytes :=
  kc.composeSubkey2Stack KeyTag.zSetScore.asSlice key.bytes (encodeSortableF64U64 score).toBeBytes member

def composeZsetScoreFromBytesKey (kc : KeyComposer) (key : Key) (scoreBytes member : Bytes) : Bytes :=
  kc.composeSubkey2Stack KeyTag.zSetScore.asSlice key.bytes scoreBytes member

def zsetNormalizeRange (card : UInt64) (start stop : Int64) : Option (ℕ × ℕ) :=
  let (s, e) := normalizeRange start.toInt stop.toInt card.asI64
  if s > e then none else some (s.toNat, e.toNat)

def lexRangeBounds (memberPrefix : Bytes) (spec : RangeLex) : Bound Bytes × Bound Bytes :=
  (if spec.minInfinite then .included memberPrefix
    else if spec.minex then .excluded (memberPrefix ++ spec.min)
    else .included (memberPrefix ++ spec.min),
  if spec.maxInfinite then prefixUpperBound memberPrefix
    else if spec.maxex then .excluded (memberPrefix ++ spec.max)
    else .included (memberPrefix ++ spec.max))

def commitZsetBatch (metaK : Bytes) (m : ZSetMeta) : Batch :=
  if m.base.size = 0 then [.rmMeta metaK] else [.insertMeta metaK m.encode]

structure ZAddFlags where
  nx : Bool
  xx : Bool
  gt : Bool
  lt : Bool
  ch : Bool
  incr : Bool

def ZAddFlags.fromOptions (options : List ZAdd) : ZAddFlags where
  nx := options.contains .nx
  xx := options.contains .xx
  gt := options.contains .gt
  lt := options.contains .lt
  ch := options.contains .ch
  incr := options.contains .incr

/-- What a loop over members carries: the metadata, the queue and two counts. -/
structure ZAddWork where
  m : ZSetMeta
  ops : Batch
  added : ℕ
  changed : ℕ

section
variable (s : Store) (kc : KeyComposer) (key : Key) (nowMs : UInt64)

def getZsetMeta : Except Error (Option ZSetMeta) :=
  (getMetaChecked ZSetMeta s kc key (composeZsetMetaKey kc key) nowMs).map fun found =>
    found.filter fun m => !m.isEmpty

def prepareZsetMetaForWrite (version : UInt64) : Except Error (ZSetMeta × Bool × Batch) :=
  (getMetaChecked ZSetMeta s kc key (composeZsetMetaKey kc key) nowMs).map fun found =>
    match found with
    | some m => (m, true, [])
    | none =>
      (.new 0 version 0, false, clearPrefixInBatch s .data (composeZsetPrefix kc key) ++
        clearPrefixInBatch s .data (composeZsetScorePrefix kc key))

/-! ## Adding -/

def insertMemberOps (score : F64) (member : Bytes) : Batch :=
  [.insertData (composeZsetScoreKey kc key score member) [],
    .insertData (composeZsetKey kc key member) (encodeSortableF64 score)]

def oldScoreBytes (existed : Bool) (member : Bytes) : Option Bytes :=
  if existed then s.data.get (composeZsetKey kc key member) else none

def ZAddWork.add (w : ZAddWork) (score : F64) (member : Bytes) : ZAddWork where
  m := w.m.setSize (w.m.base.size.satAdd 1)
  ops := w.ops ++ insertMemberOps kc key score member
  added := w.added + 1
  changed := w.changed

def ZAddWork.change (w : ZAddWork) (oldKey : Bytes) (score : F64) (member : Bytes) : ZAddWork where
  m := w.m
  ops := w.ops ++ .rmWeakData oldKey :: insertMemberOps kc key score member
  added := w.added
  changed := w.changed + 1

def ZAddFlags.rejects (flags : ZAddFlags) (finalScore oldScore : F64) : Bool :=
  flags.gt && finalScore.le oldScore || flags.lt && oldScore.le finalScore

/-- The single pair of a call; no work is left where the call returns early. -/
def zaddSingle (flags : ZAddFlags) (existed : Bool) (w : ZAddWork) (inputScore : F64)
    (member : Bytes) : Except Error (Option ZAddWork) :=
  match oldScoreBytes s kc key existed member with
  | some oldSb =>
    if flags.nx then .ok (some w)
    else
      let oldScore := (decodeSortableF64Slice oldSb).getD .zero
      if flags.incr && (flags.lt && F64.zero.le inputScore || flags.gt && inputScore.le .zero) then
        .ok none
      else
        let finalScore := if flags.incr then oldScore.add inputScore else inputScore
        if finalScore.isNan then .error (.invalidData errResultNan)
        else if !flags.rejects finalScore oldScore && !finalScore.eq oldScore then
          .ok (some (w.change kc key (composeZsetScoreKey kc key oldScore member) finalScore member))
        else .ok (some w)
  | none => if flags.xx then .ok (some w) else .ok (some (w.add kc key inputScore member))

def zaddStep (flags : ZAddFlags) (existed : Bool) (w : ZAddWork) (x : Bytes × F64) :
    Except Error ZAddWork :=
  match oldScoreBytes s kc key existed x.1 with
  | some oldSb =>
    if flags.nx then .ok w
    else
      let oldScore := (decodeSortableF64Slice oldSb).getD .zero
      if x.2.isNan then .error (.invalidData errResultNan)
      else if flags.rejects x.2 oldScore then .ok w
      else if !x.2.eq oldScore then
        .ok (w.change kc key (composeZsetScoreFromBytesKey kc key (oldSb.take 8) x.1) x.2 x.1)
      else .ok w
  | none => if flags.xx then .ok w else .ok (w.add kc key x.2 x.1)

def zaddMembers (flags : ZAddFlags) (existed : Bool) (w : ZAddWork) (scoreMembers : List (F64 × Bytes)) :
    Except Error (Option ZAddWork) :=
  match scoreMembers with
  | [(inputScore, member)] => zaddSingle s kc key flags existed w inputScore member
  | _ =>
    ((keepFirst (scoreMembers.reverse.map Prod.swap) []).foldlM (zaddStep s kc key flags existed) w).map
      some

/-- The reply and the queue of a call; nothing is committed where no member was written. -/
def zaddCommit (flags : ZAddFlags) : Option ZAddWork → ℕ × Batch
  | none => (0, [])
  | some w =>
    (if flags.ch then w.added + w.changed else w.added,
      if w.added > 0 ∨ w.changed > 0 then
        w.ops ++ [.insertMeta (composeZsetMetaKey kc key) w.m.encode]
      else [])

def zadd (version : UInt64) (scoreMembers : List (F64 × Bytes)) (options : List ZAdd) :
    Except Error (ℕ × Batch) :=
  let flags := ZAddFlags.fromOptions options
  if scoreMembers = [] then .ok (0, [])
  else if scoreMembers.any fun x => x.1.isNan then .error (.invalidData errScoreNotFloat)
  else if flags.nx && flags.xx then .error (.invalidData errXxNx)
  else if flags.gt && flags.lt || flags.nx && flags.gt || flags.nx && flags.lt then
    .error (.invalidData errGtLtNx)
  else if flags.incr && decide (scoreMembers.length > 1) then .error (.invalidData errIncrPairs)
  else do
    let (m, existed, ops) ← prepareZsetMetaForWrite s kc key nowMs version
    let done ← zaddMembers s kc key flags existed ⟨m, ops, 0, 0⟩ scoreMembers
    return zaddCommit kc key flags done

def zincrby (version : UInt64) (increment : F64) (member : Bytes) : Except Error (F64 × Batch) := do
  if increment.isNan then throw (.invalidData errIncrementNotFloat)
  else
    let (m, existed, ops) ← prepareZsetMetaForWrite s kc key nowMs version
    match oldScoreBytes s kc key existed member with
    | some oldSb =>
      let oldScore := (decodeSortableF64Slice oldSb).getD .zero
      let score := oldScore.add increment
      if score.isNan then throw (.invalidData errResultNan)
      else if !score.eq oldScore then
        return (score, ops ++ .rmWeakData (composeZsetScoreKey kc key oldScore member) ::
          insertMemberOps kc key score member ++ [.insertMeta (composeZsetMetaKey kc key) m.encode])
      else return (score, [])
    | none =>
      let m := m.setSize (m.base.size.satAdd 1)
      return (increment, ops ++ insertMemberOps kc key increment member ++
        [.insertMeta (composeZsetMetaKey kc key) m.encode])

def overwriteZset (version : UInt64) (scoreMembers : List (Bytes × F64)) :
    Except Error (ℕ × Batch) := do
  checkKeyNotOtherType s kc key nowMs .zSetMeta
  let distinct := keepFirst scoreMembers []
  let ops := clearPrefixInBatch s .data (composeZsetPrefix kc key) ++
    clearPrefixInBatch s .data (composeZsetScorePrefix kc key) ++
    [.rmMeta (composeZsetMetaKey kc key)] ++
    distinct.flatMap fun x =>
      [.insertData (composeZsetScoreFromBytesKey kc key (encodeSortableF64 x.2) x.1) [],
        .insertData (composeZsetKey kc key x.1) (encodeSortableF64 x.2)]
  let count := distinct.length
  if count > 0 then
    let m : ZSetMeta := .newWithVersion version 0 (UInt64.ofNat count)
    return (count, ops ++ [.insertMeta (composeZsetMetaKey kc key) m.encode])
  else return (count, ops)

/-! ## Removing -/

def removeMemberOps (scoreKey : Option Bytes) (memberKey : Bytes) : Batch :=
  (scoreKey.map WriteOp.rmWeakData).toList ++ [.rmWeakData memberKey]

def zremSingle (m : ZSetMeta) (member : Bytes) : ZSetMeta × Batch × ℕ :=
  match s.data.get (composeZsetKey kc key member) with
  | some sb =>
    let score := (decodeSortableF64Slice sb).getD .zero
    (m.setSize (m.base.size.satSub 1), removeMemberOps (some (composeZsetScoreKey kc key score member))
      (composeZsetKey kc key member), 1)
  | none => (m, [], 0)

def zremStep (w : ZSetMeta × Batch × ℕ) (member : Bytes) : ZSetMeta × Batch × ℕ :=
  match s.data.get (composeZsetKey kc key member) with
  | some sb =>
    let scoreKey :=
      if sb.length ≥ 8 then some (composeZsetScoreFromBytesKey kc key (sb.take 8) member) else none
    (w.1.setSize (w.1.base.size.satSub 1),
      w.2.1 ++ removeMemberOps scoreKey (composeZsetKey kc key member), w.2.2 + 1)
  | none => w

def zremMembers (m : ZSetMeta) (members : List Bytes) : ZSetMeta × Batch × ℕ :=
  match members with
  | [member] => zremSingle s kc key m member
  | _ =>
    ((keepFirst (members.map fun member => (member, ())) []).map Prod.fst).foldl (zremStep s kc key)
      (m, [], 0)

def zrem (members : List Bytes) : Except Error (ℕ × Batch) := do
  if members = [] then return (0, [])
  else
    match ← getZsetMeta s kc key nowMs with
    | none => return (0, [])
    | some m =>
      let w := zremMembers s kc key m members
      if w.2.2 > 0 then return (w.2.2, w.2.1 ++ commitZsetBatch (composeZsetMetaKey kc key) w.1)
      else return (w.2.2, [])

def scoreVisit {σ : Type u} (pre : Bytes) (f : σ → Bytes → Bytes → F64 → σ × Bool) (st : σ)
    (x : Bytes × Bytes) : σ × Bool :=
  if ¬pre <+: x.1 then (st, false)
  else
    match parseScoreSub (x.1.drop pre.length) with
    | some (score, member) => f st x.1 member score
    | none => (st, true)

def memberVisit {σ : Type u} (pre : Bytes) (f : σ → Bytes → Bytes → Bytes → σ × Bool) (st : σ)
    (x : Bytes × Bytes) : σ × Bool :=
  if ¬pre <+: x.1 then (st, false) else f st x.1 x.2 (x.1.drop pre.length)

def directed {α : Type u} (reverse : Bool) (xs : List α) : List α :=
  if reverse then xs.reverse else xs

def zpopOneInternal (reverse : Bool) : Except Error (Option ZSetMemberScore × Batch) := do
  match ← getZsetMeta s kc key nowMs with
  | none => return (none, [])
  | some m =>
    if m.size > 0 then
      let pre := composeZsetScorePrefix kc key
      match (directed reverse (SortedMap.prefixed pre s.data)).head? with
      | some (k, _) =>
        if pre <+: k then
          match parseScoreSub (k.drop pre.length) with
          | some (score, member) =>
            let m := m.setSize (m.base.size.satSub 1)
            return (some (member, score), removeMemberOps (some k) (composeZsetKey kc key member) ++
              commitZsetBatch (composeZsetMetaKey kc key) m)
          | none => return (none, [])
        else return (none, [])
      | none => return (none, [])
    else return (none, [])

def drainEntry (actualCount : ℕ) (st : List ZSetMemberScore × Batch) (k member : Bytes) (score : F64) :
    (List ZSetMemberScore × Batch) × Bool :=
  let popped := st.1 ++ [(member, score)]
  ((popped, st.2 ++ removeMemberOps (some k) (composeZsetKey kc key member)),
    !decide (popped.length ≥ actualCount))

def zpopInternal (count : ℕ) (reverse : Bool) : Except Error (List ZSetMemberScore × Batch) := do
  if count = 0 then return ([], [])
  else if count = 1 then
    let (item, ops) ← zpopOneInternal s kc key nowMs reverse
    return (item.toList, ops)
  else
    match ← getZsetMeta s kc key nowMs with
    | none => return ([], [])
    | some m =>
      if m.size > 0 then
        let actualCount := min count m.size.toNat
        let pre := composeZsetScorePrefix kc key
        let (popped, ops) := foldBreak (scoreVisit pre (drainEntry kc key actualCount)) ([], [])
          (directed reverse (SortedMap.prefixed pre s.data))
        if popped ≠ [] then
          let m := m.setSize (m.base.size.satSub (UInt64.ofNat popped.length))
          return (popped, ops ++ commitZsetBatch (composeZsetMetaKey kc key) m)
        else return ([], [])
      else return ([], [])

def zpopmin (count : ℕ) : Except Error (List ZSetMemberScore × Batch) :=
  zpopInternal s kc key nowMs count false

def zpopmax (count : ℕ) : Except Error (List ZSetMemberScore × Batch) :=
  zpopInternal s kc key nowMs count true

def commitDeleted (m : ZSetMeta) (deleted : ℕ) (ops : Batch) : ℕ × Batch :=
  if deleted > 0 then
    (deleted, ops ++ commitZsetBatch (composeZsetMetaKey kc key)
      (m.setSize (m.base.size.satSub (UInt64.ofNat deleted))))
  else (deleted, [])

structure RankWork where
  deleted : ℕ
  currentIdx : ℕ
  ops : Batch

def remRankEntry (start stop count : ℕ) (st : RankWork) (k member : Bytes) (_ : F64) :
    RankWork × Bool :=
  let st' : RankWork := if st.currentIdx ≥ start then
      { st with deleted := st.deleted + 1
                ops := st.ops ++ removeMemberOps (some k) (composeZsetKey kc key member) }
    else st
  if st.currentIdx ≥ start ∧ st'.deleted ≥ count then (st', false)
  else ({ st' with currentIdx := st'.currentIdx + 1 }, !decide (st'.currentIdx + 1 > stop))

def zremrangebyrank (start stop : Int64) : Except Error (ℕ × Batch) := do
  match ← getZsetMeta s kc key nowMs with
  | none => return (0, [])
  | some m =>
    let card := m.size
    match zsetNormalizeRange card start stop with
    | none => return (0, [])
    | some (s', e) =>
      let count := e - s' + 1
      let pre := composeZsetScorePrefix kc key
      if s' = 0 ∧ e + 1 ≥ card.toNat then
        return (card.toNat, clearPrefixInBatch s .data pre ++
          clearPrefixInBatch s .data (composeZsetPrefix kc key) ++
          [.rmMeta (composeZsetMetaKey kc key)])
      else
        let w := foldBreak (scoreVisit pre (remRankEntry kc key s' e count)) ⟨0, 0, []⟩
          (SortedMap.prefixed pre s.data)
        return commitDeleted kc key m w.deleted w.ops

def byScoreVisit {σ : Type u} (spec : RangeScore) (f : σ → Bytes → Bytes → F64 → σ × Bool) (st : σ)
    (k member : Bytes) (score : F64) : σ × Bool :=
  if spec.maxex && spec.max.le score || spec.max.lt score then (st, false)
  else if spec.check score then f st k member score
  else (st, true)

def byScoreVisitRev {σ : Type u} (spec : RangeScore) (f : σ → Bytes → Bytes → F64 → σ × Bool) (st : σ)
    (k member : Bytes) (score : F64) : σ × Bool :=
  if spec.minex && score.le spec.min || score.lt spec.min then (st, false)
  else if spec.check score then f st k member score
  else (st, true)

def removeScored (st : ℕ × Batch) (k member : Bytes) (_ : F64) : (ℕ × Batch) × Bool :=
  ((st.1 + 1, st.2 ++ removeMemberOps (some k) (composeZsetKey kc key member)), true)

def zremrangebyscore (spec : RangeScore) : Except Error (ℕ × Batch) := do
  if spec.isEmpty then return (0, [])
  else
    match ← getZsetMeta s kc key nowMs with
    | none => return (0, [])
    | some m =>
      let pre := composeZsetScorePrefix kc key
      let (start, stop) := scoreRangeBounds pre spec
      let (deleted, ops) := foldBreak (scoreVisit pre (byScoreVisit spec (removeScored kc key)))
        (0, []) (s.data.range start stop)
      return commitDeleted kc key m deleted ops

def byLexVisit {σ : Type u} (spec : RangeLex) (f : σ → Bytes → Bytes → Bytes → σ × Bool) (st : σ)
    (k v member : Bytes) : σ × Bool :=
  if !spec.maxInfinite && (spec.maxex && decide (spec.max ≤ member) ||
      !spec.maxex && decide (spec.max < member)) then (st, false)
  else if spec.check member then f st k v member
  else (st, true)

def byLexVisitRev {σ : Type u} (spec : RangeLex) (f : σ → Bytes → Bytes → Bytes → σ × Bool) (st : σ)
    (k v member : Bytes) : σ × Bool :=
  if !spec.minInfinite && (spec.minex && decide (member ≤ spec.min) ||
      !spec.minex && decide (member < spec.min)) then (st, false)
  else if spec.check member then f st k v member
  else (st, true)

def removeNamed (st : ℕ × Batch) (k v member : Bytes) : (ℕ × Batch) × Bool :=
  let scoreKey :=
    if v.length ≥ 8 then some (composeZsetScoreFromBytesKey kc key (v.take 8) member) else none
  ((st.1 + 1, st.2 ++ removeMemberOps scoreKey k), true)

def zremrangebylex (spec : RangeLex) : Except Error (ℕ × Batch) := do
  if spec.isEmpty then return (0, [])
  else
    match ← getZsetMeta s kc key nowMs with
    | none => return (0, [])
    | some m =>
      let pre := composeZsetPrefix kc key
      let (start, stop) := lexRangeBounds pre spec
      let (deleted, ops) := foldBreak (memberVisit pre (byLexVisit spec (removeNamed kc key)))
        (0, []) (s.data.range start stop)
      return commitDeleted kc key m deleted ops

end

end Wedb

end
