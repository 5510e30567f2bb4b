import Wedb.Ordered.ExactNum
import Wedb.ZSet.Rank

/-!
# Sorted set algebra

Unions and intersections weigh the scores of their sets and aggregate them member by member,
differences keep the scores of the first set, and the variants that store write what the reads
found over their destination. The operations reach the sets through the reads of a database only
and take the arithmetic of scores as it comes, so they are stated over any reads and any scores.
-/

namespace Wedb

/-- The arithmetic of scores, in which a result may be no number. -/
class ScoreNum (S : Type) where
  zero : S
  one : S
  add : S → S → S
  mul : S → S → S
  min : S → S → S
  max : S → S → S
  isNan : S → Bool
  eq : S → S → Bool
  le : S → S → Bool

def u64Max : ℕ := 2 ^ 64 - 1

inductive Aggregate
  | sum
  | min
  | max
  deriving DecidableEq, Repr

section
variable {S : Type} [ScoreNum S]

def orZero (x : S) : S := if ScoreNum.isNan x then ScoreNum.zero else x

def Aggregate.apply (aggregate : Aggregate) (current newVal : S) : S :=
  orZero (match aggregate with
    | .sum => ScoreNum.add current newVal
    | .min => ScoreNum.min current newVal
    | .max => ScoreNum.max current newVal)

end

section
variable {S : Type} [LinearOrder S]

def scoreRank (x : Bytes × S) : S ×ₗ Bytes := toLex (x.2, x.1)

def sortByScore (xs : List (Bytes × S)) : List (Bytes × S) :=
  xs.insertionSort fun x y => scoreRank x ≤ scoreRank y

end

/-- The reads of a database that the algebra uses, a walk by all it visits. -/
structure ScoreReader (S : Type) where
  zcard : Key → Except Error ℕ
  zscore : Key → Bytes → Except Error (Option S)
  ziter : Key → Except Error (List (Bytes × S))
  ziterMembers : Key → Except Error (List (Bytes × S))
  containsKey : Key → Bytes → Bool

/-- Two databases read one key alike. -/
structure ReadsAlike {S : Type} (r r' : ScoreReader S) (key : Key) : Prop where
  zcard : r.zcard key = r'.zcard key
  zscore : ∀ member, r.zscore key member = r'.zscore key member
  ziter : r.ziter key = r'.ziter key
  ziterMembers : r.ziterMembers key = r'.ziterMembers key
  containsKey : ∀ member, r.containsKey key member = r'.containsKey key member

namespace ScoreReader

theorem eq_of_readsAlike {S : Type} {r r' : ScoreReader S} (h : ∀ key, ReadsAlike r r' key) :
    r = r' := by
  have hzcard : r.zcard = r'.zcard := funext fun key => (h key).zcard
  have hzscore : r.zscore = r'.zscore := funext fun key => funext (h key).zscore
  have hziter : r.ziter = r'.ziter := funext fun key => (h key).ziter
  have hmembers : r.ziterMembers = r'.ziterMembers := funext fun key => (h key).ziterMembers
  have hcontains : r.containsKey = r'.containsKey := funext fun key => funext (h key).containsKey
  cases r
  cases r'
  dsimp only at hzcard hzscore hziter hmembers hcontains
  rw [hzcard, hzscore, hziter, hmembers, hcontains]

section
variable {S : Type} (r : ScoreReader S)

def keyCards : List Key → Except Error (Option (List (Key × ℕ)))
  | [] => .ok (some [])
  | key :: keys => do
    let card ← r.zcard key
    if card = 0 then return none
    else return (← keyCards keys).map fun cards => (key, card) :: cards

end

section
variable {S : Type} [LinearOrder S] [ScoreNum S] (r : ScoreReader S)
  (iterate : List (Bytes × S) → List (Bytes × S)) (aggregate : Aggregate)

/-! ## Unions -/

def smallest (i minIdx minCard : ℕ) : List ℕ → ℕ
  | [] => minIdx
  | card :: cards =>
    if card < minCard then smallest (i + 1) i card cards
    else smallest (i + 1) minIdx minCard cards

end

end ScoreReader

/-! ## The reads of the encoded store -/

section
variable (s : Store) (kc : KeyComposer) (nowMs : UInt64)

def ziterMembers {σ : Type} (key : Key) (f : σ → Bytes → F64 → σ × Bool) (st : σ) :
    Except Error σ :=
  (getZsetMeta s kc key nowMs).map fun found =>
    match found with
    | some _ =>
      let pre := composeZsetPrefix kc key
      foldBreak (memberVisit pre (withScore f)) st (SortedMap.prefixed pre s.data)
    | none => st

def pushItem (items : List ZSetMemberScore) (member : Bytes) (score : F64) :
    List ZSetMemberScore × Bool :=
  (items ++ [(member, score)], true)

def Store.scoreReader : ScoreReader F64 where
  zcard key := (zcard s kc key nowMs).map UInt64.toNat
  zscore key member := zscore s kc key nowMs member
  ziter key := ziter s kc key nowMs pushItem []
  ziterMembers key := ziterMembers s kc nowMs key pushItem []
  containsKey key member := (s.data.get (composeZsetKey kc key member)).isSome

end

/-! ## The store of maps -/

/-- What a live key holds. -/
inductive ScoreEntry (S : Type)
  | zset (members : SortedMap Bytes S)
  | other

abbrev ScoreStore (S : Type) := Key → Option (ScoreEntry S)

namespace ScoreStore

variable {S : Type} (st : ScoreStore S)

def read (key : Key) : Except Error (SortedMap Bytes S) :=
  match st key with
  | none => .ok ∅
  | some (.zset members) => .ok members
  | some .other => .error .wrongTypeDefault

def ofMembers (xs : List (Bytes × S)) : SortedMap Bytes S :=
  xs.foldl (fun M x => M.insert x.1 x.2) ∅

def overwriteZset (dst : Key) (scoreMembers : List (Bytes × S)) :
    Except Error (ℕ × ScoreStore S) :=
  match st dst with
  | some .other => .error .wrongTypeDefault
  | _ =>
    let distinct := keepFirst scoreMembers []
    .ok (distinct.length,
      Function.update st dst
        (if distinct.length > 0 then some (.zset (ofMembers distinct)) else none))

variable [LinearOrder S]

def reader : ScoreReader S where
  zcard key := (st.read key).map SortedMap.length
  zscore key member := (st.read key).map fun members => members.get member
  ziter key := (st.read key).map fun members => sortByScore members.entries
  ziterMembers key := (st.read key).map SortedMap.entries
  containsKey key member := ((st.read key).toOption.bind fun members => members.get member).isSome

variable [ScoreNum S] (iterate : List (Bytes × S) → List (Bytes × S)) (aggregate : Aggregate)

end ScoreStore

instance : LinearOrder F64 := LinearOrder.lift' F64.totalOrder fun _ _ => F64.ext_totalOrder

/-- The encoded store holds the sets of the store of maps, and nothing of a set under other keys. -/
def Represents (s : Store) (kc : KeyComposer) (now : UInt64) (st : ScoreStore F64) : Prop :=
  ∀ key, match st key with
    | none => ZSetHolds s kc key ∅
    | some (.zset M) => ZSetHolds s kc key M
    | some .other => getZsetMeta s kc key now = .error .wrongTypeDefault ∧
        ∀ member, s.data.get (composeZsetKey kc key member) = none

section
variable {s : Store} {kc : KeyComposer} {key : Key} {now : UInt64} {M : ZMembers}

theorem foldBreak_pushItem (seen xs : List ZSetMemberScore) :
    foldBreak (fun st x => pushItem st x.1 x.2) seen xs = seen ++ xs := by
  induction xs generalizing seen with
  | nil => rw [foldBreak, List.append_nil]
  | cons x xs ih =>
    rw [foldBreak, pushItem, if_pos rfl, ih, List.append_assoc, List.singleton_append]

theorem scoreRank_le_iff {x y : ZSetMemberScore} : scoreRank x ≤ scoreRank y ↔
    indexKey encodeSortableF64 x ≤ indexKey encodeSortableF64 y := by
  rw [← not_lt, ← not_lt, indexKey_lt_iff, scoreRank, scoreRank, Prod.Lex.toLex_lt_toLex]
  exact Iff.rfl

theorem sortByScore_entries (M : ZMembers) : sortByScore M.entries = M.ranked := by
  rw [sortByScore, ZMembers.ranked, byIndex]
  congr 1
  funext x y
  exact propext scoreRank_le_iff

theorem ZSetRep.member_prefixed (h : ZSetRep s kc key M) :
    SortedMap.prefixed (composeZsetPrefix kc key) s.data = M.entries.map (memberEntry kc key) := by
  have hentries : (SortedMap.under (composeZsetPrefix kc key) s.data).entries = _ := h.data_entries
  rw [SortedMap.prefixed_eq_map_under, hentries, List.map_map]
  refine List.map_congr_left fun x _ => ?_
  rw [Function.comp_apply, memberEntry, composeZsetKey_eq_append]

theorem ZSetHolds.ziterMembers {σ : Type} (h : ZSetHolds s kc key M) (now : UInt64)
    (f : σ → Bytes → F64 → σ × Bool) (st : σ) :
    Wedb.ziterMembers s kc now key f st =
      .ok (foldBreak (fun st x => f st x.1 x.2) st M.entries) := by
  rcases h.getZsetMeta now with ⟨h0, hget⟩ | ⟨-, m, hget, -⟩
  · rw [Wedb.ziterMembers, hget, SortedMap.eq_empty_of_length h0]
    rfl
  · rw [Wedb.ziterMembers, hget]
    simp only [Except.map]
    rw [h.rep.member_prefixed, foldBreak_memberVisit]
    simp only [withScore, decodeSortableF64Slice_encode, Option.getD_some]

theorem ZSetHolds.readsAlike (h : ZSetHolds s kc key M) (now : UInt64) {st : ScoreStore F64}
    (hread : st.read key = .ok M) : ReadsAlike (s.scoreReader kc now) st.reader key := by
  obtain ⟨card, hcard, hlen⟩ := h.zcard now
  refine ⟨?_, fun member => ?_, ?_, ?_, fun member => ?_⟩ <;>
    dsimp only [Store.scoreReader, ScoreStore.reader] <;> rw [hread]
  · rw [hcard]
    exact congrArg Except.ok hlen
  · exact h.zscore now member
  · rw [Wedb.ziter, h.ziterDirected, foldBreak_pushItem]
    simp only [Except.map]
    rw [sortByScore_entries]
    rfl
  · rw [h.ziterMembers, foldBreak_pushItem]
    rfl
  · rw [get_composeZsetKey, h.rep.members, Option.isSome_map]
    rfl

theorem readsAlike_other {st : ScoreStore F64}
    (hget : getZsetMeta s kc key now = .error .wrongTypeDefault)
    (hdata : ∀ member, s.data.get (composeZsetKey kc key member) = none)
    (hread : st.read key = .error .wrongTypeDefault) :
    ReadsAlike (s.scoreReader kc now) st.reader key := by
  refine ⟨?_, fun member => ?_, ?_, ?_, fun member => ?_⟩ <;>
    dsimp only [Store.scoreReader, ScoreStore.reader] <;> rw [hread]
  · rw [Wedb.zcard, hget]
    rfl
  · rw [Wedb.zscore, hget]
    rfl
  · rw [Wedb.ziter, ziterDirected, hget]
    rfl
  · rw [Wedb.ziterMembers, hget]
    rfl
  · rw [hdata]
    rfl

theorem Represents.scoreReader_eq {st : ScoreStore F64} (h : Represents s kc now st) :
    s.scoreReader kc now = st.reader := by
  refine ScoreReader.eq_of_readsAlike fun key => ?_
  have hkey := h key
  cases hst : st key with
  | none =>
    rw [hst] at hkey
    exact hkey.readsAlike now (by rw [ScoreStore.read, hst])
  | some entry =>
    rw [hst] at hkey
    cases entry with
    | zset M => exact ZSetHolds.readsAlike hkey now (by rw [ScoreStore.read, hst])
    | other => exact readsAlike_other hkey.1 hkey.2 (by rw [ScoreStore.read, hst])

end

end Wedb
