import Wedb.Hash.Runs
import Wedb.ZSet.Remove

/-!
# Runs of sorted set commands

A call is a command on a key at a clock value; its writes are committed together
and a failed call changes nothing. After any run from the empty store the score
index of every key is the index of its members and the metadata counts them.
-/

namespace Wedb

inductive ZSetCommand
  | zadd (scoreMembers : List (F64 × Bytes)) (options : List ZAdd)
  | zincrby (increment : F64) (member : Bytes)
  | zrem (members : List Bytes)
  | zpopOne (reverse : Bool)
  | zpop (count : ℕ) (reverse : Bool)
  | zremrangebyrank (start stop : Int64)
  | zremrangebyscore (spec : RangeScore)
  | zremrangebylex (spec : RangeLex)
  | overwriteZset (scoreMembers : List (Bytes × F64))

/-- A command with its key, the clock it reads and the version it would generate. -/
structure ZSetCall where
  kc : KeyComposer
  key : Key
  nowMs : UInt64
  version : UInt64
  command : ZSetCommand

namespace ZSetCall

def plan (s : Store) (c : ZSetCall) : Except Error Batch :=
  match c.command with
  | .zadd scoreMembers options =>
    (Wedb.zadd s c.kc c.key c.nowMs c.version scoreMembers options).map Prod.snd
  | .zincrby increment member =>
    (Wedb.zincrby s c.kc c.key c.nowMs c.version increment member).map Prod.snd
  | .zrem members => (Wedb.zrem s c.kc c.key c.nowMs members).map Prod.snd
  | .zpopOne reverse => (zpopOneInternal s c.kc c.key c.nowMs reverse).map Prod.snd
  | .zpop count reverse => (zpopInternal s c.kc c.key c.nowMs count reverse).map Prod.snd
  | .zremrangebyrank start stop =>
    (Wedb.zremrangebyrank s c.kc c.key c.nowMs start stop).map Prod.snd
  | .zremrangebyscore spec => (Wedb.zremrangebyscore s c.kc c.key c.nowMs spec).map Prod.snd
  | .zremrangebylex spec => (Wedb.zremrangebylex s c.kc c.key c.nowMs spec).map Prod.snd
  | .overwriteZset scoreMembers =>
    (Wedb.overwriteZset s c.kc c.key c.nowMs c.version scoreMembers).map Prod.snd

def exec (e : Engine) (c : ZSetCall) : Except Error Engine := do
  e.commit (← c.plan e.store)

def numeric (c : ZSetCall) : Bool :=
  match c.command with
  | .overwriteZset scoreMembers => scoreMembers.all fun x => !x.2.isNan
  | _ => true

end ZSetCall

/-- The states of the runs from the empty store. -/
inductive ZSetReachable : Engine → Prop
  | start : ZSetReachable .empty
  | call {e e' : Engine} {c : ZSetCall} : ZSetReachable e → c.numeric = true →
      c.exec e = .ok e' → ZSetReachable e'

def replayZset : Engine → List ZSetCall → Option Engine
  | e, [] => some e
  | e, c :: calls =>
    if c.numeric then (c.exec e).toOption.bind fun e' => replayZset e' calls else none

/-- The score index is the index of the members, which the metadata counts. -/
structure ZSetConsistent (s : Store) (kc : KeyComposer) (key : Key) : Prop where
  scored : ∀ a v, (s.family kc key .zSetData).get a = some v →
    ∃ score : F64, score.isNan = false ∧ v = encodeSortableF64 score
  indexed : ∀ k v, (s.family kc key .zSetScore).get k = some v ↔
    v = [] ∧ ∃ a scoreBytes, (s.family kc key .zSetData).get a = some scoreBytes ∧ scoreBytes ++ a = k
  once : (s.family kc key .zSetScore).length = (s.family kc key .zSetData).length
  counted : ∀ now m, getZsetMeta s kc key now = .ok (some m) →
    m.base.size.toNat = (s.family kc key .zSetData).length ∧ m.base.size ≠ 0
  gone : s.family kc key .zSetData = ∅ ↔ s.metadata.get (composeZsetMetaKey kc key) = none

variable {s : Store} {kc : KeyComposer} {key : Key} {ops : Batch} {M : ZMembers}

theorem ZSetHolds.consistent (h : ZSetHolds s kc key M) : ZSetConsistent s kc key := by
  refine ⟨fun a v hv => ?_, fun k v => ?_, ?_, fun now m hget => ?_, ?_⟩
  · rw [h.rep.members, Option.map_eq_some_iff] at hv
    obtain ⟨score, hscore, rfl⟩ := hv
    exact ⟨score, h.rep.numbers a score hscore, rfl⟩
  · rw [h.rep.index k v]
    refine and_congr_right fun _ => ?_
    constructor
    · rintro ⟨x, hx, hk⟩
      refine ⟨x.1, encodeSortableF64 x.2, ?_, hk⟩
      rw [h.rep.members, SortedMap.get_of_mem hx]
      rfl
    · rintro ⟨a, scoreBytes, ha, hk⟩
      rw [h.rep.members, Option.map_eq_some_iff] at ha
      obtain ⟨score, hscore, rfl⟩ := ha
      exact ⟨(a, score), SortedMap.get_eq_some.mp hscore, hk⟩
  · rw [h.rep.length_data, SortedMap.length, h.rep.score_entries, List.length_map, M.length_ranked]
  · rcases h.getZsetMeta now with ⟨-, hnone⟩ | ⟨hne, m', hsome, hl⟩
    · rw [hget] at hnone
      cases hnone
    · rw [hget] at hsome
      cases hsome
      rw [h.rep.length_data]
      refine ⟨hl.size, fun h0 => hne ?_⟩
      rw [← hl.size, h0]
      rfl
  · constructor
    · intro hempty
      refine h.absent ?_
      rw [← h.rep.length_data, hempty]
      rfl
    · intro hnone
      refine SortedMap.eq_empty_of_length ?_
      rw [h.rep.length_data]
      by_contra hne
      obtain ⟨m, hget, -⟩ := h.present hne
      rw [hnone] at hget
      cases hget

theorem ZSetCall.plan_kept {c : ZSetCall} (h : ZSetHolds s c.kc c.key M) (hnum : c.numeric = true)
    (hplan : c.plan s = .ok ops) (hfits : (s.apply ops).Fits) : ZSetKept s c.kc c.key ops := by
  obtain ⟨kc, key, now, version, command⟩ := c
  cases command with
  | zadd scoreMembers options =>
    obtain ⟨n, hrun⟩ := Except.map_snd_eq_ok hplan
    exact zadd_kept h hrun hfits
  | zincrby increment member =>
    obtain ⟨result, hrun⟩ := Except.map_snd_eq_ok hplan
    exact zincrby_kept h hrun hfits
  | zrem members =>
    obtain ⟨n, hrun⟩ := Except.map_snd_eq_ok hplan
    exact zrem_kept h hrun
  | zpopOne reverse =>
    obtain ⟨item, hrun⟩ := Except.map_snd_eq_ok hplan
    exact zpopOneInternal_kept h hrun
  | zpop count reverse =>
    obtain ⟨items, hrun⟩ := Except.map_snd_eq_ok hplan
    exact zpopInternal_kept h hrun
  | zremrangebyrank start stop =>
    obtain ⟨n, hrun⟩ := Except.map_snd_eq_ok hplan
    exact zremrangebyrank_kept h hrun
  | zremrangebyscore spec =>
    obtain ⟨n, hrun⟩ := Except.map_snd_eq_ok hplan
    exact zremrangebyscore_kept h hrun
  | zremrangebylex spec =>
    obtain ⟨n, hrun⟩ := Except.map_snd_eq_ok hplan
    exact zremrangebylex_kept h hrun
  | overwriteZset scoreMembers =>
    obtain ⟨n, hrun⟩ := Except.map_snd_eq_ok hplan
    refine overwriteZset_kept h (fun x hx => ?_) hrun hfits
    simpa using List.all_eq_true.mp hnum x hx

theorem ZSetCall.exec_holds {c : ZSetCall} {e e' : Engine}
    (h : ∀ kc key, ∃ M, ZSetHolds e.store kc key M) (hnum : c.numeric = true)
    (hexec : c.exec e = .ok e') (kc : KeyComposer) (key : Key) : ∃ M, ZSetHolds e'.store kc key M := by
  unfold exec at hexec
  obtain ⟨ops, hplan, hexec⟩ := bind_eq_ok hexec
  have hstore := Engine.commit_eq_ok hexec
  obtain ⟨M, hM⟩ := h c.kc c.key
  obtain ⟨howned, M', hM'⟩ := plan_kept hM hnum hplan (hstore ▸ e'.fits)
  rw [hstore]
  by_cases hkey : kc = c.kc ∧ key = c.key
  · obtain ⟨rfl, rfl⟩ := hkey
    exact ⟨M', hM'⟩
  · obtain ⟨N, hN⟩ := h kc key
    exact ⟨N, hN.of_local (fun o ho => (howned o ho).localTo) hkey⟩

theorem ZSetReachable.holds {e : Engine} (h : ZSetReachable e) (kc : KeyComposer) (key : Key) :
    ∃ M, ZSetHolds e.store kc key M := by
  revert kc key
  induction h with
  | start => exact fun kc key => ⟨∅, zsetHolds_empty kc key⟩
  | call _ hnum hexec ih => exact ZSetCall.exec_holds ih hnum hexec

theorem ZSetReachable.replay {e e' : Engine} {calls : List ZSetCall} (h : ZSetReachable e)
    (hr : replayZset e calls = some e') : ZSetReachable e' := by
  induction calls generalizing e with
  | nil =>
    cases hr
    exact h
  | cons c calls ih =>
    simp only [replayZset] at hr
    split_ifs at hr with hnum
    cases hexec : c.exec e with
    | error err => rw [hexec] at hr; cases hr
    | ok e1 =>
      rw [hexec] at hr
      exact ih (.call h hnum hexec) hr

/-- Both indexes and the metadata agree after every run. -/
theorem zset_indexes_consistent {e : Engine} (h : ZSetReachable e) (kc : KeyComposer) (key : Key) :
    ZSetConsistent e.store kc key := by
  obtain ⟨M, hM⟩ := h.holds kc key
  exact hM.consistent

def sampleZset : List ZSetCall :=
  [⟨⟨0, 0⟩, sampleKey, 1, 1, .zadd [(.zero, [97]), (.negZero, [98])] [.ch]⟩,
    ⟨⟨0, 0⟩, sampleKey, 2, 2, .zincrby ⟨0x3FF0000000000000⟩ [97]⟩,
    ⟨⟨0, 0⟩, sampleKey, 3, 3, .zpop 1 false⟩]

theorem zset_indexes_consistent_sample :
    ∃ e, replayZset .empty sampleZset = some e ∧
      (e.store.family ⟨0, 0⟩ sampleKey .zSetData).entries =
        [([97], encodeSortableF64 ⟨0x3FF0000000000000⟩)] ∧
      ZSetConsistent e.store ⟨0, 0⟩ sampleKey := by
  have hrun : (replayZset .empty sampleZset).map (fun e =>
      (e.store.family ⟨0, 0⟩ sampleKey .zSetData).entries) =
        some [([97], encodeSortableF64 ⟨0x3FF0000000000000⟩)] := by
    decide +kernel
  obtain ⟨e, he, hentries⟩ := Option.map_eq_some_iff.mp hrun
  exact ⟨e, he, hentries, zset_indexes_consistent (.replay .start he) ⟨0, 0⟩ sampleKey⟩

end Wedb
