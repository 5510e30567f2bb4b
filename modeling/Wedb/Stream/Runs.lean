import Wedb.Stream.Range

/-!
# Runs on a stream

A call is a command at a clock value; its writes are committed together and a
failed call changes nothing. A run keeps the ids returned so far. On a key that
never existed before the stored stream is a log in every state reached, and the
next id is above the ids returned, unless a last id was set below them while the
log was empty.
-/

namespace Wedb

inductive StreamCommand
  | xadd (options : StreamAdd) (fieldVals : List (Bytes × Bytes))
  | xdel (ids : List StreamId)
  | xtrim (options : StreamTrim)
  | xsetid (lastId : StreamId) (entriesAdded : Option UInt64) (maxDeletedId : Option StreamId)

/-- A command with the clock it reads and the version it would generate. -/
structure StreamCall where
  nowMs : UInt64
  version : UInt64
  command : StreamCommand

/-- What a call returns. -/
inductive StreamReply
  | id (id : StreamId)
  | count (n : ℕ)
  | unit
  deriving DecidableEq, Repr

section
variable (kc : KeyComposer) (key : Key)

namespace StreamCall

def plan (s : Store) (c : StreamCall) : Except Error (StreamReply × Batch) :=
  match c.command with
  | .xadd options fieldVals =>
    (streamAdd s kc key c.nowMs c.version options fieldVals).map fun x => (.id x.1, x.2)
  | .xdel ids => (streamDel s kc key c.nowMs ids).map fun x => (.count x.1, x.2)
  | .xtrim options => (streamTrim s kc key c.nowMs options).map fun x => (.count x.1, x.2)
  | .xsetid lastId entriesAdded maxDeletedId =>
    (streamSetid s kc key c.nowMs c.version lastId entriesAdded maxDeletedId).map fun x => (.unit, x.2)

def exec (e : Engine) (c : StreamCall) : Except Error (StreamReply × Engine) :=
  e.exec (c.plan kc key e.store)

/-- The ids given and generated stay below the greatest milliseconds. -/
def Within (c : StreamCall) : Prop :=
  match c.command with
  | .xadd options _ => options.nextIdStrategy.Within c.nowMs
  | .xdel _ | .xtrim _ => True
  | .xsetid lastId _ _ => lastId.ms ≠ 0xFFFFFFFFFFFFFFFF

def returned (setid : List StreamId → StreamId → List StreamId) (L : List StreamId)
    (c : StreamCall) (reply : StreamReply) : List StreamId :=
  match c.command, reply with
  | .xadd _ _, .id id => id :: L
  | .xsetid lastId _ _, _ => setid L lastId
  | _, _ => L

end StreamCall

/-- The runs of allowed calls from `e₀`, with the ids returned; `setid` says which of
them are kept when the last id is set. -/
inductive StreamReachable (allowed : StreamCall → Prop)
    (setid : List StreamId → StreamId → List StreamId) (e₀ : Engine) : List StreamId → Engine → Prop
  | start : StreamReachable allowed setid e₀ [] e₀
  | call {L : List StreamId} {e e' : Engine} {c : StreamCall} {reply : StreamReply} :
      StreamReachable allowed setid e₀ L e → allowed c → c.exec kc key e = .ok (reply, e') →
      StreamReachable allowed setid e₀ (c.returned setid L reply) e'

end

def coveredIds (L : List StreamId) (lastId : StreamId) : List StreamId :=
  L.filter fun id => decide (id ≤ lastId)

def storedEntries (s : Store) (kc : KeyComposer) (key : Key) : EntryLog :=
  (s.family kc key .streamData).entries.filterMap fun x =>
    (parseStreamIdFromSubkey x.1).map fun id => (id, x.2)

variable {kc : KeyComposer} {key : Key} {s : Store} {xs : EntryLog} {L : List StreamId}
  {lastId : StreamId} {e₀ e e' : Engine} {c : StreamCall} {reply : StreamReply}

theorem storedEntries_eq (hlog : LogIn encodeId xs (s.family kc key .streamData)) :
    storedEntries s kc key = xs := by
  rw [storedEntries, hlog, List.filterMap_map, ← List.filterMap_some (l := xs)]
  refine (List.filterMap_congr fun x _ => ?_).trans (by rw [List.filterMap_some])
  simp only [Function.comp_apply, parse_encodeId, Option.map_some]

/-- The stored stream is a log whose last id covers the ids returned. -/
structure StreamState (kc : KeyComposer) (key : Key) (e : Engine) (L : List StreamId)
    (xs : EntryLog) (lastId : StreamId) : Prop where
  holds : StreamHolds e.store kc key xs lastId
  returned : ∀ id ∈ L, id ≤ lastId

theorem StreamState.xadd (h : StreamState kc key e L xs lastId) {now version : UInt64}
    {options : StreamAdd} {fieldVals : List (Bytes × Bytes)} {id : StreamId} {ops : Batch}
    (hwithin : options.nextIdStrategy.Within now)
    (hrun : streamAdd e.store kc key now version options fieldVals = .ok (id, ops))
    (hstore : e'.store = e.store.apply ops) :
    (∀ id' ∈ L, id' < id) ∧ ∃ xs', StreamState kc key e' (id :: L) xs' id := by
  have hfits : (e.store.apply ops).Fits := hstore ▸ e'.fits
  obtain ⟨hlt, n, -, hholds, -⟩ := streamAdd_spec h.holds hwithin hrun hfits
  have habove : ∀ id' ∈ L, id' < id := fun id' hid => (h.returned id' hid).trans_lt hlt
  refine ⟨habove, _, hstore ▸ hholds, fun id' hid => ?_⟩
  rcases List.mem_cons.mp hid with rfl | hid
  · exact le_rfl
  · exact (habove id' hid).le

theorem StreamState.call (h : StreamState kc key e L xs lastId) (hwithin : c.Within)
    (hexec : c.exec kc key e = .ok (reply, e')) :
    ∃ xs' lastId', StreamState kc key e' (c.returned coveredIds L reply) xs' lastId' := by
  obtain ⟨ops, hplan, hstore⟩ := Engine.exec_eq_ok hexec
  obtain ⟨now, version, command⟩ := c
  cases command with
  | xadd options fieldVals =>
    simp only [StreamCall.plan] at hplan
    obtain ⟨x, hrun, hx⟩ := map_eq_ok hplan
    cases hx
    obtain ⟨-, xs', hstate⟩ := h.xadd hwithin hrun hstore
    exact ⟨xs', _, hstate⟩
  | xdel ids =>
    simp only [StreamCall.plan] at hplan
    obtain ⟨x, hrun, hx⟩ := map_eq_ok hplan
    cases hx
    exact ⟨_, _, hstore ▸ streamDel_spec h.holds hrun, h.returned⟩
  | xtrim options =>
    simp only [StreamCall.plan] at hplan
    obtain ⟨x, hrun, hx⟩ := map_eq_ok hplan
    cases hx
    exact ⟨_, _, hstore ▸ streamTrim_spec h.holds hrun, h.returned⟩
  | xsetid id entriesAdded maxDeletedId =>
    simp only [StreamCall.plan] at hplan
    obtain ⟨x, hrun, hx⟩ := map_eq_ok hplan
    cases hx
    obtain ⟨hholds, -⟩ := streamSetid_spec h.holds (StreamId.le_max_iff.mpr hwithin) hrun
    refine ⟨_, _, hstore ▸ hholds, fun id' hid => ?_⟩
    exact of_decide_eq_true (List.mem_filter.mp hid).2

theorem StreamHolds.of_new (h : ∀ slot : Slot, slot.Valid → s.at ⟨kc, key, slot⟩ = none) :
    StreamHolds s kc key [] .min := by
  refine ⟨⟨h .str trivial, fun u hu _ => h (.metadata u) (allCompositeMetaTags_isMeta hu)⟩,
    .absent (h (.metadata .streamMeta) rfl) (SortedMap.ext_get fun suffix => ?_)⟩
  rw [Store.get_family, h (.sub .streamData suffix) rfl]
  rfl

theorem StreamReachable.state (hr : StreamReachable kc key StreamCall.Within coveredIds e₀ L e)
    (hnew : ∀ slot : Slot, slot.Valid → e₀.store.at ⟨kc, key, slot⟩ = none) :
    ∃ xs lastId, StreamState kc key e L xs lastId := by
  induction hr with
  | start => exact ⟨[], .min, .of_new hnew, by simp⟩
  | call _ hwithin hexec ih =>
    obtain ⟨xs, lastId, hstate⟩ := ih
    exact hstate.call hwithin hexec

/-- What the metadata and the queries say about the stored entries. -/
structure StreamConsistent (s : Store) (kc : KeyComposer) (key : Key) : Prop where
  physical : (s.family kc key .streamData).length = (storedEntries s kc key).length
  increasing : (storedEntries s kc key).Pairwise fun x y => x.1 < y.1
  described : ∀ now m, getStreamMeta s kc key now = .ok (some m) →
    m.base.size.toNat = (storedEntries s kc key).length ∧
      (m.base.size > 0 →
        (m.firstEntryId ∈ (storedEntries s kc key).map Prod.fst ∧
          ∀ x ∈ storedEntries s kc key, m.firstEntryId ≤ x.1) ∧
        m.lastEntryId ∈ (storedEntries s kc key).map Prod.fst ∧
          ∀ x ∈ storedEntries s kc key, x.1 ≤ m.lastEntryId)
  absent : ∀ now, getStreamMeta s kc key now = .ok none → storedEntries s kc key = []
  queried : ∀ now, streamRange s kc key now .min .max none =
    .ok ((storedEntries s kc key).map entryOf)

theorem StreamHolds.consistent (h : StreamHolds s kc key xs lastId) : StreamConsistent s kc key := by
  have hlog := h.log
  have hs := hlog.sorted encodeId_strictMono
  have hentries := storedEntries_eq hlog
  refine ⟨?_, ?_, fun now m hget => ?_, fun now hget => ?_, fun now => ?_⟩
  · rw [hentries, hlog.length]
  · rw [hentries]
    exact hs
  · rw [hentries]
    rcases h.lookup now with ⟨hnone, -⟩ | ⟨m', hsome, hl, -, -⟩
    · rw [hget] at hnone
      cases hnone
    · rw [hget] at hsome
      cases hsome
      refine ⟨hl.size, fun hpos => ?_⟩
      have hne : xs ≠ [] := fun hnil => by
        rw [hl.size_eq_zero.mpr hnil] at hpos
        cases hpos
      refine ⟨⟨?_, hl.first_le hs⟩, ?_, hl.le_last hs⟩
      · rw [← hl.first _ (List.head?_eq_some_head hne)]
        exact List.mem_map_of_mem (List.head_mem hne)
      · rw [← hl.last _ (List.getLast?_eq_some_getLast hne)]
        exact List.mem_map_of_mem (List.getLast_mem hne)
  · rw [hentries]
    rcases h.lookup now with ⟨-, -, -, hnil, -⟩ | ⟨m', hsome, -⟩
    · exact hnil
    · rw [hget] at hsome
      cases hsome
  · rw [hentries]
    exact streamRange_all h now

/-- Ids returned increase, as far as the last id set still covers them, and in every
state the metadata and the full query describe the stored entries. -/
theorem stream_log_invariant
    (hnew : ∀ slot : Slot, slot.Valid → e₀.store.at ⟨kc, key, slot⟩ = none)
    (hr : StreamReachable kc key StreamCall.Within coveredIds e₀ L e) :
    StreamConsistent e.store kc key ∧
    (∀ now version options fieldVals id e', (StreamCall.mk now version (.xadd options fieldVals)).Within →
      StreamCall.exec kc key e ⟨now, version, .xadd options fieldVals⟩ = .ok (.id id, e') →
      ∀ id' ∈ L, id' < id) ∧
    ∀ now version lastId entriesAdded maxDeletedId reply e', lastId.ms ≠ 0xFFFFFFFFFFFFFFFF →
      StreamCall.exec kc key e ⟨now, version, .xsetid lastId entriesAdded maxDeletedId⟩ =
        .ok (reply, e') →
      storedEntries e.store kc key ≠ [] → coveredIds L lastId = L := by
  obtain ⟨xs, lastId, hstate⟩ := hr.state hnew
  refine ⟨hstate.holds.consistent, ?_, ?_⟩
  · intro now version options fieldVals id e' hwithin hexec
    obtain ⟨ops, hplan, hstore⟩ := Engine.exec_eq_ok hexec
    simp only [StreamCall.plan] at hplan
    cases hrun : streamAdd e.store kc key now version options fieldVals with
    | error err => rw [hrun] at hplan; cases hplan
    | ok x =>
      rw [hrun] at hplan
      cases hplan
      exact (hstate.xadd hwithin hrun hstore).1
  · intro now version id entriesAdded maxDeletedId reply e' hwithin hexec hne
    obtain ⟨ops, hplan, hstore⟩ := Engine.exec_eq_ok hexec
    simp only [StreamCall.plan] at hplan
    rw [storedEntries_eq hstate.holds.log] at hne
    cases hrun : streamSetid e.store kc key now version id entriesAdded maxDeletedId with
    | error err => rw [hrun] at hplan; cases hplan
    | ok x =>
      rw [hrun] at hplan
      cases hplan
      obtain ⟨-, hge⟩ := streamSetid_spec hstate.holds (StreamId.le_max_iff.mpr hwithin) hrun
      refine List.filter_eq_self.mpr fun id' hid => decide_eq_true ?_
      exact (hstate.returned id' hid).trans (hge hne)

def sampleXadd : StreamCall :=
  ⟨1, 1, .xadd { nextIdStrategy := .fullySpecified ⟨5, 0⟩ } [([102], [118])]⟩

def sampleXdel : StreamCall := ⟨2, 2, .xdel [⟨5, 0⟩]⟩

def sampleXsetid : StreamCall := ⟨3, 3, .xsetid ⟨1, 0⟩ none none⟩

def sampleXaddAuto : StreamCall := ⟨4, 4, .xadd {} []⟩

theorem stream_log_invariant_sample :
    ∃ e, StreamReachable ⟨0, 0⟩ sampleKey StreamCall.Within coveredIds .empty [⟨5, 0⟩] e ∧
      StreamConsistent e.store ⟨0, 0⟩ sampleKey ∧
      storedEntries e.store ⟨0, 0⟩ sampleKey ≠ [] := by
  have hrun : ((sampleXadd.exec ⟨0, 0⟩ sampleKey .empty).map fun x =>
      (x.1, decide (storedEntries x.2.store ⟨0, 0⟩ sampleKey = []))).toOption =
        some (.id ⟨5, 0⟩, false) := by
    decide +kernel
  obtain ⟨⟨reply, e⟩, hexec, heq⟩ := exists_ok_of_toOption_map hrun
  simp only [Prod.mk.injEq, decide_eq_false_iff_not] at heq
  obtain ⟨rfl, hne⟩ := heq
  have hreach : StreamReachable ⟨0, 0⟩ sampleKey StreamCall.Within coveredIds .empty [⟨5, 0⟩] e :=
    StreamReachable.start.call (c := sampleXadd) (show (5 : UInt64) ≠ _ by decide) hexec
  exact ⟨e, hreach, (stream_log_invariant (fun slot _ => by cases slot <;> rfl) hreach).1, hne⟩

def sampleXaddGreatest : StreamCall :=
  ⟨1, 1, .xadd { nextIdStrategy := .fullySpecified ⟨0xFFFFFFFFFFFFFFFF, 0⟩ } []⟩

/-- Setting the last id of an empty stream lets an id below an earlier one be
returned, and the full query misses an entry above the greatest id named. -/
theorem stream_log_exceptions :
    (¬∀ L e, StreamReachable ⟨0, 0⟩ sampleKey (fun _ => True) (fun L _ => L) .empty L e →
      ∀ (c : StreamCall) (id : StreamId) (e' : Engine),
        c.exec ⟨0, 0⟩ sampleKey e = .ok (.id id, e') → ∀ id' ∈ L, id' < id) ∧
    ¬∀ L e, StreamReachable ⟨0, 0⟩ sampleKey (fun _ => True) (fun L _ => L) .empty L e →
      StreamConsistent e.store ⟨0, 0⟩ sampleKey := by
  constructor
  · intro hclaim
    have hrun : ((sampleXadd.exec ⟨0, 0⟩ sampleKey .empty).bind fun x1 =>
        (sampleXdel.exec ⟨0, 0⟩ sampleKey x1.2).bind fun x2 =>
        (sampleXsetid.exec ⟨0, 0⟩ sampleKey x2.2).bind fun x3 =>
        (sampleXaddAuto.exec ⟨0, 0⟩ sampleKey x3.2).map fun x4 => (x1.1, x4.1)).toOption =
          some (.id ⟨5, 0⟩, .id ⟨4, 0⟩) := by
      decide +kernel
    obtain ⟨⟨r1, e1⟩, h1, hrun⟩ := exists_ok_of_toOption_bind hrun
    obtain ⟨⟨r2, e2⟩, h2, hrun⟩ := exists_ok_of_toOption_bind hrun
    obtain ⟨⟨r3, e3⟩, h3, hrun⟩ := exists_ok_of_toOption_bind hrun
    obtain ⟨⟨r4, e4⟩, h4, heq⟩ := exists_ok_of_toOption_map hrun
    simp only [Prod.mk.injEq] at heq
    obtain ⟨rfl, rfl⟩ := heq
    have hstart : StreamReachable ⟨0, 0⟩ sampleKey (fun _ => True) (fun L _ => L) .empty [] .empty :=
      .start
    have hreach := ((hstart.call trivial h1).call trivial h2).call trivial h3
    have hlt := hclaim _ _ hreach sampleXaddAuto _ _ h4 ⟨5, 0⟩ (by simp [StreamCall.returned,
      sampleXadd, sampleXdel, sampleXsetid])
    revert hlt
    decide
  · intro hclaim
    have hrun : ((sampleXaddGreatest.exec ⟨0, 0⟩ sampleKey .empty).map fun x =>
        ((storedEntries x.2.store ⟨0, 0⟩ sampleKey).length,
          (streamRange x.2.store ⟨0, 0⟩ sampleKey 2 .min .max none).toOption.map
            List.length)).toOption = some (1, some 0) := by
      decide +kernel
    obtain ⟨⟨r, e⟩, h, heq⟩ := exists_ok_of_toOption_map hrun
    simp only [Prod.mk.injEq] at heq
    have hstart : StreamReachable ⟨0, 0⟩ sampleKey (fun _ => True) (fun L _ => L) .empty [] .empty :=
      .start
    have hreach := hstart.call trivial h
    rw [(hclaim _ _ hreach).queried 2] at heq
    simp only [Except.toOption, Option.map_some, List.length_map, heq.1] at heq
    simp at heq

end Wedb
