import Wedb.Stream.GroupRuns

/-!
# Lag over runs

Entries are added, groups created and read through. The reports of a group created without
a count of entries read stay exact for as long as none of its deliveries is counted: the
first one counted starts from the mark of an unknown number, and from then on the lag is
too large.
-/

namespace Wedb

inductive GroupCommand
  | xadd (options : StreamAdd) (fieldVals : List (Bytes × Bytes))
  | xgroupCreate (group lastId : String) (mkstream : Bool) (entriesRead : Option Int64)
  | xreadgroup (group consumer start : String) (count : Option ℕ) (noack : Bool)

structure GroupCall where
  nowMs : UInt64
  version : UInt64
  command : GroupCommand

inductive GroupReply
  | id (id : StreamId)
  | entries (entries : List StreamEntry)
  | unit
  deriving DecidableEq

def lastDelivered (s : Store) (kc : KeyComposer) (key : Key) (group : String) : StreamId :=
  (((s.data.get (streamGroupMeta kc key group)).bind StreamConsumerGroupMeta.decode).getD {}).lastDeliveredId

namespace GroupCall

def plan (kc : KeyComposer) (key : Key) (s : Store) (c : GroupCall) : Except Error (GroupReply × Batch) :=
  match c.command with
  | .xadd options fieldVals =>
    (streamAdd s kc key c.nowMs c.version options fieldVals).map fun x => (.id x.1, x.2)
  | .xgroupCreate group lastId mkstream entriesRead =>
    (streamGroupCreate s kc key c.nowMs c.version group lastId mkstream entriesRead).map
      fun x => (.unit, x.2)
  | .xreadgroup group consumer start count noack =>
    (streamReadgroup s kc key c.nowMs group consumer start count noack).map fun x => (.entries x.1, x.2)

def exec (kc : KeyComposer) (key : Key) (e : Engine) (c : GroupCall) :
    Except Error (GroupReply × Engine) := e.exec (c.plan kc key e.store)

/-- Ids stay below the greatest milliseconds, and the group is created without a count. -/
def Allowed (group : String) (c : GroupCall) : Prop :=
  match c.command with
  | .xadd options _ => options.nextIdStrategy.Within c.nowMs
  | .xgroupCreate group' _ _ entriesRead => group' = group → entriesRead = none
  | .xreadgroup .. => True

/-- An addition keeps every entry and its own. -/
def Keeps (kc : KeyComposer) (key : Key) (s s' : Store) (c : GroupCall) : Prop :=
  match c.command with
  | .xadd _ _ => (storedEntries s' kc key).length = (storedEntries s kc key).length + 1
  | _ => True

def acks (kc : KeyComposer) (key : Key) (group : String) (s : Store) (c : GroupCall) : Bool :=
  match c.command with
  | .xreadgroup group' _ start count noack =>
    decide (group' = group) && (decide (start = ">") && !noack && decide (count ≠ some 0) &&
      !((storedEntries s kc key).after (lastDelivered s kc key group)).isEmpty)
  | _ => false

end GroupCall

/-- The runs that delete nothing, and whether a delivery to the group was counted. -/
inductive LagReachable (kc : KeyComposer) (key : Key) (group : String) (e₀ : Engine) :
    Bool → Engine → Prop
  | start : LagReachable kc key group e₀ false e₀
  | call {acked : Bool} {e e' : Engine} {c : GroupCall} {reply : GroupReply} :
      LagReachable kc key group e₀ acked e → c.Allowed group → c.exec kc key e = .ok (reply, e') →
      c.Keeps kc key e.store e'.store →
      LagReachable kc key group e₀ (acked || c.acks kc key group e.store) e'

/-- A lag reported for the group is the number of entries after its last id. -/
def LagExact (s : Store) (kc : KeyComposer) (key : Key) (group : String) : Prop :=
  ∀ now groups g, streamInfoGroups s kc key now = .ok groups → (group, g) ∈ groups →
    g.lag ≠ invalidLag → g.lag.toNat = ((storedEntries s kc key).after g.lastDeliveredId).length

structure LagState (kc : KeyComposer) (key : Key) (group : String) (s : Store) (acked : Bool)
    (xs : EntryLog) (lastId : StreamId) : Prop where
  holds : StreamHolds s kc key xs lastId
  undeleted : Undeleted s kc key xs
  attached : ∀ now, getStreamMeta s kc key now = .ok none → groupRecords s kc key = ∅
  named : ∀ suffix v, (groupRecords s kc key).get suffix = some v →
    ∃ (name : String) (g : StreamConsumerGroupMeta), suffix = textBytes name ∧ v = g.encode
  unread : (groupRecords s kc key).get (textBytes group) = none → acked = false
  reads : ∀ g, (groupRecords s kc key).get (textBytes group) =
    some (StreamConsumerGroupMeta.encode g) → GroupReads xs g acked

variable {s : Store} {kc : KeyComposer} {key : Key} {group : String} {acked : Bool} {xs : EntryLog}
  {lastId id : StreamId} {e₀ e e' : Engine} {c : GroupCall} {reply : GroupReply} {ops : Batch}
  {now version : UInt64}

theorem textBytes_injective : Function.Injective textBytes := by
  intro a b h
  have htext := fromUtf8_textBytes a
  rw [h, fromUtf8_textBytes] at htext
  exact (Option.some.inj htext).symm

theorem StreamConsumerGroupMeta.encode_injective :
    Function.Injective StreamConsumerGroupMeta.encode := by
  intro a b h
  have hdecode := decode_encode a
  rw [h, decode_encode] at hdecode
  exact (Option.some.inj hdecode).symm

/-! ## Reports -/

theorem LagState.mem_streamInfoGroups (h : LagState kc key group s acked xs lastId)
    {groups : List (String × StreamConsumerGroupMeta)} {g' : StreamConsumerGroupMeta}
    (hinfo : streamInfoGroups s kc key now = .ok groups) :
    (group, g') ∈ groups ↔ ∃ m g, getStreamMeta s kc key now = .ok (some m) ∧
      (groupRecords s kc key).get (textBytes group) = some (StreamConsumerGroupMeta.encode g) ∧
      g' = checkLagValid m g := by
  rw [streamInfoGroups] at hinfo
  rcases h.holds.lookup now with ⟨hget, -⟩ | ⟨m, hget, -⟩
  · rw [hget] at hinfo
    cases hinfo
  rw [hget] at hinfo
  cases hinfo
  rw [SortedMap.prefixed_eq_map_under, List.filterMap_map]
  simp only [List.mem_filterMap, Function.comp_apply, List.drop_left, Option.map_eq_some_iff,
    Prod.mk.injEq]
  constructor
  · intro hmem
    obtain ⟨⟨suffix, v⟩, hentry, g, hdecode, hname, hlag⟩ := hmem
    have hstored : (groupRecords s kc key).get suffix = some v := SortedMap.get_eq_some.mpr hentry
    obtain ⟨name, g₀, hsuffix, hv⟩ := h.named suffix v hstored
    subst hsuffix hv
    rw [StreamConsumerGroupMeta.decode_encode] at hdecode
    rw [fromUtf8_textBytes] at hname
    have hname' : name = group := hname
    subst hname'
    cases hdecode
    exact ⟨m, g, hget, hstored, hlag.symm⟩
  · intro hmem
    obtain ⟨m', g, hm, hstored, hlag⟩ := hmem
    rw [hget] at hm
    cases hm
    refine ⟨(textBytes group, g.encode), SortedMap.get_eq_some.mp hstored, g,
      StreamConsumerGroupMeta.decode_encode g, ?_, hlag.symm⟩
    simp only [fromUtf8_textBytes, Option.getD_some]

theorem LagState.exact (h : LagState kc key group s false xs lastId) (hlen : xs.length < 2 ^ 63) :
    LagExact s kc key group := by
  intro now groups g' hinfo hmem hlag
  obtain ⟨m, g, hget, hstored, hg⟩ := (h.mem_streamInfoGroups hinfo).mp hmem
  obtain ⟨hadded, hdel⟩ := h.undeleted now m hget
  have hread := (h.reads g hstored).unknown rfl
  rcases h.holds.lookup now with ⟨hnone, -⟩ | ⟨m', hget', hl, hlog, -⟩
  · rw [hget] at hnone
    cases hnone
  rw [hget] at hget'
  cases hget'
  subst hg
  rw [storedEntries_eq hlog, checkLagValid_lastDeliveredId]
  exact checkLagValid_unknown hl (hlog.sorted encodeId_strictMono) hadded hdel hlen hread hlag

theorem LagState.not_exact (h : LagState kc key group s true xs lastId) (hlen : xs.length < 2 ^ 63) :
    ¬LagExact s kc key group := by
  intro hexact
  cases hstored : (groupRecords s kc key).get (textBytes group) with
  | none => cases h.unread hstored
  | some v =>
    obtain ⟨name, g, -, rfl⟩ := h.named _ v hstored
    rcases h.holds.lookup 0 with ⟨hnone, -⟩ | ⟨m, hget, hl, hlog, -⟩
    · rw [h.attached 0 hnone] at hstored
      cases hstored
    obtain ⟨hadded, hdel⟩ := h.undeleted 0 m hget
    obtain ⟨hvalid, hwrong⟩ := checkLagValid_counted hadded hdel hlen ((h.reads g hstored).counted rfl)
    obtain ⟨groups, hinfo⟩ : ∃ groups, streamInfoGroups s kc key 0 = .ok groups := by
      rw [streamInfoGroups, hget]
      exact ⟨_, rfl⟩
    have hmem := (h.mem_streamInfoGroups hinfo).mpr ⟨m, g, hget, hstored, rfl⟩
    have hlag := hexact 0 groups _ hinfo hmem hvalid
    rw [storedEntries_eq hlog, checkLagValid_lastDeliveredId] at hlag
    exact hwrong hlag

/-! ## Steps -/

theorem cutTo_ne_nil {α : Type} (count : Option ℕ) (l : List α) :
    decide (cutTo count l ≠ []) = (decide (count ≠ some 0) && !l.isEmpty) := by
  rw [Bool.eq_iff_iff, decide_eq_true_iff]
  cases count with
  | none => simp [cutTo]
  | some c => simp [cutTo]

theorem lastDelivered_eq {g : StreamConsumerGroupMeta}
    (hstored : (groupRecords s kc key).get (textBytes group) = some g.encode) :
    lastDelivered s kc key group = g.lastDeliveredId := by
  rw [groupRecords_get] at hstored
  rw [lastDelivered, hstored, Option.bind_some, StreamConsumerGroupMeta.decode_encode]
  rfl

theorem LagState.put (hholds : StreamHolds s kc key xs lastId) (hund : Undeleted s kc key xs)
    {records : SortedMap Bytes Bytes} {name : String} {g : StreamConsumerGroupMeta}
    (hrecords : groupRecords s kc key = records.insert (textBytes name) g.encode)
    (hattached : ∀ now, getStreamMeta s kc key now ≠ .ok none)
    (hnamed : ∀ suffix v, records.get suffix = some v →
      ∃ (name : String) (g : StreamConsumerGroupMeta), suffix = textBytes name ∧ v = g.encode)
    (hself : name = group → GroupReads xs g acked)
    (hunread : name ≠ group → records.get (textBytes group) = none → acked = false)
    (hother : name ≠ group → ∀ g, records.get (textBytes group) =
      some (StreamConsumerGroupMeta.encode g) → GroupReads xs g acked) :
    LagState kc key group s acked xs lastId := by
  have hget : ∀ suffix, (groupRecords s kc key).get suffix =
      if textBytes name = suffix then some g.encode else records.get suffix := by
    intro suffix
    rw [hrecords, SortedMap.get_insert]
    split_ifs <;> rfl
  refine ⟨hholds, hund, fun now hnone => absurd hnone (hattached now), ?_, ?_, ?_⟩
  · intro suffix v hv
    rw [hget] at hv
    split_ifs at hv with hname
    · exact ⟨name, g, hname.symm, (Option.some.inj hv).symm⟩
    · exact hnamed suffix v hv
  · intro hnone
    rw [hget] at hnone
    split_ifs at hnone with hname
    exact hunread (fun heq => hname (congrArg textBytes heq)) hnone
  · intro g' hstored
    rw [hget] at hstored
    split_ifs at hstored with hname
    · rw [← StreamConsumerGroupMeta.encode_injective (Option.some.inj hstored)]
      exact hself (textBytes_injective hname)
    · exact hother (fun heq => hname (congrArg textBytes heq)) g' hstored

theorem LagState.xgroupCreate (h : LagState kc key group s acked xs lastId) {name lastIdText : String}
    {mkstream : Bool} {entriesRead : Option Int64} {u : Unit}
    (hallowed : name = group → entriesRead = none)
    (hrun : streamGroupCreate s kc key now version name lastIdText mkstream entriesRead = .ok (u, ops)) :
    LagState kc key group (s.apply ops) acked xs lastId := by
  obtain ⟨hholds, hund, hattached, hfree, found, last, hget, hrecords⟩ :=
    streamGroupCreate_spec h.holds hrun
  have hbefore : (if found.isNone then ∅ else groupRecords s kc key) = groupRecords s kc key := by
    split_ifs with hnone
    · rw [Option.isNone_iff_eq_none.mp hnone] at hget
      exact (h.attached now hget).symm
    · rfl
  rw [hbefore] at hrecords
  refine .put hholds (hund h.undeleted) hrecords hattached h.named (fun hname => ?_) (fun _ => h.unread)
    (fun _ => h.reads)
  have hacked : acked = false := h.unread (hname ▸ hfree)
  rw [hallowed hname, hacked]
  exact ⟨fun _ => rfl, fun hcounted => by cases hcounted⟩

theorem LagState.xreadgroup (h : LagState kc key group s acked xs lastId) (hlen : xs.length < 2 ^ 63)
    {name consumer start : String} {count : Option ℕ} {noack : Bool} {entries : List StreamEntry}
    (hrun : streamReadgroup s kc key now name consumer start count noack = .ok (entries, ops)) :
    LagState kc key group (s.apply ops)
      (acked || GroupCall.acks kc key group s ⟨now, version, .xreadgroup name consumer start count noack⟩)
      xs lastId := by
  obtain ⟨hops, ⟨m, hget⟩, bytes, g', hbytes, hrecords, hreads⟩ := streamReadgroup_spec h.holds hlen hrun
  have hholds := h.holds.apply_group hops
  have hmeta := (metadata_apply_of_groupOp hops).trans (h.holds.get_of_found hget)
  obtain ⟨hadded, hdel⟩ := h.undeleted now m hget
  obtain ⟨-, g, -, hg⟩ := h.named _ _ hbytes
  subst hg
  have hother : name ≠ group → GroupCall.acks kc key group s
      ⟨now, version, .xreadgroup name consumer start count noack⟩ = false := by
    intro hne
    simp [GroupCall.acks, hne]
  refine .put hholds (undeleted_of_get hholds hmeta hadded hdel) hrecords (hholds.found_ne_none hmeta)
    h.named (fun hname => ?_) (fun hne hnone => ?_) (fun hne g₀ hstored => ?_)
  · subst hname
    have hself := hreads g acked rfl (h.reads g hbytes)
    have hflag : GroupCall.acks kc key name s ⟨now, version, .xreadgroup name consumer start count noack⟩ =
        (decide (start = ">") && !noack && decide (cutTo count (xs.after g.lastDeliveredId) ≠ [])) := by
      simp only [GroupCall.acks, decide_true, Bool.true_and, lastDelivered_eq hbytes,
        storedEntries_eq h.holds.log, Bool.and_assoc]
      rw [← cutTo_ne_nil]
    rw [hflag]
    exact hself
  · rw [hother hne, Bool.or_false]
    exact h.unread hnone
  · rw [hother hne, Bool.or_false]
    exact h.reads g₀ hstored

theorem LagState.xadd (h : LagState kc key group s acked xs lastId) {options : StreamAdd}
    {fieldVals : List (Bytes × Bytes)} (hwithin : options.nextIdStrategy.Within now)
    (hrun : streamAdd s kc key now version options fieldVals = .ok (id, ops))
    (hfits : (s.apply ops).Fits)
    (hkeeps : (storedEntries (s.apply ops) kc key).length = (storedEntries s kc key).length + 1) :
    ∃ xs' lastId', LagState kc key group (s.apply ops) acked xs' lastId' := by
  obtain ⟨-, n, hle, hholds, found, m', hget, hmeta, hcounts⟩ := streamAdd_spec h.holds hwithin hrun hfits
  obtain ⟨found', hget', hgroups⟩ := streamAdd_groups h.holds hrun
  rw [hget] at hget'
  cases hget'
  have hlog := hholds.log
  rw [storedEntries_eq hlog, storedEntries_eq h.holds.log, List.length_append, List.length_drop] at hkeeps
  have hadd : (decide (options.trimOptions.strategy = .none) || shouldAdd options.trimOptions id) = true := by
    by_contra hadd
    rw [if_neg hadd, List.length_nil] at hkeeps
    omega
  rw [hadd] at hholds hkeeps hcounts hlog
  simp only [if_true, List.length_singleton] at hholds hkeeps hlog
  have hn : n = 0 := by omega
  subst hn
  rw [List.drop_zero] at hholds hlog
  obtain ⟨hadded, hdel⟩ := hcounts rfl rfl
  have hrecords : groupRecords (s.apply ops) kc key = groupRecords s kc key := by
    rw [hgroups]
    split_ifs with hnone
    · rw [Option.isNone_iff_eq_none.mp hnone] at hget
      exact (h.attached now hget).symm
    · rfl
  have hprev : (found.getD (.new 0 version)).entriesAdded.toNat = xs.length ∧
      (found.getD (.new 0 version)).maxDeletedEntryId = .min := by
    cases found with
    | none =>
      rcases h.holds.lookup now with ⟨-, -, -, rfl, -⟩ | ⟨m, hsome, -⟩
      · exact ⟨rfl, rfl⟩
      · rw [hget] at hsome
        cases hsome
    | some m => exact h.undeleted now m hget
  have hlen := Store.Fits.length_family_lt kc key .streamData hfits
  rw [hlog.length, List.length_append, List.length_singleton] at hlen
  refine ⟨_, _, hholds, undeleted_of_get hholds hmeta ?_ (hdel.trans hprev.2), ?_, ?_, ?_, ?_⟩
  · rw [hadded, UInt64.toNat_add, hprev.1, UInt64.toNat_one, Nat.mod_eq_of_lt hlen, List.length_append,
      List.length_singleton]
  · exact fun now' hnone => absurd hnone (hholds.found_ne_none hmeta now')
  · rw [hrecords]
    exact h.named
  · rw [hrecords]
    exact h.unread
  · rw [hrecords]
    exact fun g hstored => (h.reads g hstored).mono _

theorem LagState.length_lt {e : Engine} (h : LagState kc key group e.store acked xs lastId) :
    xs.length < 2 ^ 63 := by
  have hlen := Store.Fits.length_family_lt_signed kc key .streamData e.fits
  rwa [h.holds.log.length] at hlen

theorem LagState.call (h : LagState kc key group e.store acked xs lastId) (hallowed : c.Allowed group)
    (hexec : c.exec kc key e = .ok (reply, e')) (hkeeps : c.Keeps kc key e.store e'.store) :
    ∃ xs' lastId', LagState kc key group e'.store (acked || c.acks kc key group e.store) xs' lastId' := by
  obtain ⟨ops, hplan, hstore⟩ := Engine.exec_eq_ok hexec
  have hfits := e'.fits
  rw [hstore] at hkeeps hfits ⊢
  obtain ⟨now, version, command⟩ := c
  cases command with
  | xadd options fieldVals =>
    simp only [GroupCall.plan] at hplan
    obtain ⟨x, hrun, hx⟩ := map_eq_ok hplan
    cases hx
    simp only [GroupCall.acks, Bool.or_false]
    exact h.xadd hallowed hrun hfits hkeeps
  | xgroupCreate name lastIdText mkstream entriesRead =>
    simp only [GroupCall.plan] at hplan
    obtain ⟨x, hrun, hx⟩ := map_eq_ok hplan
    cases hx
    simp only [GroupCall.acks, Bool.or_false]
    exact ⟨xs, lastId, h.xgroupCreate hallowed hrun⟩
  | xreadgroup name consumer start count noack =>
    simp only [GroupCall.plan] at hplan
    obtain ⟨x, hrun, hx⟩ := map_eq_ok hplan
    cases hx
    exact ⟨xs, lastId, h.xreadgroup h.length_lt hrun⟩

theorem LagReachable.state (hr : LagReachable kc key group e₀ acked e)
    (hnew : ∀ slot : Slot, slot.Valid → e₀.store.at ⟨kc, key, slot⟩ = none) :
    ∃ xs lastId, LagState kc key group e.store acked xs lastId := by
  induction hr with
  | start =>
    have hholds := StreamHolds.of_new hnew
    have habsent : ∀ now m, getStreamMeta e₀.store kc key now ≠ .ok (some m) := by
      intro now m hget
      have hsome := hholds.get_of_found hget
      have hnone := hnew (.metadata .streamMeta) rfl
      rw [show e₀.store.at ⟨kc, key, .metadata .streamMeta⟩ =
        e₀.store.metadata.get (streamMetaKey kc key) from rfl, hsome] at hnone
      cases hnone
    have hempty : groupRecords e₀.store kc key = ∅ := SortedMap.ext_get fun suffix => by
      rw [Store.get_family, hnew (.sub .streamGroup suffix) rfl]
      rfl
    refine ⟨[], .min, hholds, fun now m hget => absurd hget (habsent now m), fun _ _ => hempty, ?_,
      fun _ => rfl, ?_⟩
    · rw [hempty]
      simp
    · rw [hempty]
      simp
  | call _ hallowed hexec hkeeps ih =>
    obtain ⟨xs, lastId, hstate⟩ := ih
    exact hstate.call hallowed hexec hkeeps

/-- In every state of a run that deletes nothing the lag reported for the group is exact or
unknown, if and only if no delivery to it was counted. -/
theorem lag_exact_iff (hnew : ∀ slot : Slot, slot.Valid → e₀.store.at ⟨kc, key, slot⟩ = none)
    (hr : LagReachable kc key group e₀ acked e) :
    LagExact e.store kc key group ↔ acked = false := by
  obtain ⟨xs, lastId, hstate⟩ := hr.state hnew
  cases acked with
  | false => exact iff_of_true (hstate.exact hstate.length_lt) rfl
  | true => exact iff_of_false (hstate.not_exact hstate.length_lt) (by simp)

def sampleCreate : GroupCall := ⟨1, 1, .xgroupCreate "g" "$" true none⟩

def sampleGroupAdd : GroupCall := ⟨2, 2, .xadd { nextIdStrategy := .fullySpecified ⟨5, 0⟩ } []⟩

def sampleDeliver (noack : Bool) : GroupCall := ⟨3, 3, .xreadgroup "g" "c" ">" none noack⟩

theorem lagReachable_sample (noack : Bool) :
    ∃ e, LagReachable ⟨0, 0⟩ sampleKey "g" .empty (!noack) e := by
  have hrun : ((sampleCreate.exec ⟨0, 0⟩ sampleKey .empty).bind fun x1 =>
      (sampleGroupAdd.exec ⟨0, 0⟩ sampleKey x1.2).bind fun x2 =>
      ((sampleDeliver noack).exec ⟨0, 0⟩ sampleKey x2.2).map fun _ =>
        ((storedEntries x1.2.store ⟨0, 0⟩ sampleKey).length,
          (storedEntries x2.2.store ⟨0, 0⟩ sampleKey).length,
          (sampleDeliver noack).acks ⟨0, 0⟩ sampleKey "g" x2.2.store)).toOption =
        some (0, 1, !noack) := by
    cases noack <;> decide +kernel
  obtain ⟨⟨r1, e1⟩, h1, hrun⟩ := exists_ok_of_toOption_bind hrun
  obtain ⟨⟨r2, e2⟩, h2, hrun⟩ := exists_ok_of_toOption_bind hrun
  obtain ⟨⟨r3, e3⟩, h3, heq⟩ := exists_ok_of_toOption_map hrun
  simp only [Prod.mk.injEq] at heq
  obtain ⟨hlen1, hlen2, hacks⟩ := heq
  have hkeeps : sampleGroupAdd.Keeps ⟨0, 0⟩ sampleKey e1.store e2.store := hlen2.trans (by rw [hlen1])
  have hstart : LagReachable ⟨0, 0⟩ sampleKey "g" .empty false .empty := .start
  have hreach1 := hstart.call (c := sampleCreate) (fun _ => rfl) h1 trivial
  have hreach2 := hreach1.call (c := sampleGroupAdd) (show (5 : UInt64) ≠ _ by decide) h2 hkeeps
  have hreach3 := hreach2.call (c := sampleDeliver noack) trivial h3 trivial
  rw [hacks] at hreach3
  exact ⟨e3, hreach3⟩

/-- A delivery without acknowledgement leaves the lag exact. -/
theorem lag_exact_iff_sample :
    ∃ e, LagReachable ⟨0, 0⟩ sampleKey "g" .empty false e ∧
      (LagExact e.store ⟨0, 0⟩ sampleKey "g" ↔ false = false) := by
  obtain ⟨e, hreach⟩ := lagReachable_sample true
  exact ⟨e, hreach, lag_exact_iff (fun slot _ => by cases slot <;> rfl) hreach⟩

/-- One counted delivery makes the lag of the group too large. -/
theorem lag_not_exact_of_delivery :
    ¬∀ acked e, LagReachable ⟨0, 0⟩ sampleKey "g" .empty acked e →
      LagExact e.store ⟨0, 0⟩ sampleKey "g" := by
  intro hclaim
  obtain ⟨e, hreach⟩ := lagReachable_sample false
  obtain ⟨xs, lastId, hstate⟩ := hreach.state fun slot _ => by cases slot <;> rfl
  exact hstate.not_exact hstate.length_lt (hclaim true e hreach)

end Wedb
