import Wedb.SortedInt.Queries

/-!
# Runs of sorted integer set commands

A call is a command on a key at a clock value, and its writes are committed
together. Every call of every run answers what the finite set of its key answers,
and the store keeps exactly the ids of the sets: a set without ids leaves nothing.
-/

namespace Wedb

/-- A command with its key, the clock it reads and the version it would generate. -/
structure SiCall where
  kc : KeyComposer
  key : Key
  nowMs : UInt64
  version : UInt64
  command : SiCommand

namespace SiCall

def plan (s : Store) (c : SiCall) : Except Error (SiReply × Batch) :=
  match c.command with
  | .siAdd ids => (siAdd s c.kc c.key c.nowMs c.version ids).map fun x => (.count x.1, x.2)
  | .siRem ids => (siRem s c.kc c.key c.nowMs ids).map fun x => (.count x.1, x.2)
  | .siRemRangeByValue spec =>
    (siRemRangeByValue s c.kc c.key c.nowMs spec).map fun x => (.count x.1, x.2)
  | .siRemRangeByRank start stop =>
    (siRemRangeByRank s c.kc c.key c.nowMs start stop).map fun x => (.count x.1, x.2)
  | .setKeyExpireAt expireAtMs cond =>
    let x := setKeyExpireAtImplWithCondition s c.kc c.key c.nowMs expireAtMs cond
    .ok (.flag x.1, x.2)
  | .siCard => (siCard s c.kc c.key c.nowMs).map fun n => (.count n.toNat, [])
  | .siExists id => (siExists s c.kc c.key c.nowMs id).map fun b => (.flag b, [])
  | .siMexist ids => (siMexist s c.kc c.key c.nowMs ids).map fun bs => (.flags bs, [])
  | .siMembers => (siMembers s c.kc c.key c.nowMs).map fun xs => (.ids xs, [])
  | .siRank id => (siRank s c.kc c.key c.nowMs id).map fun r => (.rank r, [])
  | .siRevrank id => (siRevrank s c.kc c.key c.nowMs id).map fun r => (.rank r, [])
  | .siCount spec => (siCount s c.kc c.key c.nowMs spec).map fun n => (.count n, [])
  | .siRangeByValue spec =>
    (siRangeByValue s c.kc c.key c.nowMs spec).map fun xs => (.ids xs, [])
  | .siRevRangeByValue spec =>
    (siRevRangeByValue s c.kc c.key c.nowMs spec).map fun xs => (.ids xs, [])
  | .siRange cursor offset limit reversed =>
    (siRange s c.kc c.key c.nowMs cursor offset limit reversed).map fun xs => (.ids xs, [])

def exec (e : Engine) (c : SiCall) : Except Error (SiReply × Engine) := e.exec (c.plan e.store)

end SiCall

/-- The finite set of every key. -/
abbrev IdSets := KeyComposer → Key → IdSet

def IdSets.after (S : IdSets) (c : SiCall) : IdSets := fun kc key =>
  if kc = c.kc ∧ key = c.key then ((S kc key).run c.nowMs c.command).2 else S kc key

/-- The runs from the empty store, with the finite sets the same commands leave. -/
inductive SiRun : Engine → IdSets → Prop
  | start : SiRun .empty fun _ _ => .empty
  | call {e e' : Engine} {S : IdSets} {c : SiCall} {reply : SiReply} : SiRun e S →
      c.exec e = .ok (reply, e') → SiRun e' (S.after c)

/-- The stored ids and metadata are those of the set, and a key without ids is gone. -/
structure SiAgrees (s : Store) (kc : KeyComposer) (key : Key) (S : IdSet) : Prop where
  items : (s.family kc key .sortedIntData).entries =
    (IdSet.inOrder S.ids).map fun id => (encodeBeU64 id, [])
  size : S.ids ≠ ∅ → ∃ m : SortedintMeta,
    s.metadata.get (composeSiMetaKey kc key) = some m.encode ∧
      m.base.size.toNat = S.ids.card ∧ m.base.expireAt = S.expireAt
  gone : S.ids = ∅ → s.metadata.get (composeSiMetaKey kc key) = none ∧
    (s.family kc key .sortedIntData).entries = []
  live : ∀ now, existsOne s kc key now = true ↔ S.live now ≠ ∅

variable {s : Store} {kc : KeyComposer} {key : Key} {S : IdSet} {now : UInt64} {e e' : Engine}
  {Ss : IdSets}

/-! ## Expiry -/

theorem SiHolds.findActive (h : SiHolds s kc key S) (now : UInt64) :
    (S.live now = ∅ ∧ findActiveCompositeMeta s kc key now = none) ∨
    (S.live now = S.ids ∧ S.ids ≠ ∅ ∧ ∃ m : SortedintMeta,
      findActiveCompositeMeta s kc key now = some (.sortedIntMeta, m.base, m.encode) ∧
        SiLayout m S) := by
  rw [h.only.findActive (by decide) now, liveMeta_eq_at]
  by_cases hids : S.ids = ∅
  · have hat : s.at ⟨kc, key, .metadata .sortedIntMeta⟩ = none := (h.absent hids).1
    refine Or.inl ⟨?_, ?_⟩
    · rw [IdSet.live, hids, ite_self]
    · rw [hat]
      rfl
  · obtain ⟨m, hget, hl⟩ := h.present hids
    have hat : s.at ⟨kc, key, .metadata .sortedIntMeta⟩ = some m.base.encode := hget
    rw [hat, Option.bind_some, KeyMeta.decode_encode, Option.map_some]
    by_cases hlive : S.expireAt = 0 ∨ now < S.expireAt
    · have hexp : m.base.isExpired now = false :=
        SimpleMeta.isExpired_eq_false (hl.size_ne_zero hids) (hl.expireAt ▸ hlive)
      refine Or.inr ⟨if_pos hlive, hids, m, ?_, hl⟩
      rw [Option.filter_some_pos (by simpa using hexp)]
      rfl
    · rw [not_or, UInt64.not_lt] at hlive
      have hexp : m.base.isExpired now = true :=
        SimpleMeta.isExpired_eq_true (hl.expireAt ▸ hlive.1) (hl.expireAt ▸ hlive.2)
      refine Or.inl ⟨if_neg fun hor => ?_, ?_⟩
      · exact hor.elim hlive.1 fun hlt => absurd hlt (UInt64.not_lt.mpr hlive.2)
      · rw [Option.filter_some_neg (by simpa using hexp)]
        rfl

theorem setKeyExpireAt_spec (h : SiHolds s kc key S) (now expireAtMs : UInt64)
    (cond : ExpireCondition) : ∃ ops, setKeyExpireAtImplWithCondition s kc key now expireAtMs cond =
        ((S.withExpiry now expireAtMs cond).1, ops) ∧
      SiLeaves s kc key ops (S.withExpiry now expireAtMs cond).2 := by
  rw [setKeyExpireAtImplWithCondition, liveString_of_at_none h.only.str, IdSet.withExpiry]
  rcases h.findActive now with ⟨hdead, hfind⟩ | ⟨hlive, hne, m, hfind, hl⟩
  · rw [hfind, if_pos (Or.inl hdead)]
    exact ⟨[], rfl, h.leaves_nil⟩
  have hpatch : patchExpireAt m.encode expireAtMs = some { m.base with expireAt := expireAtMs }.encode := by
    have happend := patchExpireAt_encode m.base [] expireAtMs
    rwa [List.append_nil, List.append_nil] at happend
  have hset : S.live now ≠ ∅ := hlive ▸ hne
  rw [hfind]
  simp only [hl.expireAt, hpatch]
  by_cases hboth : expireAtMs = 0 ∧ S.expireAt = 0
  · rw [if_pos hboth, if_pos (Or.inr (Or.inl hboth))]
    exact ⟨[], rfl, h.leaves_nil⟩
  by_cases hupdate : cond.shouldUpdate S.expireAt expireAtMs = false
  · rw [if_neg hboth, if_pos (by simpa using hupdate), if_pos (Or.inr (Or.inr hupdate))]
    exact ⟨[], rfl, h.leaves_nil⟩
  · rw [if_neg hboth, if_neg (by simpa using hupdate), if_neg (by tauto)]
    refine ⟨_, rfl, ?_, fun _ => ?_⟩
    · exact fun o ho => (List.mem_singleton.mp ho) ▸ ownedBy_siMeta rfl rfl
    · have hl' : SiLayout ⟨{ m.base with expireAt := expireAtMs }⟩ ⟨S.ids, expireAtMs⟩ :=
        ⟨hl.rtype, rfl, hl.size⟩
      have hrep : SiRep (s.apply []) kc key S.ids := h.rep
      exact .commit_insert h.only (fun _ ho => (List.not_mem_nil ho).elim) hrep hl' hne

theorem SiHolds.agrees (h : SiHolds s kc key S) : SiAgrees s kc key S := by
  refine ⟨h.rep.family_entries, fun hne => ?_, fun h0 => ⟨(h.absent h0).1, ?_⟩, fun now => ?_⟩
  · obtain ⟨m, hget, hl⟩ := h.present hne
    exact ⟨m, hget, hl.size, hl.expireAt⟩
  · rw [h.rep.family_entries, h0, show IdSet.inOrder ∅ = [] from Finset.sort_empty (· ≤ ·), List.map_nil]
  · rw [existsOne, liveString_of_at_none h.only.str]
    rcases h.findActive now with ⟨hdead, hfind⟩ | ⟨hlive, hne, m, hfind, -⟩
    · rw [hfind]
      exact iff_of_false Bool.false_ne_true fun hne => hne hdead
    · rw [hfind, hlive]
      exact iff_of_true rfl hne

/-! ## Steps and runs -/

theorem SiCall.plan_spec (hsmall : S.ids.card < 2 ^ 63) (c : SiCall) (h : SiHolds s c.kc c.key S) :
    ∃ ops, c.plan s = .ok ((S.run c.nowMs c.command).1, ops) ∧
      SiLeaves s c.kc c.key ops (S.run c.nowMs c.command).2 := by
  obtain ⟨kc, key, now, version, command⟩ := c
  have hcounted : ∀ {plan : Except Error (ℕ × Batch)} {n : ℕ} {S' : IdSet},
      (∃ ops, plan = .ok (n, ops) ∧ SiLeaves s kc key ops S') →
      ∃ ops, plan.map (fun x => (SiReply.count x.1, x.2)) = .ok (.count n, ops) ∧
        SiLeaves s kc key ops S' := by
    intro plan n S' ⟨ops, hplan, hleaves⟩
    exact ⟨ops, by rw [hplan]; rfl, hleaves⟩
  have hquery : ∀ {α : Type} {query : Except Error α} {a : α} (reply : α → SiReply), query = .ok a →
      ∃ ops, query.map (fun x => (reply x, ([] : Batch))) = .ok (reply a, ops) ∧
        SiLeaves s kc key ops S := by
    intro α query a reply hread
    exact ⟨[], by rw [hread]; rfl, h.leaves_nil⟩
  cases command with
  | siAdd ids => exact hcounted (siAdd_spec h now version ids)
  | siRem ids => exact hcounted (siRem_spec h now ids)
  | siRemRangeByValue spec => exact hcounted (siRemRangeByValue_spec h now spec)
  | siRemRangeByRank start stop => exact hcounted (siRemRangeByRank_spec h hsmall now start stop)
  | setKeyExpireAt expireAtMs cond =>
    obtain ⟨ops, hplan, hleaves⟩ := setKeyExpireAt_spec h now expireAtMs cond
    refine ⟨ops, ?_, hleaves⟩
    simp only [plan, hplan, IdSet.run]
  | siCard =>
    obtain ⟨size, hplan, hsize⟩ := siCard_spec h now
    refine ⟨[], ?_, h.leaves_nil⟩
    simp only [plan, hplan, IdSet.run, Except.map, hsize]
  | siExists id => exact hquery .flag (siExists_spec h now id)
  | siMexist ids => exact hquery .flags (siMexist_spec h now ids)
  | siMembers => exact hquery .ids (siMembers_spec h now)
  | siRank id => exact hquery .rank (siRank_spec h now id)
  | siRevrank id => exact hquery .rank (siRevrank_spec h now id)
  | siCount spec => exact hquery .count (siCount_spec h now spec)
  | siRangeByValue spec => exact hquery .ids (siRangeByValue_spec h now spec)
  | siRevRangeByValue spec => exact hquery .ids (siRevRangeByValue_spec h now spec)
  | siRange cursor offset limit reversed =>
    exact hquery .ids (siRange_spec h now cursor offset limit reversed)

theorem SiHolds.card_lt (h : SiHolds e.store kc key S) : S.ids.card < 2 ^ 63 := by
  rw [← h.rep.length_family]
  exact e.fits.length_family_lt_signed kc key .sortedIntData

theorem SiCall.exec_holds {c : SiCall} {reply : SiReply} (hexec : c.exec e = .ok (reply, e'))
    (h : ∀ kc key, SiHolds e.store kc key (Ss kc key)) (kc : KeyComposer) (key : Key) :
    SiHolds e'.store kc key (Ss.after c kc key) := by
  obtain ⟨ops, hplan, hstore⟩ := Engine.exec_eq_ok hexec
  obtain ⟨ops', hplan', hleaves⟩ := c.plan_spec (h c.kc c.key).card_lt (h c.kc c.key)
  rw [hplan] at hplan'
  cases hplan'
  have hfits := e'.fits
  rw [hstore] at hfits ⊢
  rw [IdSets.after]
  by_cases hself : kc = c.kc ∧ key = c.key
  · obtain ⟨rfl, rfl⟩ := hself
    rw [if_pos ⟨rfl, rfl⟩]
    exact hleaves.holds hfits
  · rw [if_neg hself]
    exact (h kc key).of_local (fun o ho => (hleaves.owned o ho).localTo) hself

theorem SiRun.holds (hr : SiRun e Ss) : ∀ kc key, SiHolds e.store kc key (Ss kc key) := by
  induction hr with
  | start => exact siHolds_empty
  | call _ hexec ih => exact SiCall.exec_holds hexec ih

/-- After every run the store keeps the finite sets, and every call answers as they do. -/
theorem sortedInt_refines_finite_sets (hr : SiRun e Ss) :
    (∀ kc key, SiAgrees e.store kc key (Ss kc key)) ∧
    ∀ c : SiCall, ∃ ops,
      c.plan e.store = .ok (((Ss c.kc c.key).run c.nowMs c.command).1, ops) := by
  refine ⟨fun kc key => (hr.holds kc key).agrees, fun c => ?_⟩
  obtain ⟨ops, hplan, -⟩ := c.plan_spec (hr.holds c.kc c.key).card_lt (hr.holds c.kc c.key)
  exact ⟨ops, hplan⟩

def sampleSiAdd : SiCall := ⟨⟨0, 0⟩, sampleKey, 1, 1, .siAdd [5, 3, 5]⟩

def sampleSiRank : SiCall := ⟨⟨0, 0⟩, sampleKey, 2, 2, .siRank 5⟩

theorem sortedInt_refines_finite_sets_sample :
    ∃ e Ss, SiRun e Ss ∧ ∃ ops, sampleSiRank.plan e.store = .ok (.rank (some 1), ops) := by
  have hrun : ((sampleSiAdd.exec .empty).map fun x => x.1).toOption = some (.count 2) := by
    decide +kernel
  obtain ⟨⟨reply, e⟩, hexec, -⟩ := exists_ok_of_toOption_map hrun
  have hreach := SiRun.start.call hexec
  have hrank : ((IdSets.after (fun _ _ => .empty) sampleSiAdd sampleSiRank.kc sampleSiRank.key).run
      sampleSiRank.nowMs sampleSiRank.command).1 = .rank (some 1) := by
    decide
  obtain ⟨ops, hplan⟩ := (sortedInt_refines_finite_sets hreach).2 sampleSiRank
  rw [hrank] at hplan
  exact ⟨e, _, hreach, ops, hplan⟩

end Wedb
