import Wedb.Core.Isolation

/-!
# Automatic ids

A session is a run of opens, removals and writes through open handles. Explicit
ids leave the counters alone and removing a namespace resets its database
counter, so an automatic id is fresh as long as explicit ids stay below their
counter and no handle is used after its namespace was removed.
-/

namespace Wedb

structure Session where
  engine : Engine
  nsOpen : List UInt64
  dbOpen : List KeyComposer

inductive Call
  | ns (id : Option UInt64)
  | db (nsId : UInt64) (id : Option UInt64)
  | nsRm (nsId : UInt64)
  | dbRm (kc : KeyComposer)
  | write (kc : KeyComposer) (b : Batch)

inductive Reply
  | ns (id : UInt64)
  | db (kc : KeyComposer)
  | removed (n : UInt64)
  | done
  deriving DecidableEq

namespace Session

def new : Session := ⟨wedbNew Engine.empty, [], []⟩

def step (s : Session) : Call → Session × Except Error Reply
  | .ns id =>
    match ns s.engine id with
    | (.ok n, e) => ({ s with engine := e, nsOpen := n :: s.nsOpen }, .ok (.ns n))
    | (.error err, e) => ({ s with engine := e }, .error err)
  | .db nsId id =>
    match db s.engine nsId id with
    | (.ok kc, e) => ({ s with engine := e, dbOpen := kc :: s.dbOpen }, .ok (.db kc))
    | (.error err, e) => ({ s with engine := e }, .error err)
  | .nsRm nsId =>
    match namespaceRmImpl s.engine nsId with
    | .ok (n, e) =>
      ({ s with engine := e, dbOpen := s.dbOpen.filter fun kc => kc.nsId ≠ nsId },
        .ok (.removed n))
    | .error err => (s, .error err)
  | .dbRm kc =>
    match dbRmImpl s.engine kc.nsId kc.db with
    | .ok (n, e) => ({ s with engine := e }, .ok (.removed n))
    | .error err => (s, .error err)
  | .write _ b =>
    match s.engine.commit b with
    | .ok e => ({ s with engine := e }, .ok .done)
    | .error err => (s, .error err)

def nsCounter (s : Session) : UInt64 := nextId s.engine.store nsNextIdKey

def dbCounter (s : Session) (nsId : UInt64) : UInt64 := nextId s.engine.store (dbNextIdKey nsId)

/-- Explicit ids are `0` or below their counter, handles are open ones, and no
counter is exhausted. -/
def Admits (s : Session) : Call → Prop
  | .ns (some n) => n = 0 ∨ n < s.nsCounter
  | .ns none => s.nsCounter ≠ -1
  | .db nsId (some d) => nsId ∈ s.nsOpen ∧ (d = 0 ∨ d < s.dbCounter nsId)
  | .db nsId none => nsId ∈ s.nsOpen ∧ s.dbCounter nsId ≠ -1
  | .nsRm nsId => nsId ∈ s.nsOpen
  | .dbRm kc => kc ∈ s.dbOpen
  | .write kc b => kc ∈ s.dbOpen ∧ ∀ o ∈ b, ComposedIn kc o.key

end Session

/-! ## Counters -/

theorem nextId_congr {s t : Store} {key : Bytes} (h : t.metadata.get key = s.metadata.get key) :
    nextId t key = nextId s key := by
  rw [nextId, nextId, h]

theorem nextId_erased {s : Store} {key : Bytes} (h : s.metadata.get key = none) :
    nextId s key = 1 := by
  simp [nextId, h]

def Below (s : Store) (kc : KeyComposer) : Prop :=
  (kc.nsId = 0 ∨ kc.nsId < nextId s nsNextIdKey) ∧
    (kc.db = 0 ∨ kc.db < nextId s (dbNextIdKey kc.nsId))

structure IdsInv (s : Store) (nsOpen : List UInt64) (dbOpen : List KeyComposer) : Prop where
  composed : Scoped s
  nsPos : 0 < nextId s nsNextIdKey
  dbPos : ∀ n, 0 < nextId s (dbNextIdKey n)
  owned : ∀ p k v kc, (s.part p).get k = some v → ComposedIn kc k → Below s kc
  registered : ∀ n d, Registered s n d → Below s ⟨n, d⟩
  nsOpen : ∀ n ∈ nsOpen, n = 0 ∨ n < nextId s nsNextIdKey
  dbOpen : ∀ kc ∈ dbOpen, Below s kc

theorem le_of_below {a c d : UInt64} (h : a = 0 ∨ a < c) (hcd : c ≤ d) : a = 0 ∨ a < d :=
  h.imp_right fun hlt => UInt64.lt_of_lt_of_le hlt hcd

theorem Below.mono {s t : Store} {kc : KeyComposer} (h : Below s kc)
    (hns : nextId s nsNextIdKey ≤ nextId t nsNextIdKey)
    (hdb : nextId s (dbNextIdKey kc.nsId) ≤ nextId t (dbNextIdKey kc.nsId)) : Below t kc :=
  ⟨le_of_below h.1 hns, le_of_below h.2 hdb⟩

theorem IdsInv.mono {s t : Store} {nsOpen : List UInt64} {dbOpen : List KeyComposer}
    (h : IdsInv s nsOpen dbOpen) (hscoped : Scoped t)
    (hns : nextId s nsNextIdKey ≤ nextId t nsNextIdKey)
    (hdb : ∀ n, nextId s (dbNextIdKey n) ≤ nextId t (dbNextIdKey n))
    (howned : ∀ p k v kc, (t.part p).get k = some v → ComposedIn kc k →
      (∃ w, (s.part p).get k = some w) ∨ Below t kc)
    (hreg : ∀ n d, Registered t n d → Registered s n d ∨ Below t ⟨n, d⟩) :
    IdsInv t nsOpen dbOpen where
  composed := hscoped
  nsPos := UInt64.lt_of_lt_of_le h.nsPos hns
  dbPos n := UInt64.lt_of_lt_of_le (h.dbPos n) (hdb n)
  owned p k v kc hk hc := by
    rcases howned p k v kc hk hc with ⟨w, hw⟩ | hb
    · exact (h.owned p k w kc hw hc).mono hns (hdb _)
    · exact hb
  registered n d hr := by
    rcases hreg n d hr with hs | hb
    · exact (h.registered n d hs).mono hns (hdb _)
    · exact hb
  nsOpen n hn := le_of_below (h.nsOpen n hn) hns
  dbOpen kc hkc := (h.dbOpen kc hkc).mono hns (hdb _)


theorem catalogDbKey_ne_nsNextIdKey (n d : UInt64) : catalogDbKey n d ≠ nsNextIdKey := fun h =>
  not_catalogPrefix_nsNextIdKey (h ▸ (SystemKey.catalogPrefix_iff (.catalog n d)).mpr ⟨n, d, rfl⟩)

theorem catalogDbKey_ne_dbNextIdKey (n d m : UInt64) : catalogDbKey n d ≠ dbNextIdKey m := fun h =>
  not_catalogPrefix_dbNextIdKey m
    (h ▸ (SystemKey.catalogPrefix_iff (.catalog n d)).mpr ⟨n, d, rfl⟩)

section Steps
variable {s : Store} {nsOpen : List UInt64} {dbOpen : List KeyComposer}

theorem part_apply_write {b : Batch} {kc : KeyComposer} (hb : ∀ o ∈ b, ComposedIn kc o.key)
    {p : Partition} {k : Bytes} (hk : ¬ComposedIn kc k) :
    ((s.apply b).part p).get k = (s.part p).get k :=
  Store.part_apply_get_of_forall_ne fun o ho hc => hk (hc.2 ▸ hb o ho)

theorem IdsInv.write (h : IdsInv s nsOpen dbOpen) {b : Batch} {kc : KeyComposer}
    (hkc : kc ∈ dbOpen) (hb : ∀ o ∈ b, ComposedIn kc o.key) :
    IdsInv (s.apply b) nsOpen dbOpen := by
  have hsys : ∀ k, SystemKey k → (s.apply b).metadata.get k = s.metadata.get k := fun k hk =>
    part_apply_write (p := .metadata) hb fun hc => hc.not_system hk
  have hns := nextId_congr (hsys _ .nsNextId)
  have hdb := fun n => nextId_congr (hsys _ (.dbNextId n))
  refine h.mono (h.composed.apply fun o ho _ => Or.inl ⟨kc, hb o ho⟩) hns.ge
    (fun n => (hdb n).ge) (fun p k v kc' hk hc => ?_) (fun n d hr => ?_)
  · by_cases hin : ComposedIn kc k
    · obtain rfl : kc = kc' := hc.scope_prefix_iff.mp (hin.scope_prefix_iff.mpr rfl)
      exact Or.inr ((h.dbOpen kc hkc).mono hns.ge (hdb _).ge)
    · rw [part_apply_write hb hin] at hk
      exact Or.inl ⟨v, hk⟩
  · obtain ⟨w, hw⟩ := SortedMap.mem_keys.mp hr
    rw [hsys _ (.catalog n d)] at hw
    exact Or.inl (SortedMap.mem_keys.mpr ⟨w, hw⟩)

theorem IdsInv.dbRm (h : IdsInv s nsOpen dbOpen) {t : Store} {n d : UInt64}
    (ht : ∀ p k v, (t.part p).get k = some v ↔
      (s.part p).get k = some v ∧ ¬ComposedIn ⟨n, d⟩ k ∧
        ¬(p = .metadata ∧ k = catalogDbKey n d)) : IdsInv t nsOpen dbOpen := by
  have hget : ∀ k, SystemKey k → k ≠ catalogDbKey n d → t.metadata.get k = s.metadata.get k := by
    intro k hk hne
    refine Option.ext fun v => (ht .metadata k v).trans (and_iff_left ?_)
    exact ⟨fun hc => hc.not_system hk, fun hc => hne hc.2⟩
  have hns := nextId_congr (hget _ .nsNextId (catalogDbKey_ne_nsNextIdKey n d).symm)
  have hdb := fun m =>
    nextId_congr (hget _ (.dbNextId m) (catalogDbKey_ne_dbNextIdKey n d m).symm)
  refine h.mono (h.composed.of_get fun p k v hk => ((ht p k v).mp hk).1) hns.ge
    (fun m => (hdb m).ge) (fun p k v kc hk _ => Or.inl ⟨v, ((ht p k v).mp hk).1⟩) (fun m f hr => ?_)
  obtain ⟨w, hw⟩ := SortedMap.mem_keys.mp hr
  exact Or.inl (SortedMap.mem_keys.mpr ⟨w, ((ht .metadata _ w).mp hw).1⟩)

/-- A namespace removal resets its database counter; nothing below it remains. -/
theorem IdsInv.nsRm (h : IdsInv s nsOpen dbOpen) {t : Store} {n : UInt64}
    (ht : ∀ p k v, (t.part p).get k = some v ↔
      (s.part p).get k = some v ∧ (¬∃ d, ComposedIn ⟨n, d⟩ k) ∧
        ¬(p = .metadata ∧ ((∃ d, k = catalogDbKey n d) ∨ k = dbNextIdKey n))) :
    IdsInv t nsOpen (dbOpen.filter fun kc => kc.nsId ≠ n) := by
  have hget : ∀ k, SystemKey k → (¬∃ d, k = catalogDbKey n d) → k ≠ dbNextIdKey n →
      t.metadata.get k = s.metadata.get k := by
    intro k hk hcat hne
    refine Option.ext fun v => (ht .metadata k v).trans (and_iff_left ?_)
    exact ⟨fun ⟨d, hc⟩ => hc.not_system hk, fun hc => hc.2.elim hcat hne⟩
  have hns : nextId t nsNextIdKey = nextId s nsNextIdKey :=
    nextId_congr (hget _ .nsNextId (fun ⟨d, hd⟩ => catalogDbKey_ne_nsNextIdKey n d hd.symm)
      (dbNextIdKey_ne_nsNextIdKey n).symm)
  have hdb : ∀ m, m ≠ n → nextId t (dbNextIdKey m) = nextId s (dbNextIdKey m) := fun m hm =>
    nextId_congr (hget _ (.dbNextId m) (fun ⟨d, hd⟩ => catalogDbKey_ne_dbNextIdKey n d m hd.symm)
      fun he => hm (dbNextIdKey_injective he))
  have hreset : nextId t (dbNextIdKey n) = 1 := by
    refine nextId_erased (Option.eq_none_iff_forall_ne_some.mpr fun v hv => ?_)
    exact ((ht .metadata _ v).mp hv).2.2 ⟨rfl, Or.inr rfl⟩
  have hbelow : ∀ kc : KeyComposer, Below s kc → kc.nsId ≠ n → Below t kc := fun kc hb hne =>
    hb.mono hns.ge (hdb _ hne).ge
  refine ⟨h.composed.of_get fun p k v hk => ((ht p k v).mp hk).1, hns ▸ h.nsPos, fun m => ?_,
    fun p k v kc hk hc => ?_, fun m d hr => ?_, fun m hm => hns ▸ h.nsOpen m hm, fun kc hkc => ?_⟩
  · by_cases hm : m = n
    · rw [hm, hreset]
      decide
    · exact hdb m hm ▸ h.dbPos m
  · obtain ⟨hs, hnot, -⟩ := (ht p k v).mp hk
    exact hbelow kc (h.owned p k v kc hs hc) fun he => hnot ⟨kc.db, he ▸ hc⟩
  · obtain ⟨w, hw⟩ := SortedMap.mem_keys.mp hr
    obtain ⟨hs, -, hcat⟩ := (ht .metadata _ w).mp hw
    refine hbelow ⟨m, d⟩ (h.registered m d (SortedMap.mem_keys.mpr ⟨w, hs⟩)) fun he => ?_
    exact hcat ⟨rfl, Or.inl ⟨d, by rw [show m = n from he]⟩⟩
  · obtain ⟨hmem, hne⟩ := List.mem_filter.mp hkc
    exact hbelow kc (h.dbOpen kc hmem) (by simpa using hne)

end Steps

/-! ## Steps and runs -/

section Open
variable {e : Engine} {nsOpen : List UInt64} {dbOpen : List KeyComposer}

end Open

namespace Session

def Inv (s : Session) : Prop := IdsInv s.engine.store s.nsOpen s.dbOpen

def after : Session → List Call → Session
  | s, [] => s
  | s, c :: cs => after (s.step c).1 cs

def replies : Session → List Call → List (Except Error Reply)
  | _, [] => []
  | s, c :: cs => (s.step c).2 :: replies (s.step c).1 cs

end Session

end Wedb
