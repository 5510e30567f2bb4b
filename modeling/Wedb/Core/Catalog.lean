import Wedb.Engine.Store
import Wedb.KeyComposer.Ns

/-!
# Namespaces and databases

Opening, numbering, removing and listing the databases of a store. An id comes
from a counter or from the caller; the catalog holds one entry for each active
database, and a removal scans the physical prefix of what it removes.
-/

namespace Wedb

/-- The outcome of an operation with several commits: a failure keeps the
commits made before it. -/
abbrev Outcome (α : Type) := Except Error α × Engine

def clearKsPrefix (s : Store) (p : Partition) (pre : Bytes) : Batch × UInt64 :=
  (s.rmPrefixed p pre, UInt64.ofNat (s.rmPrefixed p pre).length)

def activateDbImpl (e : Engine) (nsId dbId : UInt64) : Except Error Engine :=
  e.commit [.insertMeta (catalogDbKey nsId dbId) []]

def nextId (s : Store) (key : Bytes) : UInt64 :=
  match (s.metadata.get key).bind decodeOppvU64 with
  | some (v, _) => v
  | none => 1

def nextNamespaceIdImpl (e : Engine) : Except Error (UInt64 × Engine) := do
  let currentId := nextId e.store nsNextIdKey
  let e' ← e.commit [.insertMeta nsNextIdKey (encodeOppvU64 (currentId + 1))]
  return (currentId, e')

def nextDbIdImpl (e : Engine) (nsId : UInt64) : Except Error (UInt64 × Engine) := do
  let currentId := nextId e.store (dbNextIdKey nsId)
  let e' ← e.commit [.insertMeta (dbNextIdKey nsId) (encodeOppvU64 (currentId + 1))]
  return (currentId, e')

def ns (e : Engine) (id : Option UInt64) : Outcome UInt64 :=
  match id with
  | some id => (.ok id, e)
  | none =>
    match nextNamespaceIdImpl e with
    | .error err => (.error err, e)
    | .ok (newId, e1) =>
      match activateDbImpl e1 newId 0 with
      | .error err => (.error err, e1)
      | .ok e2 => (.ok newId, e2)

def db (e : Engine) (nsId : UInt64) (id : Option UInt64) : Outcome KeyComposer :=
  let allocated : Except Error (UInt64 × Engine) :=
    match id with
    | some id => .ok (id, e)
    | none => nextDbIdImpl e nsId
  match allocated with
  | .error err => (.error err, e)
  | .ok (dbId, e1) =>
    match activateDbImpl e1 nsId dbId with
    | .error err => (.error err, e1)
    | .ok e2 => (.ok ⟨nsId, dbId⟩, e2)

def dbRmImpl (e : Engine) (nsId dbId : UInt64) : Except Error (UInt64 × Engine) := do
  let pre := (KeyComposer.mk nsId dbId).encodeScopePrefix
  let (dataOps, dataCount) := clearKsPrefix e.store .data pre
  let (metaOps, metaCount) := clearKsPrefix e.store .metadata pre
  let e' ← e.commit (dataOps ++ metaOps ++ [.rmMeta (catalogDbKey nsId dbId)])
  return (dataCount + metaCount, e')

def namespaceRmImpl (e : Engine) (nsId : UInt64) : Except Error (UInt64 × Engine) := do
  let pre := KeyComposer.nsPrefix nsId
  let (dataOps, dataCount) := clearKsPrefix e.store .data pre
  let (metaOps, metaCount) := clearKsPrefix e.store .metadata pre
  let (catalogOps, _) := clearKsPrefix e.store .metadata (catalogNsPrefix nsId)
  let e' ← e.commit (dataOps ++ metaOps ++ catalogOps ++ [.rmMeta (dbNextIdKey nsId)])
  return (dataCount + metaCount, e')

/-- Opening a store registers the default database; a failure to do so is dropped. -/
def wedbNew (e : Engine) : Engine :=
  match activateDbImpl e 0 0 with
  | .ok e' => e'
  | .error _ => e

def rangeFrom (m : SortedMap Bytes Bytes) (start : Bytes) : List (Bytes × Bytes) :=
  m.entries.filter fun x => decide (start ≤ x.1)

def namespacesNext (lastEmittedNs : Option UInt64) : List (Bytes × Bytes) → List UInt64
  | [] => []
  | x :: rest =>
    if ¬catalogPrefix <+: x.1 then []
    else
      match decodeOppvU64 (x.1.drop catalogPrefix.length) with
      | some (nsId, _) =>
        if some nsId ≠ lastEmittedNs then nsId :: namespacesNext (some nsId) rest
        else namespacesNext lastEmittedNs rest
      | none => namespacesNext lastEmittedNs rest

def namespaces (s : Store) (start : UInt64) : List UInt64 :=
  let startKey := if start = 0 then catalogPrefix else catalogNsPrefix start
  namespacesNext none (rangeFrom s.metadata startKey)

def dbsNext (pre : Bytes) : List (Bytes × Bytes) → List UInt64
  | [] => []
  | x :: rest =>
    if ¬pre <+: x.1 then []
    else
      match decodeOppvU64 (x.1.drop pre.length) with
      | some (dbId, _) => dbId :: dbsNext pre rest
      | none => dbsNext pre rest

def dbs (s : Store) (nsId start : UInt64) : List UInt64 :=
  let startKey := if start = 0 then catalogNsPrefix nsId else catalogDbKey nsId start
  dbsNext (catalogNsPrefix nsId) (rangeFrom s.metadata startKey)

/-! ## The stores these operations meet -/

/-- Every physical key is composed in some scope or is a system key. -/
structure Scoped (s : Store) : Prop where
  data : ∀ k ∈ s.data.keys, ∃ kc, ComposedIn kc k
  metadata : ∀ k ∈ s.metadata.keys, (∃ kc, ComposedIn kc k) ∨ SystemKey k

def Registered (s : Store) (nsId dbId : UInt64) : Prop :=
  catalogDbKey nsId dbId ∈ s.metadata.keys

instance (s : Store) (nsId dbId : UInt64) : Decidable (Registered s nsId dbId) :=
  inferInstanceAs (Decidable (_ ∈ _))

theorem scoped_empty : Scoped ∅ :=
  ⟨fun k hk => absurd hk (by simp [SortedMap.mem_keys]),
    fun k hk => absurd hk (by simp [SortedMap.mem_keys])⟩

theorem Scoped.key {s : Store} (h : Scoped s) {p : Partition} {k v : Bytes}
    (hk : (s.part p).get k = some v) : (∃ kc, ComposedIn kc k) ∨ p = .metadata ∧ SystemKey k := by
  cases p with
  | data => exact Or.inl (h.data k (SortedMap.mem_keys.mpr ⟨v, hk⟩))
  | metadata => exact (h.metadata k (SortedMap.mem_keys.mpr ⟨v, hk⟩)).imp_right fun hs => ⟨rfl, hs⟩

theorem scoped_of_key {s : Store} (h : ∀ p k v, (s.part p).get k = some v →
    (∃ kc, ComposedIn kc k) ∨ p = .metadata ∧ SystemKey k) : Scoped s := by
  constructor
  · intro k hk
    obtain ⟨v, hv⟩ := SortedMap.mem_keys.mp hk
    exact (h .data k v hv).resolve_right fun hc => absurd hc.1 (by decide)
  · intro k hk
    obtain ⟨v, hv⟩ := SortedMap.mem_keys.mp hk
    exact (h .metadata k v hv).imp_right And.right

theorem Scoped.of_get {s t : Store} (h : Scoped s)
    (hst : ∀ p k v, (t.part p).get k = some v → (s.part p).get k = some v) : Scoped t :=
  scoped_of_key fun p k v hk => h.key (hst p k v hk)

theorem Scoped.applyOp {s : Store} (h : Scoped s) {o : WriteOp}
    (ho : o.value ≠ none → (∃ kc, ComposedIn kc o.key) ∨ o.partition = .metadata ∧ SystemKey o.key) :
    Scoped (s.applyOp o) := by
  refine scoped_of_key fun p k v hk => ?_
  rw [Store.part_applyOp_get] at hk
  split_ifs at hk with hcond
  · obtain ⟨rfl, rfl⟩ := hcond
    exact ho (by simp [hk])
  · exact h.key hk

theorem Scoped.apply {s : Store} (h : Scoped s) {b : Batch}
    (hb : ∀ o ∈ b, o.value ≠ none →
      (∃ kc, ComposedIn kc o.key) ∨ o.partition = .metadata ∧ SystemKey o.key) :
    Scoped (s.apply b) := by
  induction b generalizing s with
  | nil => exact h
  | cons o b ih =>
    exact ih (h.applyOp (hb o (by simp))) fun x hx => hb x (List.mem_cons_of_mem _ hx)

theorem activateDbImpl_store {e e' : Engine} {nsId dbId : UInt64}
    (h : activateDbImpl e nsId dbId = .ok e') :
    e'.store = e.store.applyOp (.insertMeta (catalogDbKey nsId dbId) []) :=
  Engine.commit_eq_ok h

theorem Scoped.activateDbImpl {e e' : Engine} (h : Scoped e.store) {nsId dbId : UInt64}
    (he : activateDbImpl e nsId dbId = .ok e') : Scoped e'.store := by
  rw [activateDbImpl_store he]
  exact h.applyOp fun _ => Or.inr ⟨rfl, .catalog nsId dbId⟩

theorem Scoped.wedbNew {e : Engine} (h : Scoped e.store) : Scoped (wedbNew e).store := by
  unfold Wedb.wedbNew
  split
  · next he => exact h.activateDbImpl he
  · exact h

/-! ## Removal -/

@[simp] theorem clearKsPrefix_fst (s : Store) (p : Partition) (pre : Bytes) :
    (clearKsPrefix s p pre).1 = s.rmPrefixed p pre := rfl

theorem part_apply_rmMeta_get (s : Store) (c k : Bytes) (p : Partition) :
    ((s.apply [.rmMeta c]).part p).get k =
      if p = .metadata ∧ k = c then none else (s.part p).get k := by
  rw [Store.apply_cons, Store.apply_nil, Store.part_applyOp_get]
  simp only [WriteOp.partition, WriteOp.key, WriteOp.value, eq_comm]

theorem part_apply_clear_both (s : Store) (pre : Bytes) (p : Partition) (k : Bytes) :
    ((s.apply ((clearKsPrefix s .data pre).1 ++ (clearKsPrefix s .metadata pre).1)).part p).get k =
      if pre <+: k then none else (s.part p).get k := by
  have hdata : (s.part .metadata).get k = none →
      ((s.apply (s.rmPrefixed .data pre)).part .metadata).get k = none :=
    Store.part_apply_get_none fun o ho => Store.rmPrefixed_value ho
  rw [Store.apply_append, clearKsPrefix_fst, clearKsPrefix_fst,
    Store.part_apply_rmPrefixed hdata, Store.part_apply_rmPrefixed id]
  cases p <;> simp

theorem dbRmImpl_spec (e : Engine) (nsId dbId : UInt64) :
    ∃ (n : UInt64) (e' : Engine), dbRmImpl e nsId dbId = .ok (n, e') ∧
      ∀ p k, (e'.store.part p).get k =
        if (KeyComposer.mk nsId dbId).encodeScopePrefix <+: k ∨
            p = .metadata ∧ k = catalogDbKey nsId dbId then none
        else (e.store.part p).get k := by
  set pre := (KeyComposer.mk nsId dbId).encodeScopePrefix with hpre
  obtain ⟨e', he', hs⟩ := e.commit_of_forall_rm (b := (clearKsPrefix e.store .data pre).1 ++
      (clearKsPrefix e.store .metadata pre).1 ++ [.rmMeta (catalogDbKey nsId dbId)]) (by
    intro o ho
    simp only [List.mem_append, List.mem_singleton] at ho
    rcases ho with (ho | ho) | rfl
    · exact Store.rmPrefixed_value ho
    · exact Store.rmPrefixed_value ho
    · rfl)
  refine ⟨_, e', by simp only [dbRmImpl, ← hpre, he', bind, Except.bind]; rfl, fun p k => ?_⟩
  rw [hs, Store.apply_append, part_apply_rmMeta_get, part_apply_clear_both]
  by_cases h1 : pre <+: k <;> by_cases h2 : p = .metadata ∧ k = catalogDbKey nsId dbId <;>
    simp [h1, h2]

theorem namespaceRmImpl_spec (e : Engine) (nsId : UInt64) :
    ∃ (n : UInt64) (e' : Engine), namespaceRmImpl e nsId = .ok (n, e') ∧
      ∀ p k, (e'.store.part p).get k =
        if KeyComposer.nsPrefix nsId <+: k ∨
            p = .metadata ∧ (catalogNsPrefix nsId <+: k ∨ k = dbNextIdKey nsId) then none
        else (e.store.part p).get k := by
  set pre := KeyComposer.nsPrefix nsId with hpre
  set both := (clearKsPrefix e.store .data pre).1 ++ (clearKsPrefix e.store .metadata pre).1
    with hboth
  have hval : ∀ o ∈ both, o.value = none := by
    intro o ho
    rcases List.mem_append.mp ho with ho | ho
    · exact Store.rmPrefixed_value ho
    · exact Store.rmPrefixed_value ho
  obtain ⟨e', he', hs⟩ := e.commit_of_forall_rm (b := both ++
      (clearKsPrefix e.store .metadata (catalogNsPrefix nsId)).1 ++ [.rmMeta (dbNextIdKey nsId)]) (by
    intro o ho
    simp only [List.mem_append, List.mem_singleton] at ho
    rcases ho with (ho | ho) | rfl
    · exact hval o ho
    · exact Store.rmPrefixed_value ho
    · rfl)
  refine ⟨_, e', by
    simp only [namespaceRmImpl, ← hpre, ← hboth, he', bind, Except.bind]; rfl, fun p k => ?_⟩
  have hmeta : (e.store.part .metadata).get k = none →
      ((e.store.apply both).part .metadata).get k = none := Store.part_apply_get_none hval
  rw [hs, Store.apply_append, part_apply_rmMeta_get, Store.apply_append,
    clearKsPrefix_fst, Store.part_apply_rmPrefixed hmeta, hboth, part_apply_clear_both]
  by_cases h1 : pre <+: k <;> by_cases h2 : catalogNsPrefix nsId <+: k <;>
    by_cases h3 : k = dbNextIdKey nsId <;> cases p <;> simp [h1, h2, h3]

end Wedb
