import Wedb.Engine.Error
import Wedb.Ordered.Under

/-!
# The storage engine

Two partitions, each a sorted byte map, and a write batch that queues
insertions, removals and weak removals in order. A committed batch is the
in-order application of its queue; a weak removal removes the entry. What a
partition holds is addressable: entry counts and key lengths are those of Rust
collections, at most `isize::MAX`, and a commit that would exceed these sizes
fails and leaves the store as it was.
-/

namespace Wedb

inductive Partition
  | data
  | metadata
  deriving DecidableEq, Repr

inductive WriteOp
  | insert (p : Partition) (k v : Bytes)
  | rm (p : Partition) (k : Bytes)
  | rmWeak (p : Partition) (k : Bytes)
  deriving DecidableEq, Repr

abbrev Batch := List WriteOp

namespace WriteOp

abbrev insertData (k v : Bytes) : WriteOp := .insert .data k v
abbrev insertMeta (k v : Bytes) : WriteOp := .insert .metadata k v
abbrev rmData (k : Bytes) : WriteOp := .rm .data k
abbrev rmMeta (k : Bytes) : WriteOp := .rm .metadata k
abbrev rmWeakData (k : Bytes) : WriteOp := .rmWeak .data k

def partition : WriteOp → Partition
  | .insert p _ _ | .rm p _ | .rmWeak p _ => p

def key : WriteOp → Bytes
  | .insert _ k _ | .rm _ k | .rmWeak _ k => k

def value : WriteOp → Option Bytes
  | .insert _ _ v => some v
  | .rm _ _ | .rmWeak _ _ => none

end WriteOp

@[ext] structure Store where
  data : SortedMap Bytes Bytes
  metadata : SortedMap Bytes Bytes
  deriving DecidableEq

namespace Store

def empty : Store := ⟨∅, ∅⟩

instance : EmptyCollection Store := ⟨empty⟩

@[simp] theorem empty_data : (∅ : Store).data = ∅ := rfl
@[simp] theorem empty_metadata : (∅ : Store).metadata = ∅ := rfl

def part (s : Store) : Partition → SortedMap Bytes Bytes
  | .data => s.data
  | .metadata => s.metadata

def setPart (s : Store) (m : SortedMap Bytes Bytes) : Partition → Store
  | .data => { s with data := m }
  | .metadata => { s with metadata := m }

def applyOp (s : Store) : WriteOp → Store
  | .insert p k v => s.setPart ((s.part p).insert k v) p
  | .rm p k => s.setPart ((s.part p).erase k) p
  | .rmWeak p k => s.setPart ((s.part p).erase k) p

def apply (s : Store) (b : Batch) : Store := b.foldl applyOp s

@[simp] theorem apply_nil (s : Store) : s.apply [] = s := rfl

@[simp] theorem apply_cons (s : Store) (o : WriteOp) (b : Batch) :
    s.apply (o :: b) = (s.applyOp o).apply b := rfl

@[simp] theorem apply_append (s : Store) (a b : Batch) :
    s.apply (a ++ b) = (s.apply a).apply b := List.foldl_append

@[simp] theorem applyOp_insertData (s : Store) (k v : Bytes) :
    s.applyOp (.insert .data k v) = { s with data := s.data.insert k v } := rfl

@[simp] theorem applyOp_insertMeta (s : Store) (k v : Bytes) :
    s.applyOp (.insert .metadata k v) = { s with metadata := s.metadata.insert k v } := rfl

@[simp] theorem applyOp_rmData (s : Store) (k : Bytes) :
    s.applyOp (.rm .data k) = { s with data := s.data.erase k } := rfl

@[simp] theorem applyOp_rmMeta (s : Store) (k : Bytes) :
    s.applyOp (.rm .metadata k) = { s with metadata := s.metadata.erase k } := rfl

@[simp] theorem applyOp_rmWeakData (s : Store) (k : Bytes) :
    s.applyOp (.rmWeak .data k) = { s with data := s.data.erase k } := rfl

@[simp] theorem applyOp_rmWeakMeta (s : Store) (k : Bytes) :
    s.applyOp (.rmWeak .metadata k) = { s with metadata := s.metadata.erase k } := rfl

theorem part_applyOp_get (s : Store) (o : WriteOp) (p : Partition) (k : Bytes) :
    ((s.applyOp o).part p).get k =
      if o.partition = p ∧ o.key = k then o.value else (s.part p).get k := by
  cases o with
  | insert q c v =>
    cases p <;> cases q <;> simp [part, WriteOp.partition, WriteOp.key, WriteOp.value,
      SortedMap.get_insert]
  | rm q c =>
    cases p <;> cases q <;> simp [part, WriteOp.partition, WriteOp.key, WriteOp.value,
      SortedMap.get_erase]
  | rmWeak q c =>
    cases p <;> cases q <;> simp [part, WriteOp.partition, WriteOp.key, WriteOp.value,
      SortedMap.get_erase]

theorem part_apply_get_of_forall_ne {s : Store} {b : Batch} {p : Partition} {k : Bytes}
    (h : ∀ o ∈ b, ¬(o.partition = p ∧ o.key = k)) :
    ((s.apply b).part p).get k = (s.part p).get k := by
  induction b generalizing s with
  | nil => rfl
  | cons o b ih =>
    rw [apply_cons, ih fun x hx => h x (List.mem_cons_of_mem _ hx), part_applyOp_get,
      if_neg (h o (by simp))]

theorem part_apply_rms_get (s : Store) (p q : Partition) (ks : List Bytes) (k : Bytes) :
    ((s.apply (ks.map (WriteOp.rm p))).part q).get k =
      if p = q ∧ k ∈ ks then none else (s.part q).get k := by
  induction ks generalizing s with
  | nil => simp
  | cons c ks ih =>
    rw [List.map_cons, apply_cons, ih, part_applyOp_get]
    simp only [WriteOp.partition, WriteOp.key, WriteOp.value, List.mem_cons]
    by_cases hp : p = q
    · by_cases hc : c = k
      · simp [hp, hc]
      · simp [hp, hc, Ne.symm hc]
    · simp [hp]

theorem part_apply_get_none {s : Store} {b : Batch} {p : Partition} {k : Bytes}
    (hb : ∀ o ∈ b, o.value = none) (h : (s.part p).get k = none) :
    ((s.apply b).part p).get k = none := by
  induction b generalizing s with
  | nil => exact h
  | cons o b ih =>
    refine ih (fun x hx => hb x (List.mem_cons_of_mem _ hx)) ?_
    rw [part_applyOp_get, hb o (by simp), h, ite_self]

def rmPrefixed (s : Store) (p : Partition) (pre : Bytes) : Batch :=
  ((SortedMap.prefixed pre (s.part p)).map Prod.fst).map (WriteOp.rm p)

theorem rmPrefixed_value {s : Store} {p : Partition} {pre : Bytes} {o : WriteOp}
    (ho : o ∈ s.rmPrefixed p pre) : o.value = none := by
  simp only [rmPrefixed, List.mem_map] at ho
  obtain ⟨k, -, rfl⟩ := ho
  rfl

theorem mem_prefixed_keys {s : Store} {p : Partition} {pre k : Bytes} :
    k ∈ (SortedMap.prefixed pre (s.part p)).map Prod.fst ↔ pre <+: k ∧ k ∈ (s.part p).keys := by
  simp only [List.mem_map, SortedMap.mem_prefixed, SortedMap.mem_keys]
  constructor
  · rintro ⟨x, ⟨hp, hx⟩, rfl⟩
    exact ⟨hp, x.2, hx⟩
  · rintro ⟨hp, v, hv⟩
    exact ⟨(k, v), ⟨hp, hv⟩, rfl⟩

/-- Removals queued from `s` clear the prefix in any later store `t`. -/
theorem part_apply_rmPrefixed {s t : Store} {p q : Partition} {pre k : Bytes}
    (hst : (s.part p).get k = none → (t.part p).get k = none) :
    ((t.apply (s.rmPrefixed p pre)).part q).get k =
      if p = q ∧ pre <+: k then none else (t.part q).get k := by
  rw [rmPrefixed, part_apply_rms_get]
  by_cases hp : p = q
  · subst hp
    by_cases hpre : pre <+: k
    · by_cases hk : k ∈ (s.part p).keys
      · rw [if_pos ⟨rfl, mem_prefixed_keys.mpr ⟨hpre, hk⟩⟩, if_pos ⟨rfl, hpre⟩]
      · have hnone : (s.part p).get k = none := by
          by_contra hne
          exact hk (SortedMap.mem_keys.mpr (Option.ne_none_iff_exists'.mp hne))
        rw [if_neg fun h => hk (mem_prefixed_keys.mp h.2).2, if_pos ⟨rfl, hpre⟩, hst hnone]
    · rw [if_neg fun h => hpre (mem_prefixed_keys.mp h.2).1, if_neg fun h => hpre h.2]
  · rw [if_neg fun h => hp h.1, if_neg fun h => hp h.1]

theorem apply_metadata_of_forall_data {s : Store} {b : Batch} (h : ∀ o ∈ b, o.partition = .data) :
    (s.apply b).metadata = s.metadata := by
  refine SortedMap.ext_get fun k => part_apply_get_of_forall_ne (p := .metadata) fun o ho hk => ?_
  rw [h o ho] at hk
  exact absurd hk.1 (by decide)

/-! ## Capacity -/

structure PartitionFits (m : SortedMap Bytes Bytes) : Prop where
  length_lt : m.length < 2 ^ 63
  key_lt : ∀ x ∈ m.entries, x.1.length < 2 ^ 63

instance (m : SortedMap Bytes Bytes) : Decidable (PartitionFits m) :=
  decidable_of_iff (m.length < 2 ^ 63 ∧ ∀ x ∈ m.entries, x.1.length < 2 ^ 63)
    ⟨fun h => ⟨h.1, h.2⟩, fun h => ⟨h.1, h.2⟩⟩

structure Fits (s : Store) : Prop where
  data : PartitionFits s.data
  metadata : PartitionFits s.metadata

instance (s : Store) : Decidable s.Fits :=
  decidable_of_iff (PartitionFits s.data ∧ PartitionFits s.metadata)
    ⟨fun h => ⟨h.1, h.2⟩, fun h => ⟨h.1, h.2⟩⟩

theorem PartitionFits.erase {m : SortedMap Bytes Bytes} (h : PartitionFits m) (k : Bytes) :
    PartitionFits (m.erase k) :=
  ⟨lt_of_le_of_lt (m.length_erase_le k) h.length_lt,
    fun x hx => h.key_lt x (List.mem_of_mem_filter hx)⟩

theorem Fits.applyOp {s : Store} (h : s.Fits) {o : WriteOp} (ho : o.value = none) :
    (s.applyOp o).Fits := by
  cases o with
  | insert p k v => cases ho
  | rm p k =>
    cases p with
    | data => exact ⟨h.data.erase k, h.metadata⟩
    | metadata => exact ⟨h.data, h.metadata.erase k⟩
  | rmWeak p k =>
    cases p with
    | data => exact ⟨h.data.erase k, h.metadata⟩
    | metadata => exact ⟨h.data, h.metadata.erase k⟩

theorem Fits.apply_of_forall_rm {s : Store} (h : s.Fits) {b : Batch}
    (hb : ∀ o ∈ b, o.value = none) : (s.apply b).Fits := by
  induction b generalizing s with
  | nil => exact h
  | cons o b ih => exact ih (h.applyOp (hb o (by simp))) fun x hx => hb x (by simp [hx])

theorem fits_empty : (∅ : Store).Fits :=
  ⟨⟨by decide, by intro x hx; cases hx⟩, ⟨by decide, by intro x hx; cases hx⟩⟩

end Store

/-- A store within the engine's sizes. -/
structure Engine where
  store : Store
  fits : store.Fits

namespace Engine

def empty : Engine := ⟨∅, Store.fits_empty⟩

def commit (e : Engine) (b : Batch) : Except Error Engine :=
  if h : (e.store.apply b).Fits then .ok ⟨e.store.apply b, h⟩
  else .error (.engine "partition size exceeds isize")

theorem commit_of_fits {e : Engine} {b : Batch} (h : (e.store.apply b).Fits) :
    e.commit b = .ok ⟨e.store.apply b, h⟩ := by
  rw [commit, dif_pos h]

theorem commit_of_forall_rm (e : Engine) {b : Batch} (hb : ∀ o ∈ b, o.value = none) :
    ∃ e', e.commit b = .ok e' ∧ e'.store = e.store.apply b :=
  ⟨_, commit_of_fits (e.fits.apply_of_forall_rm hb), rfl⟩

theorem commit_eq_ok {e e' : Engine} {b : Batch} (h : e.commit b = .ok e') :
    e'.store = e.store.apply b := by
  unfold commit at h
  split_ifs at h
  cases h
  rfl

end Engine

end Wedb
