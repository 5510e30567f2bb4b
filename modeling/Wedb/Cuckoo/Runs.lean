import Wedb.Cuckoo.Stored

/-!
# Runs on a cuckoo filter

A call is a command at a clock value; its writes are committed together and a
failed call changes nothing. The run keeps the items inserted and not yet deleted,
and deletes only such items. On a key that never existed before the stored filter
holds them in every state reached.
-/

namespace Wedb

open CuckooFilterHelper

inductive CuckooCommand
  | reserve (capacity : UInt64) (options : List CfReserve)
  | insert (items : List Bytes) (options : List CfInsert) (victim : ℕ → ℕ → ℕ)
  | del (item : Bytes)

/-- A command with the clock it reads and the version it would generate. -/
structure CuckooCall where
  nowMs : UInt64
  version : UInt64
  command : CuckooCommand

section
variable (hash : Bytes → UInt64) (kc : KeyComposer) (key : Key)

namespace CuckooCall

def plan (s : Store) (L : Multiset Bytes) (c : CuckooCall) :
    Except Error (Multiset Bytes × Batch) :=
  match c.command with
  | .reserve capacity options =>
    (cfReserve s kc key c.nowMs c.version capacity options).map fun x => (L, x.2)
  | .insert items options victim =>
    (cfInsert hash s kc key c.nowMs c.version items options victim).map fun x =>
      (L + insertedItems items x.1, x.2)
  | .del item =>
    (cfDel hash s kc key c.nowMs item).map fun x => (if x.1 then L.erase item else L, x.2)

def exec (L : Multiset Bytes) (e : Engine) (c : CuckooCall) :
    Except Error (Multiset Bytes × Engine) :=
  e.exec (c.plan hash kc key e.store L)

def next (L : Multiset Bytes) (e : Engine) (c : CuckooCall) : Multiset Bytes × Engine :=
  match c.exec hash kc key L e with
  | .ok x => x
  | .error _ => (L, e)

/-- Only items inserted more often than deleted so far are deleted. -/
def allowed (L : Multiset Bytes) (c : CuckooCall) : Prop :=
  match c.command with
  | .reserve _ _ | .insert _ _ _ => True
  | .del item => item ∈ L

end CuckooCall

/-- The items and the states of the runs from `e₀`. -/
inductive CuckooReachable (e₀ : Engine) : Multiset Bytes → Engine → Prop
  | start : CuckooReachable e₀ 0 e₀
  | call {L : Multiset Bytes} {e : Engine} {c : CuckooCall} : CuckooReachable e₀ L e →
      c.allowed L → CuckooReachable e₀ (c.next hash kc key L e).1 (c.next hash kc key L e).2

end

variable {hash : Bytes → UInt64} {kc : KeyComposer} {key : Key} {L : Multiset Bytes}

theorem CuckooHolds.of_new {s : Store}
    (h : ∀ slot : Slot, slot.Valid → s.at ⟨kc, key, slot⟩ = none) :
    CuckooHolds hash s kc key 0 := by
  refine ⟨⟨h .str trivial, fun u hu _ => h (.metadata u) (allCompositeMetaTags_isMeta hu)⟩,
    .absent (h (.metadata .cuckooMeta) rfl) fun f p => ?_⟩
  rw [cuckooPage_eq_phys]
  exact h (.sub .cuckooData _) rfl

theorem CuckooCall.plan_holds {s : Store} {L' : Multiset Bytes} {ops : Batch} {c : CuckooCall}
    (h : CuckooHolds hash s kc key L) (hallowed : c.allowed L)
    (hrun : c.plan hash kc key s L = .ok (L', ops)) :
    CuckooHolds hash (s.apply ops) kc key L' := by
  obtain ⟨now, version, command⟩ := c
  cases command with
  | reserve capacity options =>
    simp only [plan] at hrun
    obtain ⟨x, hplan, hx⟩ := map_eq_ok hrun
    cases hx
    exact cfReserve_holds h hplan
  | insert items options victim =>
    simp only [plan] at hrun
    obtain ⟨x, hplan, hx⟩ := map_eq_ok hrun
    cases hx
    exact cfInsert_holds h hplan
  | del item =>
    simp only [plan] at hrun
    obtain ⟨x, hplan, hx⟩ := map_eq_ok hrun
    cases hx
    obtain ⟨hdeleted, hholds⟩ := cfDel_holds h hallowed hplan
    simpa only [hdeleted, if_true] using hholds

theorem CuckooCall.next_holds {e : Engine} {c : CuckooCall}
    (h : CuckooHolds hash e.store kc key L) (hallowed : c.allowed L) :
    CuckooHolds hash (c.next hash kc key L e).2.store kc key (c.next hash kc key L e).1 := by
  unfold next
  cases hexec : c.exec hash kc key L e with
  | error err => exact h
  | ok x =>
    obtain ⟨L', e'⟩ := x
    obtain ⟨ops, hplan, hstore⟩ := Engine.exec_eq_ok hexec
    simp only [hstore]
    exact plan_holds h hallowed hplan

theorem CuckooReachable.holds {e₀ e : Engine} (h : CuckooReachable hash kc key e₀ L e)
    (hnew : ∀ slot : Slot, slot.Valid → e₀.store.at ⟨kc, key, slot⟩ = none) :
    CuckooHolds hash e.store kc key L := by
  induction h with
  | start => exact .of_new hnew
  | call _ hallowed ih => exact CuckooCall.next_holds ih hallowed

theorem CuckooHolds.size {s : Store} (h : CuckooHolds hash s kc key L) {v : Bytes}
    (hv : s.metadata.get (cuckooMetaKey kc key) = some v) :
    ∃ m, CuckooChainMeta.decode v = some m ∧
      m.base.size.toNat = nonzeroSlots (s.cuckooCache kc key m) m ∅ := by
  obtain ⟨-, hrep⟩ := h
  cases hrep with
  | absent hnone _ =>
    rw [hnone] at hv
    cases hv
  | present hget hch hp _ =>
    rw [hget, Option.some.injEq] at hv
    subst hv
    exact ⟨_, CuckooChainMeta.decode_encode _, hp.nonzeroSlots hch⟩

theorem CuckooHolds.kickout {s : Store} (h : CuckooHolds hash s kc key L) {now version : UInt64}
    {opt : CuckooFilterInsert} {m : CuckooChainMeta}
    (hm : cfMetaForInsert s kc key now version opt = .ok m) {f : UInt16} {nb : UInt32}
    (hnb : m.subFilterNumBuckets f = .ok nb) {pages pages' : CuckooPages}
    (hs : (s.cuckooCache kc key m).Sound m.subFilterNumBuckets pages) {victim : ℕ → ℕ} {x : UInt64}
    (hrun : (s.cuckooCache kc key m).tryCuckooKickout f nb m.maxIterations victim pages x
      (generateFingerprint x) = (false, pages')) :
    (s.cuckooCache kc key m).table pages' = (s.cuckooCache kc key m).table pages := by
  obtain ⟨hch, -⟩ := cfMetaForInsert_spec h hm
  rcases CuckooPageCache.tryCuckooKickout_spec hch.valid hch.stored hnb m.maxIterations victim hs x
    with ⟨pages1, hkick, -⟩ | ⟨pages1, hkick, -, htable⟩
  · rw [hkick] at hrun
    cases hrun
  · rw [hkick] at hrun
    cases hrun
    exact htable

/-- Every item inserted more often than deleted is reported present and counted as
often, the size is that of the slots in use, and what fails leaves no trace. -/
theorem cuckoo_no_false_negatives {e₀ e : Engine}
    (hnew : ∀ slot : Slot, slot.Valid → e₀.store.at ⟨kc, key, slot⟩ = none)
    (h : CuckooReachable hash kc key e₀ L e) :
    (∀ now, ∀ item ∈ L, cfExists hash e.store kc key now item = .ok true) ∧
    (∀ now items, ∃ results, cfMexists hash e.store kc key now items = .ok results ∧
      ∀ i (hi : i < items.length), items[i] ∈ L → results[i]? = some true) ∧
    (∀ now item, ∃ n, cfCount hash e.store kc key now item = .ok n ∧ L.count item ≤ n) ∧
    (∀ v, e.store.metadata.get (cuckooMetaKey kc key) = some v →
      ∃ m, CuckooChainMeta.decode v = some m ∧
        m.base.size.toNat = nonzeroSlots (e.store.cuckooCache kc key m) m ∅) ∧
    (∀ now version opt m, cfMetaForInsert e.store kc key now version opt = .ok m →
      ∀ f nb, m.subFilterNumBuckets f = .ok nb →
      ∀ pages, (e.store.cuckooCache kc key m).Sound m.subFilterNumBuckets pages →
      ∀ victim x pages', (e.store.cuckooCache kc key m).tryCuckooKickout f nb m.maxIterations
        victim pages x (generateFingerprint x) = (false, pages') →
        (e.store.cuckooCache kc key m).table pages' = (e.store.cuckooCache kc key m).table pages) ∧
    ∀ c err, CuckooCall.exec hash kc key L e c = .error err → c.next hash kc key L e = (L, e) := by
  have hholds := h.holds hnew
  refine ⟨fun now item hmem => cfExists_of_mem hholds hmem,
    fun now items => cfMexists_of_mem hholds items, fun now item => cfCount_of_holds hholds item,
    fun v hv => hholds.size hv, ?_, fun c err hexec => ?_⟩
  · intro now version opt m hm f nb hnb pages hs victim x pages' hrun
    exact hholds.kickout hm hnb hs hrun
  · rw [CuckooCall.next, hexec]

def sampleInsert : CuckooCall := ⟨1, 1, .insert [[7], [8, 9]] [.capacity 4] fun _ _ => 0⟩

def sampleDelete : CuckooCall := ⟨2, 2, .del [7]⟩

def sampleHash (item : Bytes) : UInt64 := UInt64.ofNat item.length

theorem cuckoo_no_false_negatives_sample :
    ∃ e, CuckooReachable sampleHash ⟨0, 0⟩ sampleKey .empty {[8, 9]} e ∧
      cfExists sampleHash e.store ⟨0, 0⟩ sampleKey 3 [8, 9] = .ok true := by
  have hinsert : (sampleInsert.next sampleHash ⟨0, 0⟩ sampleKey 0 .empty).1 = {[7], [8, 9]} := by
    decide +kernel
  have hdelete : ((sampleDelete.next sampleHash ⟨0, 0⟩ sampleKey
      (sampleInsert.next sampleHash ⟨0, 0⟩ sampleKey 0 .empty).1
      (sampleInsert.next sampleHash ⟨0, 0⟩ sampleKey 0 .empty).2).1) = {[8, 9]} := by
    decide +kernel
  have hstart : CuckooReachable sampleHash ⟨0, 0⟩ sampleKey .empty 0 .empty := .start
  have hrun := (hstart.call (c := sampleInsert) trivial).call (c := sampleDelete)
    (show [7] ∈ _ by rw [hinsert]; decide)
  rw [hdelete] at hrun
  exact ⟨_, hrun, (cuckoo_no_false_negatives (fun slot _ => by cases slot <;> rfl) hrun).1 3 [8, 9]
    (by decide)⟩

end Wedb
