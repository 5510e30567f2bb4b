import Wedb.Hll.Stored
import Wedb.Key.Del

/-!
# Runs on HyperLogLogs

A structure is built by any run of its operations and a database changed by any run
of commands. A structure holds the registers the run describes, in whichever form,
and well-formed keys stay so, so that counts and merges take pointwise maxima of
what the keys hold.
-/

namespace Wedb

open HyperLogLog

/-- The structures of a run with the registers it describes; `set` says what setting
a register does to them. -/
inductive HllReachable (set : HllEncodeType → Registers → ℕ → UInt8 → Registers) :
    HyperLogLog → Registers → Prop
  | new : HllReachable set .new .zero
  | newSparse : HllReachable set .newSparse .zero
  | addHash {h : HyperLogLog} {R : Registers} (hash : UInt64) : HllReachable set h R →
      HllReachable set (h.addHash hash).2
        (R.raise (extractDenseHllResult hash).1 (extractDenseHllResult hash).2)
  | setRegister {h : HyperLogLog} {R : Registers} (i : ℕ) (v : UInt8) : HllReachable set h R →
      HllReachable set (h.setRegister i v) (if i < hllRegisters then set h.encodeType R i v else R)
  | merge {h other : HyperLogLog} {R R' : Registers} : HllReachable set h R →
      HllReachable set other R' → HllReachable set (h.merge other) (R.max R')
  | mergeBytes {h : HyperLogLog} {R : Registers} (bytes : Bytes) : HllReachable set h R →
      HllReachable set (h.mergeBytes bytes) (R.max (bytesRegisters bytes))
  | promote {h h' : HyperLogLog} {R : Registers} : HllReachable set h R →
      h.promoteToDense = .ok h' → HllReachable set h' R
  | demote {h h' : HyperLogLog} {R : Registers} {bytes : Bytes} : HllReachable set h R →
      h.toSparse = some bytes → fromSparseBytes bytes = .ok h' → HllReachable set h' R
  | clear {h : HyperLogLog} {R : Registers} : HllReachable set h R → HllReachable set h.clear .zero

theorem HllReachable.holds {h : HyperLogLog} {R : Registers} (hr : HllReachable setSpec h R) :
    h.Holds R := by
  induction hr with
  | new => exact new_holds
  | newSparse => exact newSparse_holds
  | addHash hash _ ih => exact (ih.addHash hash).2
  | setRegister i v _ ih =>
    split_ifs with hi
    · exact ih.setRegister hi v
    · rw [Holds.setRegister_of_ge _ (not_lt.mp hi)]
      exact ih
  | merge _ _ ih ih' => exact ih.merge ih'
  | mergeBytes bytes _ ih => exact ih.mergeBytes bytes
  | promote _ hp ih =>
    obtain ⟨registers, hrun, hlen, hregs⟩ := ih.promoteToDense
    rw [hrun] at hp
    cases hp
    exact .dense hlen hregs
  | demote _ hs hf ih =>
    obtain ⟨h', hrun, hholds⟩ := fromSparseBytes_holds (ih.toSparse hs)
    rw [hrun] at hf
    cases hf
    exact hholds
  | clear _ ih => exact ih.clear

/-- What is known of a structure that holds registers. -/
structure HyperLogLog.Refines (h : HyperLogLog) (R : Registers) : Prop where
  register : ∀ k < hllRegisters, h.getRegister k = R k
  changed : ∀ hash, (h.addHash hash).1 = true ↔
    R (extractDenseHllResult hash).1 < (extractDenseHllResult hash).2
  decodes : h.encodeType = .sparse → (sparseOps h.registers).2 = true ∧
    (sparseRegs h.registers).length = hllRegisters
  promoted : ∃ h', h.promoteToDense = .ok h' ∧ h'.encodeType = .dense ∧
    ∀ k < hllRegisters, h'.getRegister k = R k
  exported : ∃ dense, h.toDense = .ok dense ∧ ∀ k < hllRegisters, hllDenseGetRegister dense k = R k
  demoted : ∀ bytes, h.toSparse = some bytes → ∃ h', fromSparseBytes bytes = .ok h' ∧
    h'.encodeType = .sparse ∧ ∀ k < hllRegisters, h'.getRegister k = R k
  histo : h.histo = registerHisto R

theorem HyperLogLog.Holds.refines {h : HyperLogLog} {R : Registers} (hh : h.Holds R) :
    h.Refines R := by
  refine ⟨fun k hk => hh.getRegister hk, fun hash => (hh.addHash hash).1, ?_, ?_, ?_, ?_, hh.histo⟩
  · intro ht
    cases hh with
    | dense hlen hregs => cases ht
    | sparse hform => exact ⟨hform.clean, by rw [hform.regs, R.list_length]⟩
  · obtain ⟨registers, hrun, hlen, hregs⟩ := hh.promoteToDense
    exact ⟨_, hrun, rfl, hregs⟩
  · obtain ⟨dense, hrun, -, hregs⟩ := hh.toDense
    exact ⟨dense, hrun, hregs⟩
  · intro bytes hs
    obtain ⟨h', hrun, hholds⟩ := fromSparseBytes_holds (hh.toSparse hs)
    refine ⟨h', hrun, ?_, fun k hk => hholds.getRegister hk⟩
    rw [fromSparseBytes] at hrun
    split_ifs at hrun
    cases hrun
    rfl

/-! ## Databases -/

inductive PfCommand
  | add (key : Key) (hashes : List UInt64)
  | merge (dest : Key) (sources : List Key)
  | expire (key : Key) (expireAtMs : UInt64) (cond : ExpireCondition)
  | del (keys : List Key)

/-- A command with the clock it reads and the version it would generate. -/
structure PfCall where
  nowMs : UInt64
  version : UInt64
  command : PfCommand

namespace PfCall

def plan (s : Store) (kc : KeyComposer) (c : PfCall) : Except Error (Unit × Batch) :=
  match c.command with
  | .add key hashes => (pfaddHashes s kc c.nowMs c.version key hashes).map fun x => ((), x.2)
  | .merge dest sources => pfmerge s kc c.nowMs c.version dest sources
  | .expire key expireAtMs cond =>
    .ok ((), (setKeyExpireAtImplWithCondition s kc key c.nowMs expireAtMs cond).2)
  | .del keys => .ok ((), keys.flatMap fun k => (delOne s kc k c.nowMs).2)

end PfCall

inductive PfReachable (kc : KeyComposer) (e₀ : Engine) : Engine → Prop
  | start : PfReachable kc e₀ e₀
  | call {e e' : Engine} {c : PfCall} : PfReachable kc e₀ e →
      e.exec (c.plan e.store kc) = .ok ((), e') → PfReachable kc e₀ e'

section
variable {s : Store} {kc : KeyComposer} {now version : UInt64} {key : Key}

theorem hllStored_of_batch {m : HyperLogLogMeta} {registers : Bytes} {R : Registers} {dest : Key}
    (hst : ∀ key, HllStored s kc key) (hplain : m.Plain)
    (hholds : Holds ⟨registers, m.encodeType⟩ R) :
    HllStored (s.apply (hllBatch kc dest m registers)) kc key := by
  by_cases hkey : key = dest
  · subst hkey
    exact hllBatch_stored hplain hholds
  · have hne : ¬(kc = kc ∧ key = dest) := fun h => hkey h.2
    exact (hst key).congr (hllBatch_frame hne rfl) (hllBatch_frame hne trivial)

theorem pfaddHashes_stored (hst : ∀ key, HllStored s kc key) {dest : Key} {hashes : List UInt64}
    {updated : Bool} {ops : Batch}
    (hrun : pfaddHashes s kc now version dest hashes = .ok (updated, ops)) :
    HllStored (s.apply ops) kc key := by
  rw [pfaddHashes] at hrun
  split_ifs at hrun
  · cases hrun
    exact hst key
  · rcases pfaddWithHashes_spec (hst dest) hashes with
      ⟨err, -, hplan⟩ | ⟨live, updated', ops', -, hplan, -, hops⟩
    · rw [hplan] at hrun
      cases hrun
    · rw [hplan] at hrun
      cases hrun
      rcases hops with ⟨-, rfl⟩ | ⟨m, registers, rfl, hplain, -, hholds⟩
      · exact hst key
      · exact hllStored_of_batch hst hplain hholds

theorem pfmerge_stored (hst : ∀ key, HllStored s kc key) {dest : Key} {sources : List Key}
    {u : Unit} {ops : Batch} (hrun : pfmerge s kc now version dest sources = .ok (u, ops)) :
    HllStored (s.apply ops) kc key := by
  by_cases hne : sources = []
  · subst hne
    cases hrun
    exact hst key
  · rcases pfmerge_spec hne fun k _ => hst k with
      ⟨err, -, hplan⟩ | ⟨Rs, m, registers, -, hplan, hplain, -, hholds⟩
    · rw [hplan] at hrun
      cases hrun
    · rw [hplan] at hrun
      cases hrun
      exact hllStored_of_batch hst hplain hholds

theorem setKeyExpireAt_stored (hst : HllStored s kc key) (dest : Key) (expireAtMs : UInt64)
    (cond : ExpireCondition) :
    HllStored (s.apply (setKeyExpireAtImplWithCondition s kc dest now expireAtMs cond).2) kc key := by
  rcases setKeyExpireAt_ops s kc dest now expireAtMs cond with
    hops | ⟨v, hops⟩ | ⟨tag, htag, v, v', hv, hp, hops⟩
  · rw [hops]
    exact hst
  · rw [hops, Store.apply_cons, Store.apply_nil]
    refine hst.congr ?_ ?_
    · exact (Store.at_insert s (a := ⟨kc, dest, .str⟩) (b := ⟨kc, key, .metadata .hllMeta⟩)
        trivial rfl v).trans (if_neg (by simp))
    · exact (Store.at_insert s (a := ⟨kc, dest, .str⟩) (b := ⟨kc, key, .hllRaw⟩)
        trivial trivial v).trans (if_neg (by simp))
  · have hmeta := allCompositeMetaTags_isMeta htag
    have hat : ∀ slot : Slot, slot.Valid →
        (s.apply [.insertMeta (kc.composeMetaKeyStack tag.asSlice dest.bytes) v']).at ⟨kc, key, slot⟩ =
          if (⟨kc, dest, .metadata tag⟩ : Addr) = ⟨kc, key, slot⟩ then some v'
          else s.at ⟨kc, key, slot⟩ := fun slot hslot =>
      Store.at_insert s (a := ⟨kc, dest, .metadata tag⟩) (b := ⟨kc, key, slot⟩) hmeta hslot v'
    have hraw := hat .hllRaw trivial
    rw [if_neg (by simp)] at hraw
    have hslot := hat (.metadata .hllMeta) rfl
    rw [hops]
    by_cases hsame : (⟨kc, dest, .metadata tag⟩ : Addr) = ⟨kc, key, .metadata .hllMeta⟩
    · rw [if_pos hsame] at hslot
      cases hsame
      obtain ⟨m, registers, R, rfl, hplain, hdata, hholds⟩ := hst v hv
      rw [HyperLogLogMeta.encode, patchExpireAt_encode, Option.some.injEq] at hp
      intro w hw
      have hvw : some v' = some w := hslot.symm.trans hw
      cases hvw
      exact ⟨{ m with base := { m.base with expireAt := expireAtMs } }, registers, R, hp.symm,
        ⟨hplain.rtype, hplain.flags⟩, Eq.trans hraw hdata, hholds⟩
    · rw [if_neg hsame] at hslot
      exact hst.congr hslot hraw

theorem delAll_stored (hst : HllStored s kc key) (keys : List Key) :
    HllStored (s.apply (keys.flatMap fun k => (delOne s kc k now).2)) kc key := by
  classical
  have hat : ∀ slot : Slot, slot.Valid →
      (s.apply (keys.flatMap fun k => (delOne s kc k now).2)).at ⟨kc, key, slot⟩ =
        if key ∈ keys ∧ DelClears s kc now key slot then none else s.at ⟨kc, key, slot⟩ := by
    intro slot hslot
    rw [at_apply_delAll (b := ⟨kc, key, slot⟩) hslot id]
    exact if_congr (and_iff_right rfl) rfl rfl
  have hclears : DelClears s kc now key .hllRaw → DelClears s kc now key (.metadata .hllMeta) := by
    rintro (h | ⟨hnone, tag, hf, h | h⟩)
    · cases h
    · cases h
    · rw [Slot.ownedBy, beq_iff_eq] at h
      exact Or.inr ⟨hnone, tag, hf, Or.inl (by rw [h])⟩
  have hmeta := hat (.metadata .hllMeta) rfl
  have hraw := hat .hllRaw trivial
  by_cases hc : key ∈ keys ∧ DelClears s kc now key (.metadata .hllMeta)
  · rw [if_pos hc] at hmeta
    intro v hv
    have hnone : none = some v := hmeta.symm.trans hv
    cases hnone
  · rw [if_neg hc] at hmeta
    rw [if_neg fun h => hc ⟨h.1, hclears h.2⟩] at hraw
    exact hst.congr hmeta hraw

theorem PfReachable.stored {e₀ e : Engine} (hr : PfReachable kc e₀ e)
    (h₀ : ∀ key, HllStored e₀.store kc key) : ∀ key, HllStored e.store kc key := by
  induction hr with
  | start => exact h₀
  | @call e e' c _ hexec ih =>
    intro key
    obtain ⟨ops, hplan, hstore⟩ := Engine.exec_eq_ok hexec
    rw [hstore]
    obtain ⟨now, version, command⟩ := c
    cases command with
    | add dest hashes =>
      simp only [PfCall.plan] at hplan
      obtain ⟨x, hadd, hx⟩ := map_eq_ok hplan
      cases hx
      exact pfaddHashes_stored ih hadd
    | merge dest sources => exact pfmerge_stored ih hplan
    | expire dest expireAtMs cond =>
      cases hplan
      exact setKeyExpireAt_stored (ih key) dest expireAtMs cond
    | del keys =>
      cases hplan
      exact delAll_stored (ih key) keys

theorem pfRegisters_frame {m : HyperLogLogMeta} {registers : Bytes} {dest : Key} (hne : key ≠ dest)
    (later : UInt64) :
    pfRegisters (s.apply (hllBatch kc dest m registers)) kc later key = pfRegisters s kc later key := by
  have hother : ¬(kc = kc ∧ key = dest) := fun h => hne h.2
  exact pfRegisters_congr (hllBatch_frame hother trivial)
    (fun u hu => hllBatch_frame hother (allCompositeMetaTags_isMeta hu))
    (hllBatch_frame hother trivial)

theorem pfRegisters_hllBatch_eq {m : HyperLogLogMeta} {registers : Bytes} {live : Option Registers}
    {R : Registers} (hlive : pfRegisters s kc now key = .ok live) (hplain : m.Plain)
    (hexp : m.base.isExpired now = false) (hholds : Holds ⟨registers, m.encodeType⟩ R) :
    ∃ R', pfRegisters (s.apply (hllBatch kc key m registers)) kc now key = .ok (some R') ∧
      ∀ k < hllRegisters, R' k = R k := by
  cases hget : getHllMetaChecked s kc now key with
  | error err =>
    rw [pfRegisters, hget] at hlive
    cases hlive
  | ok found =>
    exact ⟨_, pfRegisters_hllBatch hget hplain hexp, fun k hk => hholds.getRegister hk⟩

theorem pfmerge_committed {e e' : Engine} (hst : ∀ key, HllStored e.store kc key) {dest : Key}
    {sources : List Key} (hne : sources ≠ [])
    (hexec : e.exec (pfmerge e.store kc now version dest sources) = .ok ((), e')) :
    ∃ Rs R, pfRegistersAll e.store kc now (dest :: sources) = .ok Rs ∧
      pfRegisters e'.store kc now dest = .ok (some R) ∧
      (∀ k < hllRegisters, R k = Registers.sup Rs k) ∧
      ∀ key ≠ dest, ∀ later, pfRegisters e'.store kc later key = pfRegisters e.store kc later key := by
  obtain ⟨ops, hplan, hstore⟩ := Engine.exec_eq_ok hexec
  rcases pfmerge_spec hne fun k _ => hst k with
    ⟨err, -, hrun⟩ | ⟨Rs, m, registers, hall, hrun, hplain, hexp, hholds⟩
  · rw [hrun] at hplan
    cases hplan
  · rw [hrun] at hplan
    cases hplan
    have hdest : ∃ live, pfRegisters e.store kc now dest = .ok live := by
      rw [pfRegistersAll] at hall
      cases hpf : pfRegisters e.store kc now dest with
      | error err =>
        rw [hpf] at hall
        cases hall
      | ok live => exact ⟨live, rfl⟩
    obtain ⟨live, hlive⟩ := hdest
    obtain ⟨R, hR, hmax⟩ := pfRegisters_hllBatch_eq hlive hplain hexp hholds
    rw [hstore]
    exact ⟨Rs, R, hall, hR, hmax, fun key hkey later => pfRegisters_frame hkey later⟩

/-- A committed addition raises the registers of its key and reports whether one grew. -/
theorem pfaddHashes_committed {e e' : Engine} (hst : ∀ key, HllStored e.store kc key)
    {hashes : List UInt64} {updated : Bool}
    (hexec : e.exec (pfaddHashes e.store kc now version key hashes) = .ok (updated, e')) :
    hashes = [] ∧ updated = false ∨ ∃ live live', pfRegisters e.store kc now key = .ok live ∧
      pfRegisters e'.store kc now key = .ok live' ∧
      (∀ k < hllRegisters, Registers.sup live'.toList k =
        (Registers.sup live.toList).addHashes hashes k) ∧
      (updated = true ↔ ∃ k < hllRegisters,
        Registers.sup live.toList k < Registers.sup live'.toList k) := by
  obtain ⟨ops, hplan, hstore⟩ := Engine.exec_eq_ok hexec
  rw [pfaddHashes] at hplan
  split_ifs at hplan with hempty
  · cases hplan
    exact Or.inl ⟨List.isEmpty_iff.mp hempty, rfl⟩
  · rcases pfaddWithHashes_spec (hst key) hashes with
      ⟨err, -, hrun⟩ | ⟨live, updated', ops', hlive, hrun, hupd, hops⟩
    · rw [hrun] at hplan
      cases hplan
    · rw [hrun] at hplan
      cases hplan
      rw [hstore]
      rcases hops with ⟨rfl, rfl⟩ | ⟨m, registers, rfl, hplain, hexp, hholds⟩
      · have hstay : ∀ k < hllRegisters, Registers.sup live.toList k =
            (Registers.sup live.toList).addHashes hashes k := by
          intro k hk
          refine le_antisymm (Registers.le_addHashes _ hashes k) (not_lt.mp fun hlt => ?_)
          exact Bool.false_ne_true (hupd.mpr ⟨k, hk, hlt⟩)
        refine Or.inr ⟨live, live, hlive, hlive, hstay, iff_of_false (by simp) ?_⟩
        rintro ⟨k, -, hlt⟩
        exact lt_irrefl _ hlt
      · obtain ⟨R, hR, hmax⟩ := pfRegisters_hllBatch_eq hlive hplain hexp hholds
        have hsup : Registers.sup (some R).toList = R := by
          rw [Option.toList_some, Registers.sup_cons, Registers.sup_nil, Registers.max_zero]
        refine Or.inr ⟨live, some R, hlive, hR, fun k hk => by rw [hsup, hmax k hk], ?_⟩
        rw [hupd, hsup]
        exact exists_congr fun k => and_congr_right fun hk => by rw [hmax k hk]

end

/-- Structures hold the registers of their run in either form, and at database level
counts and merges take the pointwise maxima of what the live keys hold. -/
theorem hyperLogLog_pointwise_max {kc : KeyComposer} {e₀ e : Engine}
    (h₀ : ∀ key, HllStored e₀.store kc key) (hr : PfReachable kc e₀ e) :
    (∀ h R, HllReachable setSpec h R → h.Refines R) ∧
    (∀ h R h' R', HllReachable setSpec h R → HllReachable setSpec h' R' →
      (∀ k < hllRegisters, h.getRegister k = h'.getRegister k) →
      h.histo = h'.histo ∧ ∀ estimate, h.count estimate = h'.count estimate) ∧
    (∀ estimate now keys, pfcount e.store kc now estimate keys =
      (pfRegistersAll e.store kc now keys).map fun Rs =>
        if Rs.isEmpty then 0 else estimate (registerHisto (Registers.sup Rs))) ∧
    (∀ now version dest sources e', sources ≠ [] →
      e.exec (pfmerge e.store kc now version dest sources) = .ok ((), e') →
      ∃ Rs R, pfRegistersAll e.store kc now (dest :: sources) = .ok Rs ∧
        pfRegisters e'.store kc now dest = .ok (some R) ∧
        (∀ k < hllRegisters, R k = Registers.sup Rs k) ∧
        ∀ key ≠ dest, ∀ later,
          pfRegisters e'.store kc later key = pfRegisters e.store kc later key) ∧
    ∀ now version key hashes updated e',
      e.exec (pfaddHashes e.store kc now version key hashes) = .ok (updated, e') →
      hashes = [] ∧ updated = false ∨ ∃ live live', pfRegisters e.store kc now key = .ok live ∧
        pfRegisters e'.store kc now key = .ok live' ∧
        (∀ k < hllRegisters, Registers.sup live'.toList k =
          (Registers.sup live.toList).addHashes hashes k) ∧
        (updated = true ↔ ∃ k < hllRegisters,
          Registers.sup live.toList k < Registers.sup live'.toList k) := by
  have hst := hr.stored h₀
  refine ⟨fun h R hh => hh.holds.refines, ?_, fun estimate now keys => pfcount_eq estimate fun k _ => hst k,
    fun now version dest sources e' hne hexec => pfmerge_committed hst hne hexec,
    fun now version key hashes updated e' hexec => pfaddHashes_committed hst hexec⟩
  intro h R h' R' hh hh' hregs
  have hhisto : h.histo = h'.histo := by
    rw [hh.holds.histo, (hh'.holds.congr fun k hk => ?_).histo]
    rw [← hh'.holds.getRegister hk, ← hregs k hk, hh.holds.getRegister hk]
  exact ⟨hhisto, fun estimate => congrArg estimate hhisto⟩

def sampleAdd : PfCall := ⟨1, 1, .add sampleKey [3]⟩

theorem hyperLogLog_pointwise_max_sample :
    ∃ e, PfReachable ⟨0, 0⟩ .empty e ∧ e ≠ .empty ∧ ∀ estimate now keys,
      pfcount e.store ⟨0, 0⟩ now estimate keys =
        (pfRegistersAll e.store ⟨0, 0⟩ now keys).map fun Rs =>
          if Rs.isEmpty then 0 else estimate (registerHisto (Registers.sup Rs)) := by
  have hrun : ((Engine.empty.exec (sampleAdd.plan Engine.empty.store ⟨0, 0⟩)).map fun x =>
      x.2.store.metadata.length).toOption = some 1 := by
    decide +kernel
  obtain ⟨⟨u, e⟩, hexec, hlen⟩ := exists_ok_of_toOption_map hrun
  have hreach : PfReachable ⟨0, 0⟩ .empty e := PfReachable.start.call hexec
  refine ⟨e, hreach, ?_, (hyperLogLog_pointwise_max (fun key v hv => ?_) hreach).2.2.1⟩
  · rintro rfl
    cases hlen
  · cases hv

def loweredSample : HyperLogLog := (HyperLogLog.new.setRegister 0 5).setRegister 0 3

theorem setRegister_lowers : ¬∀ h R, HllReachable (fun _ => Registers.raise) h R →
    ∀ k < hllRegisters, h.getRegister k = R k := by
  intro hclaim
  have hpos : 0 < hllRegisters := by decide
  have hmodel : HllReachable (fun _ => Registers.raise) loweredSample
      (if 0 < hllRegisters then
        (if 0 < hllRegisters then Registers.zero.raise 0 5 else .zero).raise 0 3
      else if 0 < hllRegisters then Registers.zero.raise 0 5 else .zero) :=
    (HllReachable.new.setRegister 0 5).setRegister 0 3
  have hclaimed := hclaim _ _ hmodel 0 hpos
  have hholds := (new_holds.setRegister hpos 5).setRegister hpos 3
  have hactual := hholds.getRegister hpos
  rw [← loweredSample, hclaimed] at hactual
  simp only [if_pos hpos] at hactual
  revert hactual
  decide

end Wedb
