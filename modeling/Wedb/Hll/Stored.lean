import Wedb.Hll.Impl

/-!
# Stored registers

A well-formed key stores metadata with its registers in the form the metadata
tells. The registers of a live key are what the form holds; commands raise them and
take their pointwise maxima, whichever forms the keys are stored in.
-/

namespace Wedb

open HyperLogLog

namespace Registers

def sup (Rs : List Registers) : Registers := Rs.foldr max zero

@[simp] theorem sup_nil : sup [] = zero := rfl

theorem sup_cons (R : Registers) (Rs : List Registers) : sup (R :: Rs) = R.max (sup Rs) := rfl

theorem max_max (R R' R'' : Registers) : (R.max R').max R'' = R.max (R'.max R'') :=
  funext fun _ => max_assoc _ _ _

theorem max_zero (R : Registers) : R.max zero = R := funext fun _ => max_eq_left UInt8.zero_le

theorem zero_max (R : Registers) : zero.max R = R := funext fun _ => max_eq_right UInt8.zero_le

theorem sup_append (Rs Rs' : List Registers) : sup (Rs ++ Rs') = (sup Rs).max (sup Rs') := by
  induction Rs with
  | nil => rw [List.nil_append, sup_nil, zero_max]
  | cons R Rs ih => rw [List.cons_append, sup_cons, sup_cons, ih, max_max]

def addHashes (R : Registers) (hashes : List UInt64) : Registers :=
  hashes.foldl (fun R hash => R.raise (extractDenseHllResult hash).1 (extractDenseHllResult hash).2) R

theorem le_raise (R : Registers) (i : ℕ) (v : UInt8) (k : ℕ) : R k ≤ R.raise i v k := by
  rw [raise]
  split_ifs
  · exact le_max_left _ _
  · exact le_rfl

theorem le_raise_self (R : Registers) (i : ℕ) (v : UInt8) : v ≤ R.raise i v i := by
  rw [raise, if_pos rfl]
  exact le_max_right _ _

theorem le_addHashes (R : Registers) (hashes : List UInt64) (k : ℕ) : R k ≤ R.addHashes hashes k := by
  induction hashes generalizing R with
  | nil => exact le_rfl
  | cons hash hashes ih => exact (le_raise R _ _ k).trans (ih _)

end Registers

section
variable (s : Store) (kc : KeyComposer) (nowMs : UInt64)

def pfRegisters (key : Key) : Except Error (Option Registers) := do
  let found ← getHllMetaChecked s kc nowMs key
  return found.bind fun m => (s.data.get (hllDataKey kc key)).map fun registers =>
    getRegister ⟨registers, m.encodeType⟩

def pfRegistersAll : List Key → Except Error (List Registers)
  | [] => .ok []
  | key :: keys => do
    let R ← pfRegisters s kc nowMs key
    let Rs ← pfRegistersAll keys
    return R.toList ++ Rs

end

/-- The type and the flags are those of a HyperLogLog written here. -/
structure HyperLogLogMeta.Plain (m : HyperLogLogMeta) : Prop where
  rtype : m.base.rtype = .hyperLogLog
  flags : m.base.flags = 0

theorem HyperLogLogMeta.Plain.isExpired {m : HyperLogLogMeta} (h : m.Plain) (now : UInt64) :
    m.base.isExpired now = (decide (m.base.expireAt > 0) && decide (m.base.expireAt ≤ now)) := by
  rw [KeyMeta.isExpired, KeyMeta.isEmptyableType, h.rtype]
  rfl

/-- Metadata stored under a key goes with registers in the form it tells. -/
def HllStored (s : Store) (kc : KeyComposer) (key : Key) : Prop :=
  ∀ v, s.metadata.get (hllMetaKey kc key) = some v →
    ∃ (m : HyperLogLogMeta) (registers : Bytes) (R : Registers), v = m.encode ∧ m.Plain ∧
      s.data.get (hllDataKey kc key) = some registers ∧ Holds ⟨registers, m.encodeType⟩ R

variable {s : Store} {kc : KeyComposer} {now version : UInt64} {key dest : Key}
  {R M : Registers} {h : HyperLogLog} {merged : Bytes}

namespace HyperLogLog

theorem Holds.self (hh : h.Holds R) : h.Holds h.getRegister :=
  hh.congr fun _ hk => (hh.getRegister hk).symm

theorem Holds.dense_spec (hh : Holds ⟨merged, .dense⟩ M) : merged.length = hllDenseSize ∧
    ∀ k < hllRegisters, hllDenseGetRegister merged k = M k := by
  cases hh with
  | dense hlen hregs => exact ⟨hlen, hregs⟩

theorem denseZeros_holds : Holds ⟨denseZeros, .dense⟩ .zero := new_holds

end HyperLogLog

theorem HllStored.lookup (hst : HllStored s kc key) (now : UInt64) :
    (∃ err, getHllMetaChecked s kc now key = .error err ∧ pfRegisters s kc now key = .error err) ∨
    (getHllMetaChecked s kc now key = .ok none ∧ pfRegisters s kc now key = .ok none) ∨
    ∃ (m : HyperLogLogMeta) (registers : Bytes) (R : Registers),
      getHllMetaChecked s kc now key = .ok (some m) ∧ m.Plain ∧
      s.data.get (hllDataKey kc key) = some registers ∧ Holds ⟨registers, m.encodeType⟩ R ∧
      pfRegisters s kc now key = .ok (some R) := by
  rw [pfRegisters]
  cases hget : getHllMetaChecked s kc now key with
  | error err => exact Or.inl ⟨err, rfl, rfl⟩
  | ok found =>
    refine Or.inr ?_
    cases found with
    | none => exact Or.inl ⟨rfl, rfl⟩
    | some m =>
      obtain ⟨-, -, v, hv, hdec⟩ := getMetaChecked_eq_some hget
      obtain ⟨m', registers, R, rfl, hplain, hdata, hholds⟩ := hst v hv
      have hm : HyperLogLogMeta.decode m'.encode = some m := hdec
      rw [HyperLogLogMeta.decode_encode hplain.flags, Option.some.injEq] at hm
      subst hm
      refine Or.inr ⟨m', registers, _, rfl, hplain, hdata, hholds.self, ?_⟩
      simp only [bind, Except.bind, Option.bind_some, hdata]
      rfl

/-! ## Unions -/

theorem mergeHllSource_spec (hst : HllStored s kc key) (hM : Holds ⟨merged, .dense⟩ M) :
    (∃ err, pfRegisters s kc now key = .error err ∧
      mergeHllSource s kc now key merged = .error err) ∨
    ∃ found merged', pfRegisters s kc now key = .ok found ∧
      mergeHllSource s kc now key merged = .ok (found.isSome, merged') ∧
      Holds ⟨merged', .dense⟩ (M.max (.sup found.toList)) := by
  obtain ⟨hlen, hregs⟩ := hM.dense_spec
  rw [mergeHllSource]
  rcases hst.lookup now with ⟨err, hget, hpf⟩ | ⟨hget, hpf⟩ | ⟨m, registers, R, hget, -, hdata, hR, hpf⟩
  · exact Or.inl ⟨err, hpf, by rw [hget]; rfl⟩
  · refine Or.inr ⟨none, merged, hpf, by rw [hget]; rfl, ?_⟩
    rw [Option.toList_none, Registers.sup_nil, Registers.max_zero]
    exact hM
  · obtain ⟨base, encodeType⟩ := m
    have hsup : M.max (.sup (some R).toList) = M.max R := by
      rw [Option.toList_some, Registers.sup_cons, Registers.sup_nil, Registers.max_zero]
    rw [hget]
    simp only [bind, Except.bind, hdata]
    cases encodeType with
    | dense =>
      refine Or.inr ⟨some R, _, hpf, rfl, ?_⟩
      obtain ⟨hlen', hregs'⟩ := hR.dense_spec
      rw [hsup]
      exact bytesMerge_holds hlen hregs fun k hk =>
        (denseRegisters_of_length hlen' hk).trans (hregs' k hk)
    | sparse =>
      refine Or.inr ⟨some R, _, hpf, rfl, ?_⟩
      rw [hsup]
      cases hR with
      | sparse hform => exact sparseMerge_holds hlen hregs hform

/-- Registers already contained in the union. -/
def Seen (s : Store) (kc : KeyComposer) (now : UInt64) (seen : List Key) (M : Registers) : Prop :=
  ∀ key ∈ seen, ∃ found, pfRegisters s kc now key = .ok found ∧
    ∀ k < hllRegisters, Registers.sup found.toList k ≤ M k

theorem Registers.max_of_le {R M : Registers} (hle : ∀ k < hllRegisters, R k ≤ M k) :
    ∀ k < hllRegisters, M k = M.max R k := fun k hk => (max_eq_left (hle k hk)).symm

theorem mergeSources_spec {keys seen : List Key} {hasAny : Bool}
    (hst : ∀ key ∈ keys, HllStored s kc key) (hM : Holds ⟨merged, .dense⟩ M)
    (hseen : Seen s kc now seen M) :
    (∃ err, pfRegistersAll s kc now keys = .error err ∧
      mergeSources s kc now keys seen hasAny merged = .error err) ∨
    ∃ Rs hasAny' merged', pfRegistersAll s kc now keys = .ok Rs ∧
      mergeSources s kc now keys seen hasAny merged = .ok (hasAny', merged') ∧
      Holds ⟨merged', .dense⟩ (M.max (.sup Rs)) ∧
      ((∀ key ∈ seen, ∀ R, pfRegisters s kc now key = .ok (some R) → hasAny = true) →
        hasAny' = (hasAny || !Rs.isEmpty)) := by
  induction keys generalizing seen hasAny merged M with
  | nil =>
    refine Or.inr ⟨[], hasAny, merged, rfl, rfl, ?_, fun _ => (Bool.or_false _).symm⟩
    rw [Registers.sup_nil, Registers.max_zero]
    exact hM
  | cons key keys ih =>
    have hst' : ∀ k ∈ keys, HllStored s kc k := fun k hk => hst k (List.mem_cons_of_mem _ hk)
    rw [mergeSources, pfRegistersAll]
    by_cases hmem : key ∈ seen
    · rw [if_pos hmem]
      obtain ⟨found, hpf, hle⟩ := hseen key hmem
      rw [hpf]
      simp only [bind, Except.bind]
      rcases ih hst' hM hseen with ⟨err, hall, hrun⟩ |
        ⟨Rs, hasAny', merged', hall, hrun, hholds, hany⟩
      · exact Or.inl ⟨err, by rw [hall], hrun⟩
      · refine Or.inr ⟨found.toList ++ Rs, hasAny', merged', by rw [hall]; rfl, hrun, ?_, ?_⟩
        · rw [Registers.sup_append, ← Registers.max_max]
          refine hholds.congr fun k hk => ?_
          rw [Registers.max, Registers.max, ← Registers.max_of_le hle k hk]
        · intro hlive
          rw [hany hlive]
          cases found with
          | none => rfl
          | some R => rw [hlive key hmem R hpf, Bool.true_or, Bool.true_or]
    · rw [if_neg hmem]
      rcases mergeHllSource_spec (hst key (by simp)) hM with
        ⟨err, hpf, hsrc⟩ | ⟨found, merged1, hpf, hsrc, hM1⟩
      · refine Or.inl ⟨err, ?_, ?_⟩
        · rw [hpf]
          rfl
        · rw [hsrc]
          rfl
      · rw [hpf, hsrc]
        simp only [bind, Except.bind]
        have hseen1 : Seen s kc now (key :: seen) (M.max (.sup found.toList)) := by
          intro k hk
          rcases List.mem_cons.mp hk with rfl | hk
          · exact ⟨found, hpf, fun _ _ => le_max_right _ _⟩
          · obtain ⟨found', hpf', hle'⟩ := hseen k hk
            exact ⟨found', hpf', fun i hi => (hle' i hi).trans (le_max_left _ _)⟩
        rcases ih hst' hM1 hseen1 with ⟨err, hall, hrun⟩ |
          ⟨Rs, hasAny', merged', hall, hrun, hholds, hany⟩
        · exact Or.inl ⟨err, by rw [hall], hrun⟩
        · refine Or.inr ⟨found.toList ++ Rs, hasAny', merged', by rw [hall]; rfl, hrun, ?_, ?_⟩
          · rw [Registers.sup_append, ← Registers.max_max]
            exact hholds
          · intro hlive
            rw [hany]
            · cases found with
              | none => simp
              | some R => simp
            · intro k hk R hR
              rcases List.mem_cons.mp hk with rfl | hk
              · rw [hpf] at hR
                cases hR
                rw [Option.isSome_some, Bool.or_true]
              · rw [hlive k hk R hR, Bool.true_or]

theorem pfRegistersAll_singleton (s : Store) (kc : KeyComposer) (now : UInt64) (key : Key) :
    pfRegistersAll s kc now [key] = (pfRegisters s kc now key).map Option.toList := by
  rw [pfRegistersAll]
  cases pfRegisters s kc now key with
  | error err => rfl
  | ok found =>
    cases found <;> rfl

/-- A count is the estimate of the pointwise maximum of the live keys' registers. -/
theorem pfcount_eq (estimate : (ℕ → ℕ) → UInt64) {keys : List Key}
    (hst : ∀ key ∈ keys, HllStored s kc key) :
    pfcount s kc now estimate keys = (pfRegistersAll s kc now keys).map fun Rs =>
      if Rs.isEmpty then 0 else estimate (registerHisto (Registers.sup Rs)) := by
  match keys with
  | [] => rfl
  | [key] =>
    rw [pfcount, pfRegistersAll_singleton]
    rcases (hst key (by simp)).lookup now with
      ⟨err, hget, hpf⟩ | ⟨hget, hpf⟩ | ⟨m, registers, R, hget, -, hdata, hR, hpf⟩
    · rw [hget, hpf]
      rfl
    · rw [hget, hpf]
      rfl
    · rw [hget, hpf]
      simp only [bind, Except.bind, hdata, HyperLogLog.count, hR.histo]
      simp [Except.map, Registers.sup_cons, Registers.max_zero, pure, Except.pure]
  | key :: key' :: keys =>
    have hseen : Seen s kc now [] .zero := by simp [Seen]
    rw [pfcount]
    rcases mergeSources_spec hst denseZeros_holds hseen with
      ⟨err, hall, hrun⟩ | ⟨Rs, hasAny, merged, hall, hrun, hholds, hany⟩
    · rw [hall, hrun]
      rfl
    · rw [hall, hrun, hany (by simp)]
      simp only [bind, Except.bind, HyperLogLog.count, hholds.histo, Registers.zero_max]
      cases Rs with
      | nil => rfl
      | cons R Rs => simp [Except.map, pure, Except.pure]
    · simp
    · simp

/-! ## Writes -/

def hllBatch (kc : KeyComposer) (key : Key) (m : HyperLogLogMeta) (registers : Bytes) : Batch :=
  [.insertData (hllDataKey kc key) registers, .insertMeta (hllMetaKey kc key) m.encode]

theorem at_hllBatch (s : Store) (kc : KeyComposer) (key : Key) (m : HyperLogLogMeta)
    (registers : Bytes) {a : Addr} (ha : a.slot.Valid) :
    (s.apply (hllBatch kc key m registers)).at a =
      if (⟨kc, key, .metadata .hllMeta⟩ : Addr) = a then some m.encode
      else if (⟨kc, key, .hllRaw⟩ : Addr) = a then some registers else s.at a := by
  rw [hllBatch, Store.apply_cons, Store.apply_cons, Store.apply_nil]
  refine (Store.at_insert _ (a := ⟨kc, key, .metadata .hllMeta⟩) rfl ha _).trans ?_
  refine if_congr Iff.rfl rfl ?_
  exact Store.at_insert s (a := ⟨kc, key, .hllRaw⟩) trivial ha registers

theorem pfRegisters_congr {t : Store}
    (hstr : t.at ⟨kc, key, .str⟩ = s.at ⟨kc, key, .str⟩)
    (hmeta : ∀ u ∈ allCompositeMetaTags,
      t.at ⟨kc, key, .metadata u⟩ = s.at ⟨kc, key, .metadata u⟩)
    (hraw : t.at ⟨kc, key, .hllRaw⟩ = s.at ⟨kc, key, .hllRaw⟩) :
    pfRegisters t kc now key = pfRegisters s kc now key := by
  have hget : t.metadata.get (hllMetaKey kc key) = s.metadata.get (hllMetaKey kc key) :=
    hmeta .hllMeta (by decide)
  have hdata : t.data.get (hllDataKey kc key) = s.data.get (hllDataKey kc key) := hraw
  rw [pfRegisters, pfRegisters, getHllMetaChecked, getHllMetaChecked,
    getMetaChecked_congr hstr (fun u hu _ => hmeta u hu) hget, hdata]

theorem HllStored.congr {t : Store} (hst : HllStored s kc key)
    (hmeta : t.at ⟨kc, key, .metadata .hllMeta⟩ = s.at ⟨kc, key, .metadata .hllMeta⟩)
    (hraw : t.at ⟨kc, key, .hllRaw⟩ = s.at ⟨kc, key, .hllRaw⟩) : HllStored t kc key := by
  intro v hv
  have hget : s.metadata.get (hllMetaKey kc key) = some v := hmeta.symm.trans hv
  obtain ⟨m, registers, R, hm, hplain, hdata, hholds⟩ := hst v hget
  exact ⟨m, registers, R, hm, hplain, Eq.trans hraw hdata, hholds⟩

theorem hllBatch_frame {m : HyperLogLogMeta} {registers : Bytes} {kc' : KeyComposer} {key' : Key}
    (hne : ¬(kc' = kc ∧ key' = key)) {slot : Slot} (hslot : slot.Valid) :
    (s.apply (hllBatch kc key m registers)).at ⟨kc', key', slot⟩ = s.at ⟨kc', key', slot⟩ := by
  rw [at_hllBatch s kc key m registers hslot, if_neg, if_neg]
  all_goals
    intro h
    cases h
    exact hne ⟨rfl, rfl⟩

theorem pfRegisters_hllBatch {m : HyperLogLogMeta} {registers : Bytes} {found : Option HyperLogLogMeta}
    (hget : getHllMetaChecked s kc now key = .ok found) (hplain : m.Plain)
    (hexp : m.base.isExpired now = false) :
    pfRegisters (s.apply (hllBatch kc key m registers)) kc now key =
      .ok (some (getRegister ⟨registers, m.encodeType⟩)) := by
  have hmeta : (s.apply (hllBatch kc key m registers)).metadata.get (hllMetaKey kc key) =
      some m.encode := by
    have h := at_hllBatch s kc key m registers (a := ⟨kc, key, .metadata .hllMeta⟩) rfl
    rwa [if_pos rfl] at h
  have hdata : (s.apply (hllBatch kc key m registers)).data.get (hllDataKey kc key) =
      some registers := by
    have h := at_hllBatch s kc key m registers (a := ⟨kc, key, .hllRaw⟩) trivial
    rwa [if_neg (by simp), if_pos rfl] at h
  have hstr : (s.apply (hllBatch kc key m registers)).at ⟨kc, key, .str⟩ = s.at ⟨kc, key, .str⟩ := by
    rw [at_hllBatch s kc key m registers (a := ⟨kc, key, .str⟩) trivial, if_neg (by simp),
      if_neg (by simp)]
  have hlive : (liveString s kc key now).isSome = false := by
    by_contra hs
    rw [getHllMetaChecked, getMetaChecked, if_pos (Bool.not_eq_false _ ▸ hs)] at hget
    cases hget
  have hchecked : getHllMetaChecked (s.apply (hllBatch kc key m registers)) kc now key =
      .ok (some m) := by
    have hdec : MetaOps.decode (M := HyperLogLogMeta) m.encode = some m :=
      HyperLogLogMeta.decode_encode hplain.flags
    have hexp' : MetaOps.isExpired m now = false := hexp
    rw [getHllMetaChecked, getMetaChecked, liveString_congr hstr, hlive, hmeta]
    simp only [Bool.false_eq_true, if_false, Option.bind_some, hdec, hexp']
  rw [pfRegisters, hchecked]
  simp only [bind, Except.bind, Option.bind_some, hdata]
  rfl

theorem hllBatch_stored {m : HyperLogLogMeta} {registers : Bytes} (hplain : m.Plain)
    (hholds : Holds ⟨registers, m.encodeType⟩ R) :
    HllStored (s.apply (hllBatch kc key m registers)) kc key := by
  have hmeta := at_hllBatch s kc key m registers (a := ⟨kc, key, .metadata .hllMeta⟩) rfl
  have hdata := at_hllBatch s kc key m registers (a := ⟨kc, key, .hllRaw⟩) trivial
  rw [if_pos rfl] at hmeta
  rw [if_neg (by simp), if_pos rfl] at hdata
  intro v hv
  have hm : some m.encode = some v := hmeta.symm.trans hv
  cases hm
  exact ⟨m, registers, R, rfl, hplain, hdata, hholds⟩

theorem HllStored.start (hst : HllStored s kc key) (version : UInt64) {found : Option HyperLogLogMeta}
    (hget : getHllMetaChecked s kc now key = .ok found) :
    (found.getD (.newWithVersion 0 version)).Plain ∧
      (found.getD (.newWithVersion 0 version)).base.isExpired now = false := by
  cases found with
  | none => exact ⟨⟨rfl, rfl⟩, rfl⟩
  | some m =>
    rcases hst.lookup now with ⟨err, h, -⟩ | ⟨h, -⟩ | ⟨m', registers, R, h, hplain, -⟩
    · rw [hget] at h
      cases h
    · rw [hget] at h
      cases h
    · rw [hget] at h
      cases h
      exact ⟨hplain, (getMetaChecked_eq_some hget).2.1⟩

theorem HyperLogLogMeta.Plain.update {m : HyperLogLogMeta} (h : m.Plain) (now size : UInt64)
    (encodeType : HllEncodeType) : (⟨{ m.base with size }, encodeType⟩ : HyperLogLogMeta).Plain ∧
      { m.base with size }.isExpired now = m.base.isExpired now := by
  have hplain : (⟨{ m.base with size }, encodeType⟩ : HyperLogLogMeta).Plain := ⟨h.rtype, h.flags⟩
  exact ⟨hplain, (hplain.isExpired now).trans (h.isExpired now).symm⟩

/-! ## Additions -/

theorem pfaddHash_spec (hh : h.Holds R) (hash : UInt64) : ∃ changed h',
    pfaddHash h hash = .ok (changed, h') ∧
      (changed = true ↔ R (extractDenseHllResult hash).1 < (extractDenseHllResult hash).2) ∧
      h'.Holds (R.raise (extractDenseHllResult hash).1 (extractDenseHllResult hash).2) := by
  obtain ⟨hi, -, hcount⟩ := extractDenseHllResult_bounds hash
  have hv : (extractDenseHllResult hash).2.toNat < 64 := by omega
  rw [pfaddHash]
  generalize extractDenseHllResult hash = x at hi hv
  obtain ⟨i, v⟩ := x
  cases hh with
  | dense hlen hregs =>
    obtain ⟨hgrew, hholds⟩ := raiseDense_holds (v := v) hlen hregs hi hv
    exact ⟨_, _, rfl, hgrew, hholds⟩
  | sparse hform =>
    rcases sparse_set_holds (v := v) hform hi with
      ⟨hle, hset⟩ | ⟨hlt, ⟨err, hset⟩ | ⟨registers', hset, hform'⟩⟩
    · simp only [hset]
      refine ⟨_, _, rfl, iff_of_false (by simp) (not_lt.mpr hle), ?_⟩
      rw [raise_eq_self hle]
      exact .sparse hform
    · obtain ⟨dense, hrun, hlen, hregs⟩ := hllSparseToDense_of_form hform R.list_length
      simp only [hset, denseZeros, hrun]
      obtain ⟨hgrew, hholds⟩ := raiseDense_holds (v := v) hlen
        (fun k hk => (hregs k).trans (R.getD_list hk)) hi hv
      exact ⟨_, _, rfl, hgrew, hholds⟩
    · simp only [hset]
      exact ⟨_, _, rfl, iff_of_true (by simp) hlt, .sparse hform'⟩

theorem pfaddLoop_spec (hh : h.Holds R) (hashes : List UInt64) (updated : Bool) : ∃ updated' h',
    pfaddLoop hashes updated h = .ok (updated', h') ∧
      (updated' = true ↔ updated = true ∨ ∃ k < hllRegisters, R k < R.addHashes hashes k) ∧
      h'.Holds (R.addHashes hashes) := by
  induction hashes generalizing h R updated with
  | nil =>
    refine ⟨updated, h, rfl, (or_iff_left ?_).symm, hh⟩
    rintro ⟨k, -, hlt⟩
    exact lt_irrefl _ hlt
  | cons hash hashes ih =>
    obtain ⟨changed, h1, hstep, hgrew, hholds⟩ := pfaddHash_spec hh hash
    obtain ⟨updated', h', hrun, hupd, hholds'⟩ := ih hholds (updated || changed)
    refine ⟨updated', h', by rw [pfaddLoop, hstep]; exact hrun, ?_, hholds'⟩
    rw [hupd, Bool.or_eq_true, or_assoc]
    refine or_congr_right ⟨?_, ?_⟩
    · rintro (hc | ⟨k, hk, hlt⟩)
      · refine ⟨_, (extractDenseHllResult_bounds hash).1, (hgrew.mp hc).trans_le ?_⟩
        refine le_trans ?_ (Registers.le_addHashes _ hashes _)
        exact Registers.le_raise_self R _ _
      · exact ⟨k, hk, (Registers.le_raise R _ _ k).trans_lt hlt⟩
    · rintro ⟨k, hk, hlt⟩
      by_cases hstay : R.raise (extractDenseHllResult hash).1 (extractDenseHllResult hash).2 k = R k
      · refine Or.inr ⟨k, hk, ?_⟩
        rw [hstay]
        exact hlt
      · refine Or.inl (hgrew.mpr ?_)
        by_contra hle
        rw [raise_eq_self (not_lt.mp hle)] at hstay
        exact hstay rfl

theorem HllStored.pfaddStart (hst : HllStored s kc key) (version : UInt64) {found : Option HyperLogLogMeta}
    (hget : getHllMetaChecked s kc now key = .ok found) :
    ∃ live, pfRegisters s kc now key = .ok live ∧
      (pfaddStart s kc key found (found.getD (.newWithVersion 0 version)).encodeType).Holds
        (Registers.sup live.toList) := by
  have hroom : ∀ {registers : Bytes} {t : HllEncodeType} {R : Registers},
      Holds ⟨registers, t⟩ R → ¬(t = .dense ∧ registers.length < hllDenseSize) := by
    rintro registers t R hR ⟨rfl, hlt⟩
    exact absurd hR.dense_spec.1 hlt.ne
  rw [Wedb.pfaddStart]
  rcases hst.lookup now with ⟨err, h, -⟩ | ⟨h, hpf⟩ | ⟨m, registers, R, h, -, hdata, hR, hpf⟩
  · rw [hget] at h
    cases h
  · rw [hget] at h
    cases h
    refine ⟨none, hpf, ?_⟩
    simp only [Option.isSome_none, Bool.false_eq_true, if_false, Option.getD_none]
    have hzeros : Holds ⟨denseZeros, (HyperLogLogMeta.newWithVersion 0 version).encodeType⟩ .zero :=
      denseZeros_holds
    rw [if_neg (hroom hzeros)]
    exact hzeros
  · rw [hget] at h
    cases h
    refine ⟨some R, hpf, ?_⟩
    simp only [Option.isSome_some, if_true, hdata, Option.getD_some]
    rw [if_neg (hroom hR), Option.toList_some, Registers.sup_cons, Registers.sup_nil,
      Registers.max_zero]
    exact hR

/-- An addition raises the registers of its key and reports whether one grew. -/
theorem pfaddWithHashes_spec (hst : HllStored s kc key) (hashes : List UInt64) :
    (∃ err, pfRegisters s kc now key = .error err ∧
      pfaddWithHashes s kc now version key hashes = .error err) ∨
    ∃ live updated ops, pfRegisters s kc now key = .ok live ∧
      pfaddWithHashes s kc now version key hashes = .ok (updated, ops) ∧
      (updated = true ↔ ∃ k < hllRegisters,
        Registers.sup live.toList k < (Registers.sup live.toList).addHashes hashes k) ∧
      ((updated = false ∧ ops = []) ∨ ∃ m registers, ops = hllBatch kc key m registers ∧ m.Plain ∧
        m.base.isExpired now = false ∧
        Holds ⟨registers, m.encodeType⟩ ((Registers.sup live.toList).addHashes hashes)) := by
  rw [pfaddWithHashes]
  cases hget : getHllMetaChecked s kc now key with
  | error err => exact Or.inl ⟨err, by rw [pfRegisters, hget]; rfl, rfl⟩
  | ok found =>
    obtain ⟨live, hpf, hstart⟩ := hst.pfaddStart version hget
    obtain ⟨hplain, hexp⟩ := hst.start version hget
    obtain ⟨updated, h, hrun, hupd, hholds⟩ := pfaddLoop_spec hstart hashes false
    simp only [bind, Except.bind, hrun]
    have hupd' : updated = true ↔ ∃ k < hllRegisters,
        Registers.sup live.toList k < (Registers.sup live.toList).addHashes hashes k := by
      simpa using hupd
    cases updated with
    | false => exact Or.inr ⟨live, false, [], hpf, rfl, hupd', Or.inl ⟨rfl, rfl⟩⟩
    | true =>
      obtain ⟨hplain', hexp'⟩ := hplain.update now (UInt64.ofNat h.registers.length)
        h.encodeType
      exact Or.inr ⟨live, true, _, hpf, rfl, hupd',
        Or.inr ⟨_, h.registers, rfl, hplain', hexp'.trans hexp, hholds⟩⟩

/-! ## Merging into a key -/

theorem HllStored.pfmergeDest (hst : HllStored s kc key) {found : Option HyperLogLogMeta}
    (hget : getHllMetaChecked s kc now key = .ok found) :
    ∃ live, pfRegisters s kc now key = .ok live ∧
      Holds ⟨pfmergeDest s kc key found, .dense⟩ (Registers.sup live.toList) := by
  rcases hst.lookup now with ⟨err, h, -⟩ | ⟨h, hpf⟩ | ⟨m, registers, R, h, -, hdata, hR, hpf⟩
  · rw [hget] at h
    cases h
  · rw [hget] at h
    cases h
    exact ⟨none, hpf, denseZeros_holds⟩
  · rw [hget] at h
    cases h
    refine ⟨some R, hpf, ?_⟩
    rw [Option.toList_some, Registers.sup_cons, Registers.sup_nil, Registers.max_zero]
    obtain ⟨base, encodeType⟩ := m
    simp only [Wedb.pfmergeDest, hdata, Option.getD_some]
    cases encodeType with
    | dense => exact hR
    | sparse =>
      obtain ⟨dense, hrun, hlen, hregs⟩ := hR.toDense
      have hdense : hllSparseToDense registers denseZeros = .ok dense := hrun
      simp only [hdense]
      exact .dense hlen hregs

theorem pfmerge_spec {sources : List Key} (hne : sources ≠ [])
    (hst : ∀ key ∈ dest :: sources, HllStored s kc key) :
    (∃ err, pfRegistersAll s kc now (dest :: sources) = .error err ∧
      pfmerge s kc now version dest sources = .error err) ∨
    ∃ Rs m registers, pfRegistersAll s kc now (dest :: sources) = .ok Rs ∧
      pfmerge s kc now version dest sources = .ok ((), hllBatch kc dest m registers) ∧
      m.Plain ∧ m.base.isExpired now = false ∧
      Holds ⟨registers, m.encodeType⟩ (Registers.sup Rs) := by
  rw [pfmerge, if_neg (by simpa using hne), pfRegistersAll]
  cases hget : getHllMetaChecked s kc now dest with
  | error err => exact Or.inl ⟨err, by rw [pfRegisters, hget]; rfl, rfl⟩
  | ok found =>
    obtain ⟨live, hpf, hstart⟩ := (hst dest (by simp)).pfmergeDest hget
    obtain ⟨hplain, hexp⟩ := (hst dest (by simp)).start version hget
    have hseen : Seen s kc now [dest] (Registers.sup live.toList) := by
      intro key hkey
      rw [List.mem_singleton.mp hkey]
      exact ⟨live, hpf, fun _ _ => le_rfl⟩
    rw [hpf]
    simp only [bind, Except.bind]
    rw [if_neg hstart.dense_spec.1.not_lt]
    rcases mergeSources_spec (fun key hkey => hst key (List.mem_cons_of_mem _ hkey))
      hstart hseen with ⟨err, hall, hrun⟩ | ⟨Rs, hasAny, merged, hall, hrun, hholds, -⟩
    · refine Or.inl ⟨err, by rw [hall], ?_⟩
      rw [hrun]
    · obtain ⟨hplain', hexp'⟩ := hplain.update now (UInt64.ofNat hllDenseSize) .dense
      refine Or.inr ⟨live.toList ++ Rs, _, merged, by rw [hall]; rfl, ?_, hplain',
        hexp'.trans hexp, ?_⟩
      · rw [hrun]
        rfl
      · rw [Registers.sup_append]
        exact hholds

end Wedb
