import Wedb.Hll.Convert

/-!
# The HyperLogLog structure

A dense or a sparse form. A sparse form that refuses a change is promoted and the
change made in the dense form. The operations are described by what they do to the
registers, whichever form holds them.
-/

namespace Wedb

open RunLength

inductive HllEncodeType
  | dense
  | sparse
  deriving DecidableEq, Repr

structure HyperLogLog where
  registers : Bytes
  encodeType : HllEncodeType
  deriving DecidableEq, Repr

def resizeDense (registers : Bytes) : Bytes :=
  registers ++ List.replicate (hllDenseSize - registers.length) 0

namespace HyperLogLog

def new : HyperLogLog := ⟨List.replicate hllDenseSize 0, .dense⟩

def newSparse : HyperLogLog := ⟨hllSparseNew, .sparse⟩

def fromBytes (bytes : Bytes) : HyperLogLog :=
  if bytes.length ≥ hllDenseSize then ⟨bytes.take hllDenseSize, .dense⟩
  else if hllSparseIsValid bytes then ⟨bytes, .sparse⟩
  else
    let copyLen := min bytes.length hllDenseSize
    ⟨bytes.take copyLen ++ List.replicate (hllDenseSize - copyLen) 0, .dense⟩

def fromSparseBytes (bytes : Bytes) : Except Error HyperLogLog :=
  if !hllSparseIsValid bytes then .error (.invalidData "invalid sparse hll payload")
  else .ok ⟨bytes, .sparse⟩

def promoteToDense (h : HyperLogLog) : Except Error HyperLogLog :=
  match h.encodeType with
  | .dense =>
    .ok (if h.registers.length < hllDenseSize then { h with registers := resizeDense h.registers }
      else h)
  | .sparse =>
    (hllSparseToDense h.registers (List.replicate hllDenseSize 0)).map fun dense => ⟨dense, .dense⟩

def promoted (h : HyperLogLog) : HyperLogLog :=
  match h.promoteToDense with
  | .ok h' => h'
  | .error _ => h

def getRegister (h : HyperLogLog) (index : ℕ) : UInt8 :=
  match h.encodeType with
  | .dense => hllDenseGetRegister h.registers index
  | .sparse =>
    match hllSparseGetRegister h.registers index with
    | .ok v => v
    | .error _ => 0

def setRegister (h : HyperLogLog) (index : ℕ) (val : UInt8) : HyperLogLog :=
  if index ≥ hllRegisters then h
  else
    match h.encodeType with
    | .dense =>
      let registers :=
        if h.registers.length < hllDenseSize then resizeDense h.registers else h.registers
      { h with registers := hllDenseSetRegister registers index val }
    | .sparse =>
      match hllSparseSetRegister h.registers index val with
      | .ok (_, registers) => { h with registers }
      | .error _ =>
        match h.promoteToDense with
        | .ok h' => { h' with registers := hllDenseSetRegister h'.registers index val }
        | .error _ => h

def raiseDense (h : HyperLogLog) (idx : ℕ) (count : UInt8) : Bool × HyperLogLog :=
  if count > hllDenseGetRegister h.registers idx then
    (true, { h with registers := hllDenseSetRegister h.registers idx count })
  else (false, h)

def addHash (h : HyperLogLog) (hash : UInt64) : Bool × HyperLogLog :=
  let (idx, count) := extractDenseHllResult hash
  match h.encodeType with
  | .dense =>
    raiseDense (if h.registers.length < hllDenseSize then
      { h with registers := resizeDense h.registers } else h) idx count
  | .sparse =>
    match hllSparseSetRegister h.registers idx count with
    | .ok (updated, registers) => (updated, { h with registers })
    | .error _ =>
      match h.promoteToDense with
      | .ok h' => raiseDense h' idx count
      | .error _ => (false, h)

def denseHisto (registers : Bytes) : ℕ → ℕ :=
  if registers.length ≥ hllDenseSize then
    hllDenseRegHisto (registers.take hllDenseSize) fun _ => 0
  else
    bump (hllDenseRegHisto registers fun _ => 0) 0 (hllRegisters - registers.length * 8 / 6)

def histo (h : HyperLogLog) : ℕ → ℕ :=
  match h.encodeType with
  | .dense => denseHisto h.registers
  | .sparse =>
    match hllSparseRegHisto h.registers fun _ => 0 with
    | .ok reghisto => reghisto
    | .error _ => denseHisto h.registers

def count (estimate : (ℕ → ℕ) → UInt64) (h : HyperLogLog) : UInt64 := estimate h.histo

def HllSparseOp.isVal : HllSparseOp → Bool
  | .val _ _ => true
  | .zero _ | .xZero _ => false

def isEmpty (h : HyperLogLog) : Bool :=
  match h.encodeType with
  | .dense => h.registers.all (· == 0)
  | .sparse => (sparseOps h.registers).2 && (sparseOps h.registers).1.all fun op => !HllSparseOp.isVal op

def merge (h other : HyperLogLog) : HyperLogLog :=
  if other.isEmpty then h
  else
    match h.encodeType, other.encodeType with
    | .dense, .dense =>
      let registers :=
        if h.registers.length < hllDenseSize then resizeDense h.registers else h.registers
      { h with registers := hllMergeBytes registers other.registers }
    | _, .dense =>
      { h.promoted with registers := hllMergeBytes h.promoted.registers other.registers }
    | _, .sparse =>
      { h.promoted with registers := hllMergeSparseIntoDense h.promoted.registers other.registers }

def mergeBytes (h : HyperLogLog) (other : Bytes) : HyperLogLog :=
  if other.isEmpty then h
  else if other.length ≥ hllDenseSize then
    { h.promoted with registers := hllMergeBytes h.promoted.registers other }
  else if hllSparseIsValid other then
    { h.promoted with registers := hllMergeSparseIntoDense h.promoted.registers other }
  else { h.promoted with registers := hllMergeBytes h.promoted.registers other }

def clear (h : HyperLogLog) : HyperLogLog :=
  match h.encodeType with
  | .dense => { h with registers := List.replicate h.registers.length 0 }
  | .sparse => { h with registers := hllSparseNew }

def toDense (h : HyperLogLog) : Except Error Bytes :=
  match h.encodeType with
  | .dense => .ok h.registers
  | .sparse => hllSparseToDense h.registers (List.replicate hllDenseSize 0)

def toSparse (h : HyperLogLog) : Option Bytes :=
  match h.encodeType with
  | .sparse => some h.registers
  | .dense => hllDenseToSparse h.registers

end HyperLogLog

/-! ## The registers a form holds -/

/-- The values of the registers by their index. -/
abbrev Registers := ℕ → UInt8

namespace Registers

def zero : Registers := fun _ => 0

def raise (R : Registers) (i : ℕ) (v : UInt8) : Registers :=
  fun k => if k = i then max (R k) v else R k

def assign (R : Registers) (i : ℕ) (v : UInt8) : Registers := fun k => if k = i then v else R k

def max (R R' : Registers) : Registers := fun k => Max.max (R k) (R' k)

def list (R : Registers) : List UInt8 := (List.range hllRegisters).map R

theorem list_length (R : Registers) : R.list.length = hllRegisters := by
  rw [list, List.length_map, List.length_range]

theorem getD_list (R : Registers) {k : ℕ} (hk : k < hllRegisters) : R.list.getD k 0 = R k := by
  rw [list, List.getD_eq_getElem?_getD, List.getElem?_map, List.getElem?_range hk]
  rfl

theorem list_congr {R R' : Registers} (h : ∀ k < hllRegisters, R k = R' k) : R.list = R'.list :=
  List.map_congr_left fun k hk => h k (List.mem_range.mp hk)

theorem list_getD {regs : List UInt8} (h : regs.length = hllRegisters) :
    list (fun k => regs.getD k 0) = regs := by
  refine List.ext_getElem? fun k => ?_
  rw [list, List.getElem?_map]
  by_cases hk : k < hllRegisters
  · rw [List.getElem?_range hk, List.getElem?_eq_getElem (h ▸ hk), Option.map_some,
      List.getD_eq_getElem?_getD, List.getElem?_eq_getElem (h ▸ hk), Option.getD_some]
  · rw [List.getElem?_eq_none (by simpa using hk), List.getElem?_eq_none (by omega)]
    rfl

theorem list_set (R : Registers) (i : ℕ) (v : UInt8) :
    R.list.set i v = (R.assign i v).list := by
  refine (list_getD ?_).symm.trans (list_congr fun k hk => ?_)
  · rw [List.length_set, list_length]
  · rw [assign, List.getD_eq_getElem?_getD, List.getElem?_set]
    have hlen := R.list_length
    by_cases hki : k = i
    · rw [if_pos hki.symm, if_pos (by omega), if_pos hki]
      rfl
    · rw [if_neg (Ne.symm hki), if_neg hki, ← List.getD_eq_getElem?_getD, R.getD_list hk]

end Registers

/-- The structure is well formed and holds the registers. -/
inductive HyperLogLog.Holds : HyperLogLog → Registers → Prop
  | dense {registers : Bytes} {R : Registers} : registers.length = hllDenseSize →
      (∀ k < hllRegisters, hllDenseGetRegister registers k = R k) → Holds ⟨registers, .dense⟩ R
  | sparse {registers : Bytes} {R : Registers} : SparseForm registers R.list →
      Holds ⟨registers, .sparse⟩ R

namespace HyperLogLog

variable {h h' other : HyperLogLog} {R R' : Registers} {registers : Bytes} {i k : ℕ} {v : UInt8}

theorem Holds.congr (hh : h.Holds R) (hR : ∀ k < hllRegisters, R k = R' k) : h.Holds R' := by
  cases hh with
  | dense hlen hregs => exact .dense hlen fun k hk => (hregs k hk).trans (hR k hk)
  | sparse hform => exact .sparse (Registers.list_congr hR ▸ hform)

theorem Holds.getRegister (hh : h.Holds R) (hk : k < hllRegisters) : h.getRegister k = R k := by
  cases hh with
  | dense hlen hregs => exact hregs k hk
  | sparse hform =>
    rw [HyperLogLog.getRegister]
    simp only [hllSparseGetRegister_of_form hform R.list_length hk]
    exact R.getD_list hk

theorem new_holds : new.Holds .zero :=
  .dense List.length_replicate fun k _ => getRegister_zeros hllDenseSize k

theorem zero_list : Registers.zero.list = List.replicate hllRegisters 0 := by
  refine List.eq_replicate_iff.mpr ⟨Registers.list_length _, fun x hx => ?_⟩
  obtain ⟨k, -, rfl⟩ := List.mem_map.mp hx
  rfl

theorem newSparse_holds : newSparse.Holds .zero := by
  refine .sparse ?_
  rw [zero_list]
  exact hllSparseNew_form

theorem room (hlen : registers.length = hllDenseSize) (hi : i < hllRegisters) :
    6 * i + 6 ≤ 8 * registers.length := by
  rw [hlen]
  simp only [hllDenseSize, hllRegisters] at hi ⊢
  omega

theorem Holds.promoteToDense (hh : h.Holds R) :
    ∃ registers, h.promoteToDense = .ok ⟨registers, .dense⟩ ∧ registers.length = hllDenseSize ∧
      ∀ k < hllRegisters, hllDenseGetRegister registers k = R k := by
  cases hh with
  | @dense registers R hlen hregs =>
    refine ⟨registers, ?_, hlen, hregs⟩
    simp only [HyperLogLog.promoteToDense, hlen, lt_irrefl, if_false]
  | sparse hform =>
    obtain ⟨dense, hrun, hlen, hregs⟩ := hllSparseToDense_of_form hform R.list_length
    refine ⟨dense, ?_, hlen, fun k hk => (hregs k).trans (R.getD_list hk)⟩
    simp only [HyperLogLog.promoteToDense, hrun]
    rfl

theorem Holds.promoted (hh : h.Holds R) : ∃ registers, h.promoted = ⟨registers, .dense⟩ ∧
    registers.length = hllDenseSize ∧ ∀ k < hllRegisters, hllDenseGetRegister registers k = R k := by
  obtain ⟨registers, hrun, hlen, hregs⟩ := hh.promoteToDense
  refine ⟨registers, ?_, hlen, hregs⟩
  rw [HyperLogLog.promoted, hrun]

theorem dense_set_holds (hlen : registers.length = hllDenseSize)
    (hregs : ∀ k < hllRegisters, hllDenseGetRegister registers k = R k) (hi : i < hllRegisters) :
    Holds ⟨hllDenseSetRegister registers i v, .dense⟩ (R.assign i (v &&& 0x3F)) := by
  refine .dense (by rw [hllDenseSetRegister_length, hlen]) fun k hk => ?_
  rw [Registers.assign]
  split_ifs with hki
  · rw [hki, getRegister_setRegister_masked (room hlen hi)]
  · rw [getRegister_setRegister_of_ne (room hlen hi) hki]
    exact hregs k hk

theorem raise_eq_assign (hlt : R i < v) : R.raise i v = R.assign i v := by
  funext k
  rw [Registers.raise, Registers.assign]
  split_ifs with hki
  · rw [hki]
    exact max_eq_right hlt.le
  · rfl

theorem raise_eq_self (hle : v ≤ R i) : R.raise i v = R := by
  funext k
  rw [Registers.raise]
  split_ifs with hki
  · rw [hki]
    exact max_eq_left hle
  · rfl

theorem and_mask_of_lt (hv : v.toNat < 64) : v &&& 0x3F = v := by
  refine UInt8.toNat_inj.mp ?_
  rw [toNat_and_mask v (n := 6) rfl]
  exact Nat.mod_eq_of_lt hv

theorem raiseDense_holds (hlen : registers.length = hllDenseSize)
    (hregs : ∀ k < hllRegisters, hllDenseGetRegister registers k = R k) (hi : i < hllRegisters)
    (hv : v.toNat < 64) :
    ((raiseDense ⟨registers, .dense⟩ i v).1 = true ↔ R i < v) ∧
      (raiseDense ⟨registers, .dense⟩ i v).2.Holds (R.raise i v) := by
  rw [raiseDense, hregs i hi]
  split_ifs with hgt
  · refine ⟨iff_of_true (by simp) hgt, ?_⟩
    rw [raise_eq_assign hgt]
    have hset := dense_set_holds (v := v) hlen hregs hi
    rwa [and_mask_of_lt hv] at hset
  · refine ⟨iff_of_false (by simp) hgt, ?_⟩
    rw [raise_eq_self (not_lt.mp hgt)]
    exact .dense hlen hregs

theorem sparse_set_holds (hform : SparseForm registers R.list) (hi : i < hllRegisters) :
    (v ≤ R i ∧ hllSparseSetRegister registers i v = .ok (false, registers)) ∨
    R i < v ∧ ((∃ err, hllSparseSetRegister registers i v = .error err) ∨
      ∃ registers', hllSparseSetRegister registers i v = .ok (true, registers') ∧
        SparseForm registers' (R.raise i v).list) := by
  have hspec := hllSparseSetRegister_spec (v := v) hform R.list_length hi
  rw [R.getD_list hi, R.list_set] at hspec
  refine hspec.imp_right fun ⟨hlt, hrest⟩ => ⟨hlt, ?_⟩
  rwa [raise_eq_assign hlt]

/-! ## Adding -/

theorem extractDenseHllResult_bounds (hash : UInt64) :
    (extractDenseHllResult hash).1 < hllRegisters ∧
      0 < (extractDenseHllResult hash).2.toNat ∧ (extractDenseHllResult hash).2.toNat ≤ 51 := by
  have hbit : (hash.toNat / 2 ^ hllRegisterCountPow ||| 2 ^ hllHashBitCount).testBit
      hllHashBitCount = true := by
    rw [Nat.testBit_or, Nat.testBit_two_pow_self, Bool.or_true]
  have hle : trailingZeros (hash.toNat / 2 ^ hllRegisterCountPow ||| 2 ^ hllHashBitCount) ≤ 50 := by
    rw [trailingZeros]
    cases hfind : (List.range 64).find? fun j =>
        (hash.toNat / 2 ^ hllRegisterCountPow ||| 2 ^ hllHashBitCount).testBit j with
    | none =>
      rw [List.find?_eq_none] at hfind
      exact absurd hbit (hfind 50 (by decide))
    | some j =>
      rw [List.find?_range_eq_some] at hfind
      by_contra hgt
      have hno := hfind.2.2 hllHashBitCount (not_le.mp hgt)
      rw [hbit] at hno
      cases hno
  refine ⟨Nat.mod_lt _ (by decide), ?_, ?_⟩
  · simp only [extractDenseHllResult]
    rw [UInt8.toNat_ofNat_of_lt' (lt_of_le_of_lt (Nat.succ_le_succ hle) (by decide))]
    exact Nat.succ_pos _
  · simp only [extractDenseHllResult]
    rw [UInt8.toNat_ofNat_of_lt' (lt_of_le_of_lt (Nat.succ_le_succ hle) (by decide))]
    exact Nat.succ_le_succ hle

theorem Holds.addHash (hh : h.Holds R) (hash : UInt64) :
    ((h.addHash hash).1 = true ↔
      R (extractDenseHllResult hash).1 < (extractDenseHllResult hash).2) ∧
    (h.addHash hash).2.Holds
      (R.raise (extractDenseHllResult hash).1 (extractDenseHllResult hash).2) := by
  obtain ⟨hi, -, hcount⟩ := extractDenseHllResult_bounds hash
  have hv : (extractDenseHllResult hash).2.toNat < 64 := by omega
  have hprom := hh.promoteToDense
  rw [HyperLogLog.addHash]
  generalize extractDenseHllResult hash = x at hi hv
  obtain ⟨i, v⟩ := x
  cases hh with
  | dense hlen hregs =>
    simp only [hlen, lt_irrefl, if_false]
    exact raiseDense_holds hlen hregs hi hv
  | sparse hform =>
    rcases sparse_set_holds (v := v) hform hi with
      ⟨hle, hset⟩ | ⟨hlt, ⟨err, hset⟩ | ⟨registers', hset, hform'⟩⟩
    · simp only [hset]
      refine ⟨iff_of_false (by simp) (not_lt.mpr hle), ?_⟩
      rw [raise_eq_self hle]
      exact .sparse hform
    · obtain ⟨dense, hrun, hlen, hregs⟩ := hprom
      simp only [hset, hrun]
      exact raiseDense_holds hlen hregs hi hv
    · simp only [hset]
      exact ⟨iff_of_true (by simp) hlt, .sparse hform'⟩

/-! ## Setting, promoting and clearing -/

/-- What setting a register does: a dense form takes the low six bits of the value,
a sparse form is raised, and promoted by a value it cannot hold. -/
def setSpec (t : HllEncodeType) (R : Registers) (i : ℕ) (v : UInt8) : Registers :=
  if t = .sparse ∧ v ≤ hllSparseValMaxValue then R.raise i v else R.assign i (v &&& 0x3F)

theorem Holds.setRegister_of_ge (h : HyperLogLog) (hi : hllRegisters ≤ i) (v : UInt8) :
    h.setRegister i v = h := by
  rw [HyperLogLog.setRegister, if_pos hi]

theorem Holds.setRegister (hh : h.Holds R) (hi : i < hllRegisters) (v : UInt8) :
    (h.setRegister i v).Holds (setSpec h.encodeType R i v) := by
  have hprom := hh.promoteToDense
  rw [HyperLogLog.setRegister, if_neg (not_le.mpr hi)]
  cases hh with
  | dense hlen hregs =>
    simp only [hlen, lt_irrefl, if_false, setSpec]
    rw [if_neg (by simp)]
    exact dense_set_holds hlen hregs hi
  | sparse hform =>
    simp only [setSpec, true_and]
    rcases sparse_set_holds (v := v) hform hi with
      ⟨hle, hset⟩ | ⟨hlt, ⟨err, hset⟩ | ⟨registers', hset, hform'⟩⟩
    · have hv : v ≤ hllSparseValMaxValue := by
        by_contra hbig
        rw [hllSparseSetRegister, if_neg (not_le.mpr hi), if_pos (not_le.mp hbig)] at hset
        cases hset
      simp only [hset]
      rw [if_pos hv, raise_eq_self hle]
      exact .sparse hform
    · obtain ⟨dense, hrun, hlen, hregs⟩ := hprom
      simp only [hset, hrun]
      have hstep := dense_set_holds (v := v) hlen hregs hi
      split_ifs with hv
      · rwa [and_mask_of_lt (hllSparseValMaxValue_lt hv), ← raise_eq_assign hlt] at hstep
      · exact hstep
    · have hv : v ≤ hllSparseValMaxValue := by
        by_contra hbig
        rw [hllSparseSetRegister, if_neg (not_le.mpr hi), if_pos (not_le.mp hbig)] at hset
        cases hset
      simp only [hset]
      rw [if_pos hv]
      exact .sparse hform'

theorem Holds.clear (hh : h.Holds R) : h.clear.Holds .zero := by
  cases hh with
  | dense hlen hregs =>
    exact .dense (List.length_replicate.trans hlen) fun k _ => getRegister_zeros _ k
  | sparse hform => exact newSparse_holds

theorem Holds.toDense (hh : h.Holds R) : ∃ dense, h.toDense = .ok dense ∧
    dense.length = hllDenseSize ∧ ∀ k < hllRegisters, hllDenseGetRegister dense k = R k := by
  cases hh with
  | dense hlen hregs => exact ⟨_, rfl, hlen, hregs⟩
  | sparse hform =>
    obtain ⟨dense, hrun, hlen, hregs⟩ := hllSparseToDense_of_form hform R.list_length
    exact ⟨dense, hrun, hlen, fun k hk => (hregs k).trans (R.getD_list hk)⟩

theorem Holds.toSparse (hh : h.Holds R) (hs : h.toSparse = some registers) :
    SparseForm registers R.list := by
  cases hh with
  | dense hlen hregs =>
    have hform := hllDenseToSparse_form hs
    rwa [List.map_congr_left fun k hk => hregs k (List.mem_range.mp hk)] at hform
  | sparse hform =>
    cases hs
    exact hform

theorem fromSparseBytes_holds (hform : SparseForm registers R.list) :
    ∃ h, fromSparseBytes registers = .ok h ∧ h.Holds R := by
  have hvalid := hllSparseIsValid_of_form hform R.list_length
  exact ⟨_, by rw [fromSparseBytes, hvalid]; rfl, .sparse hform⟩

/-! ## Merging -/

theorem bytesMerge_holds (hlen : registers.length = hllDenseSize)
    (hregs : ∀ k < hllRegisters, hllDenseGetRegister registers k = R k) {src : Bytes}
    (hsrc : ∀ k < hllRegisters, denseRegisters src k = R' k) :
    Holds ⟨hllMergeBytes registers src, .dense⟩ (R.max R') := by
  refine .dense (by rw [hllMergeBytes_length, hlen]) fun k hk => ?_
  rw [getRegister_hllMergeBytes (room hlen hk), hregs k hk, hsrc k hk]
  rfl

theorem sparseMerge_holds (hlen : registers.length = hllDenseSize)
    (hregs : ∀ k < hllRegisters, hllDenseGetRegister registers k = R k) {src : Bytes}
    (hsrc : SparseForm src R'.list) :
    Holds ⟨hllMergeSparseIntoDense registers src, .dense⟩ (R.max R') := by
  obtain ⟨hsize, hget⟩ := hllMergeSparseIntoDense_of_form hsrc R'.list_length hlen
  refine .dense hsize fun k hk => ?_
  rw [hget, hregs k hk, R'.getD_list hk]
  rfl

theorem denseRegisters_of_length (hlen : registers.length = hllDenseSize) (hi : i < hllRegisters) :
    denseRegisters registers i = hllDenseGetRegister registers i :=
  if_pos (room hlen hi)

theorem Holds.of_isEmpty (hh : h.Holds R) (hempty : h.isEmpty = true) :
    ∀ k < hllRegisters, R k = 0 := by
  cases hh with
  | @dense registers R hlen hregs =>
    intro k hk
    have hzero : registers = List.replicate registers.length 0 := by
      rw [List.eq_replicate_iff]
      exact ⟨rfl, fun b hb => beq_iff_eq.mp (List.all_eq_true.mp hempty b hb)⟩
    rw [← hregs k hk, hzero]
    exact getRegister_zeros _ k
  | @sparse registers R hform =>
    simp only [isEmpty, Bool.and_eq_true, List.all_eq_true] at hempty
    intro k hk
    have hall : ∀ x ∈ R.list, x = 0 := by
      rw [← hform.regs, sparseRegs]
      intro x hx
      obtain ⟨run, hrun, hxr⟩ := List.mem_flatMap.mp hx
      obtain ⟨op, hop, rfl⟩ := List.mem_map.mp hrun
      have hval := hempty.2 op hop
      rw [(List.mem_replicate.mp hxr).2]
      cases op with
      | zero len | xZero len => rfl
      | val v len => cases hval
    exact hall _ (List.mem_map.mpr ⟨k, List.mem_range.mpr hk, rfl⟩)

theorem max_zero_right (hzero : ∀ k < hllRegisters, R' k = 0) :
    ∀ k < hllRegisters, R k = R.max R' k := by
  intro k hk
  rw [Registers.max, hzero k hk]
  exact (max_eq_left UInt8.zero_le).symm

theorem Holds.merge (hh : h.Holds R) (ho : other.Holds R') : (h.merge other).Holds (R.max R') := by
  obtain ⟨dense, hprom, hplen, hpregs⟩ := hh.promoted
  rw [HyperLogLog.merge]
  by_cases hempty : other.isEmpty = true
  · rw [if_pos hempty]
    exact hh.congr (max_zero_right (ho.of_isEmpty hempty))
  · rw [if_neg hempty]
    cases ho with
    | @dense src _ hlen' hregs' =>
      have hsrc : ∀ k < hllRegisters, denseRegisters src k = R' k := fun k hk =>
        (denseRegisters_of_length hlen' hk).trans (hregs' k hk)
      cases hh with
      | dense hlen hregs =>
        simp only [hlen, lt_irrefl, if_false]
        exact bytesMerge_holds hlen hregs hsrc
      | sparse hform =>
        simp only [hprom]
        exact bytesMerge_holds hplen hpregs hsrc
    | sparse hform' =>
      cases hh with
      | dense hlen hregs =>
        simp only [hprom]
        exact sparseMerge_holds hplen hpregs hform'
      | sparse hform =>
        simp only [hprom]
        exact sparseMerge_holds hplen hpregs hform'

def bytesRegisters (bytes : Bytes) : Registers :=
  if bytes.length < hllDenseSize ∧ hllSparseIsValid bytes = true then
    fun k => (sparseRegs bytes).getD k 0
  else denseRegisters bytes

theorem Holds.mergeBytes (hh : h.Holds R) (bytes : Bytes) :
    (h.mergeBytes bytes).Holds (R.max (bytesRegisters bytes)) := by
  obtain ⟨dense, hprom, hplen, hpregs⟩ := hh.promoted
  rw [HyperLogLog.mergeBytes, bytesRegisters]
  split_ifs with hempty hvalid hlong hvalid' hsparse hvalid' hvalid'
  · rw [List.isEmpty_iff] at hempty
    subst hempty
    have hinvalid : hllSparseIsValid [] = false := by
      rw [hllSparseIsValid, sparseOps_of_none rfl]
      decide
    rw [hinvalid] at hvalid
    cases hvalid.2
  · rw [List.isEmpty_iff] at hempty
    subst hempty
    exact hh.congr (max_zero_right fun k _ => by
      rw [denseRegisters, if_neg (by simp)])
  · exact absurd hvalid'.1 (not_lt.mpr hlong)
  · rw [hprom]
    exact bytesMerge_holds hplen hpregs fun _ _ => rfl
  · rw [hprom]
    obtain ⟨hform, hlen⟩ := hllSparseIsValid_iff.mp hsparse
    refine sparseMerge_holds hplen hpregs ?_
    rwa [Registers.list_getD hlen]
  · exact absurd ⟨not_le.mp hlong, hsparse⟩ hvalid'
  · exact absurd hvalid'.2 (by assumption)
  · rw [hprom]
    exact bytesMerge_holds hplen hpregs fun _ _ => rfl

/-! ## Histograms -/

theorem Holds.histo (hh : h.Holds R) : h.histo = registerHisto R := by
  cases hh with
  | @dense registers R hlen hregs =>
    have htotal : hllDenseSize * 8 / 6 = hllRegisters := by decide
    simp only [HyperLogLog.histo, denseHisto]
    rw [if_pos hlen.ge, List.take_of_length_le hlen.le, hllDenseRegHisto_eq, hlen, htotal,
      registerHisto, List.map_congr_left fun k hk => hregs k (List.mem_range.mp hk)]
  | @sparse registers R hform =>
    simp only [HyperLogLog.histo, hllSparseRegHisto_of_form hform R.list_length]
    rfl

end HyperLogLog

end Wedb
