import Wedb.Hll.Decoded

/-!
# Between the forms

The runs of a sparse form are written into a dense one, over zeros or over the
registers of another form; a dense form is encoded run by run. Both histograms
count the same registers.
-/

namespace Wedb

open RunLength BitStream

section
variable {d dense dest sparse out : Bytes} {regs : List UInt8} {ops : List HllSparseOp}
  {v : UInt8} {i k n start stop : ℕ}

/-! ## Writing runs -/

theorem foldl_registers (step : Bytes → ℕ → Bytes) (g : UInt8 → UInt8)
    (hstep : ∀ d i, 6 * i + 6 ≤ 8 * d.length → (step d i).length = d.length ∧
      ∀ k, hllDenseGetRegister (step d i) k =
        if k = i then g (hllDenseGetRegister d i) else hllDenseGetRegister d k)
    (hroom : 6 * (start + n) ≤ 8 * d.length) :
    ((List.range' start n).foldl step d).length = d.length ∧
      ∀ k, hllDenseGetRegister ((List.range' start n).foldl step d) k =
        if start ≤ k ∧ k < start + n then g (hllDenseGetRegister d k)
        else hllDenseGetRegister d k := by
  induction n with
  | zero =>
    refine ⟨rfl, fun k => ?_⟩
    rw [if_neg (by omega)]
    rfl
  | succ n ih =>
    obtain ⟨hlen, hregs⟩ := ih (by omega)
    rw [List.range'_concat, List.foldl_append, Nat.one_mul]
    obtain ⟨hlen', hregs'⟩ := hstep ((List.range' start n).foldl step d) (start + n)
      (by rw [hlen]; omega)
    refine ⟨hlen'.trans hlen, fun k => ?_⟩
    refine (hregs' k).trans ?_
    by_cases hk : k = start + n
    · rw [if_pos hk, hregs, if_neg (by omega), if_pos (by omega), hk]
    · rw [if_neg hk, hregs k]
      by_cases hin : start ≤ k ∧ k < start + n
      · rw [if_pos hin, if_pos (by omega)]
      · rw [if_neg hin, if_neg (by omega)]

theorem hllSparseValMaxValue_lt (hv : v ≤ hllSparseValMaxValue) : v.toNat < 2 ^ 6 :=
  (UInt8.le_iff_toNat_le.mp hv).trans_lt (by decide)

/-- The operation raises the registers of a range, where they satisfy `P`. -/
def Raises (write : Bytes → ℕ → ℕ → UInt8 → Bytes) (P : UInt8 → Prop) : Prop :=
  ∀ d start stop v, d.length = hllDenseSize → stop ≤ hllRegisters → v ≤ hllSparseValMaxValue →
    (∀ k, start ≤ k → P (hllDenseGetRegister d k)) →
    (write d start stop v).length = d.length ∧
      ∀ k, hllDenseGetRegister (write d start stop v) k =
        if start ≤ k ∧ k < stop then max (hllDenseGetRegister d k) v else hllDenseGetRegister d k

theorem fillRun_raises : Raises fillRun fun x => x = 0 := by
  intro d start stop v hlen hstop hv hzero
  by_cases hlt : stop ≤ start
  · rw [fillRun, Nat.sub_eq_zero_of_le hlt]
    exact ⟨rfl, fun k => by rw [if_neg (by omega)]; rfl⟩
  · have hend : start + (stop - start) = stop := by omega
    have hstep : ∀ d i, 6 * i + 6 ≤ 8 * d.length → (hllDenseSetRegister d i v).length = d.length ∧
        ∀ k, hllDenseGetRegister (hllDenseSetRegister d i v) k =
          if k = i then v else hllDenseGetRegister d k := by
      intro d i hroom
      refine ⟨hllDenseSetRegister_length d i v, fun k => ?_⟩
      split_ifs with hk
      · rw [hk]
        exact getRegister_setRegister_self hroom (hllSparseValMaxValue_lt hv)
      · exact getRegister_setRegister_of_ne hroom hk
    have hroom : 6 * (start + (stop - start)) ≤ 8 * d.length := by
      rw [hend, hlen, hllDenseSize]
      simp only [hllRegisters] at hstop
      omega
    obtain ⟨hlen', hregs⟩ := foldl_registers _ (fun _ => v) hstep hroom
    refine ⟨hlen', fun k => (hregs k).trans ?_⟩
    rw [hend]
    split_ifs with hin
    · rw [hzero k hin.1]
      exact (max_eq_right UInt8.zero_le).symm
    · rfl

theorem raiseRun_raises : Raises raiseRun fun _ => True := by
  intro d start stop v hlen hstop hv _
  by_cases hlt : stop ≤ start
  · rw [raiseRun, Nat.sub_eq_zero_of_le hlt]
    exact ⟨rfl, fun k => by rw [if_neg (by omega)]; rfl⟩
  · have hend : start + (stop - start) = stop := by omega
    have hstep : ∀ d i, 6 * i + 6 ≤ 8 * d.length →
        (if v > hllDenseGetRegister d i then hllDenseSetRegister d i v else d).length = d.length ∧
        ∀ k, hllDenseGetRegister
            (if v > hllDenseGetRegister d i then hllDenseSetRegister d i v else d) k =
          if k = i then max (hllDenseGetRegister d i) v else hllDenseGetRegister d k := by
      intro d i hroom
      by_cases hgt : v > hllDenseGetRegister d i
      · rw [if_pos hgt]
        refine ⟨hllDenseSetRegister_length d i v, fun k => ?_⟩
        split_ifs with hk
        · rw [hk, getRegister_setRegister_self hroom (hllSparseValMaxValue_lt hv)]
          exact (max_eq_right hgt.le).symm
        · exact getRegister_setRegister_of_ne hroom hk
      · rw [if_neg hgt]
        refine ⟨rfl, fun k => ?_⟩
        split_ifs with hk
        · rw [hk]
          exact (max_eq_left (not_lt.mp hgt)).symm
        · rfl
    have hroom : 6 * (start + (stop - start)) ≤ 8 * d.length := by
      rw [hend, hlen, hllDenseSize]
      simp only [hllRegisters] at hstop
      omega
    obtain ⟨hlen', hregs⟩ := foldl_registers _ (fun x => max x v) hstep hroom
    refine ⟨hlen', fun k => (hregs k).trans ?_⟩
    rw [hend]

theorem writeOps_spec {write : Bytes → ℕ → ℕ → UInt8 → Bytes} {P : UInt8 → Prop}
    (hwrite : Raises write P) (hops : ∀ op ∈ ops, op.value ≤ hllSparseValMaxValue)
    (hlen : d.length = hllDenseSize) (hP : ∀ k, i ≤ k → P (hllDenseGetRegister d k))
    (htotal : i + totalRegs ops ≤ hllRegisters) :
    (writeOps write ops i d).length = hllDenseSize ∧
      ∀ k, hllDenseGetRegister (writeOps write ops i d) k =
        if i ≤ k then max (hllDenseGetRegister d k)
          ((expand (ops.map HllSparseOp.run)).getD (k - i) 0)
        else hllDenseGetRegister d k := by
  induction ops generalizing i d with
  | nil =>
    refine ⟨hlen, fun k => ?_⟩
    split_ifs
    · exact (max_eq_left UInt8.zero_le).symm
    · rfl
  | cons op ops ih =>
    obtain ⟨hop, hrest⟩ := List.forall_mem_cons.mp hops
    rw [totalRegs_cons] at htotal
    have hmin : min (i + op.len) hllRegisters = i + op.len := by omega
    have hnext : ∃ d', (if op.value > 0 then write d i (min (i + op.len) hllRegisters) op.value
        else d) = d' ∧ d'.length = hllDenseSize ∧ ∀ k, hllDenseGetRegister d' k =
          if i ≤ k ∧ k < i + op.len then max (hllDenseGetRegister d k) op.value
          else hllDenseGetRegister d k := by
      refine ⟨_, rfl, ?_⟩
      split_ifs with hpos
      · obtain ⟨hlen', hregs⟩ := hwrite d i (i + op.len) op.value hlen (by omega) hop hP
        rw [hmin]
        exact ⟨hlen'.trans hlen, hregs⟩
      · have hzero : op.value = 0 := le_antisymm (not_lt.mp hpos) UInt8.zero_le
        refine ⟨hlen, fun k => ?_⟩
        rw [hzero]
        split_ifs
        · exact (max_eq_left UInt8.zero_le).symm
        · rfl
    obtain ⟨d', hd', hlen', hregs'⟩ := hnext
    have hP' : ∀ k, i + op.len ≤ k → P (hllDenseGetRegister d' k) := fun k hk => by
      rw [hregs' k, if_neg (by omega)]
      exact hP k (by omega)
    obtain ⟨hlen'', hregs''⟩ := ih hrest hlen' hP' (by omega)
    rw [writeOps, hd']
    refine ⟨hlen'', fun k => (hregs'' k).trans ?_⟩
    rw [hregs' k, List.map_cons, expand_cons]
    by_cases hk : i ≤ k
    · rw [if_pos hk]
      by_cases hin : k < i + op.len
      · rw [if_neg (by omega), if_pos ⟨hk, hin⟩, List.getD_append _ _ _ _ (by
          rw [List.length_replicate]; exact (by omega : k - i < op.len))]
        rw [List.getD_eq_getElem?_getD, List.getElem?_replicate, if_pos (by
          exact (by omega : k - i < op.len))]
        rfl
      · rw [if_pos (by omega), if_neg (by omega), List.getD_append_right _ _ _ _ (by
          rw [List.length_replicate]; exact (by omega : op.len ≤ k - i))]
        rw [List.length_replicate]
        congr 2
        exact (by omega : k - (i + op.len) = k - i - op.len)
    · rw [if_neg (by omega), if_neg (by omega), if_neg hk]

theorem getRegister_zeros (n i : ℕ) : hllDenseGetRegister (List.replicate n 0) i = 0 := by
  refine hllDenseGetRegister_eq_of_bits (by decide) fun j _ => ?_
  have hbyte : ∀ b, (List.replicate n (0 : UInt8)).getD b 0 = 0 := fun b => by
    rw [List.getD_eq_getElem?_getD, List.getElem?_replicate]
    split_ifs <;> rfl
  rw [bit, hbyte]
  exact (Nat.zero_testBit _).trans (Nat.zero_testBit _).symm

theorem hllSparseToDense_of_form (h : SparseForm sparse regs) (hlen : regs.length = hllRegisters) :
    ∃ dense, hllSparseToDense sparse (List.replicate hllDenseSize 0) = .ok dense ∧
      dense.length = hllDenseSize ∧
      ∀ k, hllDenseGetRegister dense k = regs.getD k 0 := by
  have hzeros : List.replicate hllDenseSize (0 : UInt8) ++
      (List.replicate hllDenseSize 0).drop hllDenseSize = List.replicate hllDenseSize 0 := by
    rw [List.drop_of_length_le (by simp), List.append_nil]
  obtain ⟨hsize, hregs⟩ := writeOps_spec fillRun_raises (sparseOps_value_le sparse)
    (List.length_replicate (n := hllDenseSize) (a := (0 : UInt8)))
    (fun k _ => getRegister_zeros hllDenseSize k)
    (show 0 + totalRegs (sparseOps sparse).1 ≤ hllRegisters by rw [h.totalRegs, hlen]; omega)
  refine ⟨_, ?_, hsize, fun k => ?_⟩
  · rw [hllSparseToDense, if_neg (by simp)]
    simp only [hzeros, h.clean, h.totalRegs, hlen]
    rfl
  · rw [hregs k, if_pos (Nat.zero_le k), getRegister_zeros, Nat.sub_zero, ← sparseRegs, h.regs]
    exact max_eq_right UInt8.zero_le

theorem SparseForm.ne_nil (h : SparseForm sparse regs) (hlen : regs.length = hllRegisters) :
    sparse ≠ [] := by
  rintro rfl
  have hnil := h.regs.symm.trans SparseForm.nil.regs
  rw [hnil] at hlen
  exact absurd hlen (by decide)

theorem hllMergeSparseIntoDense_of_form (h : SparseForm sparse regs)
    (hlen : regs.length = hllRegisters) (hd : dest.length = hllDenseSize) :
    (hllMergeSparseIntoDense dest sparse).length = hllDenseSize ∧
      ∀ k, hllDenseGetRegister (hllMergeSparseIntoDense dest sparse) k =
        max (hllDenseGetRegister dest k) (regs.getD k 0) := by
  have hguard : ¬(dest.length < hllDenseSize ∨ sparse.isEmpty = true) := by
    rw [hd, List.isEmpty_iff]
    exact fun hor => hor.elim (lt_irrefl _) (h.ne_nil hlen)
  obtain ⟨hsize, hregs⟩ := writeOps_spec raiseRun_raises (sparseOps_value_le sparse) hd
    (fun _ _ => trivial)
    (show 0 + totalRegs (sparseOps sparse).1 ≤ hllRegisters by rw [h.totalRegs, hlen]; omega)
  rw [hllMergeSparseIntoDense, if_neg hguard]
  refine ⟨hsize, fun k => ?_⟩
  rw [hregs k, if_pos (Nat.zero_le k), Nat.sub_zero, ← sparseRegs, h.regs]

/-! ## Encoding a dense form -/

variable (dense v) in
theorem denseRunLen_spec (h : i + n ≤ hllRegisters) :
    i + denseRunLen dense v i n ≤ hllRegisters ∧
      ∀ j, i + n ≤ j → j < i + denseRunLen dense v i n → hllDenseGetRegister dense j = v := by
  induction n using denseRunLen.induct dense v i with
  | case1 n hcond ih =>
    rw [denseRunLen, if_pos hcond]
    obtain ⟨hle, hrun⟩ := ih (by omega)
    refine ⟨hle, fun j hj hlt => ?_⟩
    by_cases heq : j = i + n
    · rw [heq]
      exact hcond.2
    · exact hrun j (by omega) hlt
  | case2 n hcond =>
    rw [denseRunLen, if_neg hcond]
    exact ⟨h, fun j hj hlt => absurd hj (not_le.mpr hlt)⟩

theorem denseToSparseLoop_spec (hform : SparseForm sparse ((List.range i).map
      (hllDenseGetRegister dense))) (hi : i ≤ hllRegisters)
    (h : denseToSparseLoop dense i sparse = some out) :
    SparseForm out ((List.range hllRegisters).map (hllDenseGetRegister dense)) := by
  induction i, sparse using denseToSparseLoop.induct dense with
  | case1 i sparse hlt v hbig =>
    rw [denseToSparseLoop, if_pos hlt, if_pos hbig] at h
    cases h
  | case2 i sparse hlt v hsmall len sparse' hlong =>
    rw [denseToSparseLoop, if_pos hlt, if_neg hsmall] at h
    simp only at h
    rw [if_pos hlong] at h
    cases h
  | case3 i sparse hlt v hsmall len sparse' hshort ih =>
    rw [denseToSparseLoop, if_pos hlt, if_neg hsmall] at h
    simp only at h
    rw [if_neg hshort] at h
    obtain ⟨hle, hrun⟩ := denseRunLen_spec dense v (i := i) (n := 1) (by omega)
    have hregs : (List.range (i + len)).map (hllDenseGetRegister dense) =
        (List.range i).map (hllDenseGetRegister dense) ++ List.replicate len v := by
      rw [List.range_add, List.map_append, List.map_map]
      congr 1
      refine List.eq_replicate_iff.mpr ⟨by simp, fun x hx => ?_⟩
      obtain ⟨j, hj, rfl⟩ := List.mem_map.mp hx
      have hj' := List.mem_range.mp hj
      by_cases h0 : j = 0
      · rw [h0]
        rfl
      · exact hrun (i + j) (by omega) (by omega)
    refine ih ?_ hle h
    rw [hregs]
    exact hform.append (encodeRun_form (not_lt.mp hsmall) len)
  | case4 i sparse hge =>
    rw [denseToSparseLoop, if_neg hge] at h
    cases h
    rwa [show hllRegisters = i by omega]

theorem hllDenseToSparse_form (h : hllDenseToSparse dense = some out) :
    SparseForm out ((List.range hllRegisters).map (hllDenseGetRegister dense)) :=
  denseToSparseLoop_spec SparseForm.nil (Nat.zero_le _) h

/-! ## Histograms -/

def registerHisto (R : ℕ → UInt8) : ℕ → ℕ :=
  histoOf (fun _ => 0) ((List.range hllRegisters).map R)

theorem bump_eq (h : ℕ → ℕ) (v : UInt8) (n : ℕ) :
    bump h v.toNat n = histoOf h (List.replicate n v) := by
  rw [histoOf_eq]
  funext j
  rw [bump, List.countP_replicate]
  by_cases hj : j = v.toNat
  · simp [hj]
  · simp [hj, Ne.symm hj]

theorem foldl_bump (hops : ∀ op ∈ ops, op.value ≤ hllSparseValMaxValue) (h : ℕ → ℕ) :
    ops.foldl (fun h op => if op.value < 64 then bump h op.value.toNat op.len else h) h =
      histoOf h (expand (ops.map HllSparseOp.run)) := by
  induction ops generalizing h with
  | nil => rfl
  | cons op ops ih =>
    obtain ⟨hop, hrest⟩ := List.forall_mem_cons.mp hops
    have hlt : op.value < 64 := hop.trans_lt (by decide)
    rw [List.foldl_cons, if_pos hlt, ih hrest, bump_eq, ← histoOf_append]
    rfl

theorem hllSparseRegHisto_of_form (h : SparseForm sparse regs) (hlen : regs.length = hllRegisters) :
    hllSparseRegHisto sparse (fun _ => 0) = .ok (histoOf (fun _ => 0) regs) := by
  rw [hllSparseRegHisto]
  simp only [foldl_bump (sparseOps_value_le sparse), h.clean, h.totalRegs, hlen]
  rw [← sparseRegs, h.regs]
  rfl

end

end Wedb
