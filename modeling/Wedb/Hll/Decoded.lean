import Wedb.Hll.Sparse

/-!
# What sparse bytes decode to

Bytes that are opcodes to their end decode to a list of registers. Encoded runs
decode to themselves, a rewritten register is the only one that changes, and the
dense form holds the same registers.
-/

namespace Wedb

open RunLength

def sparseRegs (bytes : Bytes) : List UInt8 := expand ((sparseOps bytes).1.map HllSparseOp.run)

/-- The bytes are opcodes to their end, for these registers. -/
structure SparseForm (bytes : Bytes) (regs : List UInt8) : Prop where
  clean : (sparseOps bytes).2 = true
  regs : sparseRegs bytes = regs

section
variable {a b bytes sparse : Bytes} {op : HllSparseOp} {ops pre post : List HllSparseOp}
  {regs regs' : List UInt8} {v : UInt8} {c i k m n : ℕ}

/-! ## Scanning -/

theorem sparseOps_of_decode (h : decodeSparseOp bytes = some (op, n)) : sparseOps bytes =
    (op :: (sparseOps (bytes.drop n)).1, (sparseOps (bytes.drop n)).2) := by
  rw [sparseOps]
  split
  · next h' =>
    rw [h'] at h
    cases h
  · next op' n' h' =>
    rw [h', Option.some.injEq, Prod.mk.injEq] at h
    rw [h.1, h.2]

theorem sparseOps_of_none (h : decodeSparseOp bytes = none) : sparseOps bytes = ([], bytes.isEmpty) := by
  rw [sparseOps]
  split
  · rfl
  · next op' n' h' =>
    rw [h'] at h
    cases h

theorem decodeSparseOp_append (h : decodeSparseOp a = some (op, n)) (b : Bytes) :
    decodeSparseOp (a ++ b) = some (op, n) := by
  cases a with
  | nil => cases h
  | cons b0 rest =>
    rw [List.cons_append]
    simp only [decodeSparseOp] at h ⊢
    split_ifs at h ⊢
    · exact h
    · cases rest with
      | nil => cases h
      | cons b1 rest => exact h
    · exact h

theorem sparseOps_append (h : (sparseOps a).2 = true) (b : Bytes) :
    sparseOps (a ++ b) = ((sparseOps a).1 ++ (sparseOps b).1, (sparseOps b).2) := by
  induction a using sparseOps.induct with
  | case1 a hnone =>
    rw [sparseOps_of_none hnone] at h ⊢
    rw [List.isEmpty_iff.mp h]
    rfl
  | case2 a op n hdec ih =>
    have hle := (decodeSparseOp_consumed hdec).2
    rw [sparseOps_of_decode hdec] at h ⊢
    rw [sparseOps_of_decode (decodeSparseOp_append hdec b), List.drop_append_of_le_length hle, ih h]
    rfl

theorem SparseForm.nil : SparseForm [] [] :=
  ⟨by rw [sparseOps_of_none rfl]; rfl, by rw [sparseRegs, sparseOps_of_none rfl]; rfl⟩

theorem SparseForm.append (ha : SparseForm a regs) (hb : SparseForm b regs') :
    SparseForm (a ++ b) (regs ++ regs') := by
  refine ⟨?_, ?_⟩
  · rw [sparseOps_append ha.clean]
    exact hb.clean
  · rw [sparseRegs, sparseOps_append ha.clean, List.map_append, expand_append, ← sparseRegs,
      ← sparseRegs, ha.regs, hb.regs]

theorem SparseForm.of_decode (h : decodeSparseOp bytes = some (op, bytes.length)) :
    SparseForm bytes (List.replicate op.len op.value) := by
  have hscan := sparseOps_of_decode h
  have hend : sparseOps [] = ([], true) := sparseOps_of_none rfl
  rw [List.drop_length, hend] at hscan
  refine ⟨by rw [hscan], ?_⟩
  rw [sparseRegs, hscan]
  simp [HllSparseOp.run]

theorem totalRegs_cons (op : HllSparseOp) (ops : List HllSparseOp) :
    totalRegs (op :: ops) = op.len + totalRegs ops := rfl

theorem totalRegs_eq (ops : List HllSparseOp) :
    totalRegs ops = (expand (ops.map HllSparseOp.run)).length := by
  rw [expand_length, List.map_map]
  rfl

theorem SparseForm.totalRegs (h : SparseForm bytes regs) :
    totalRegs (sparseOps bytes).1 = regs.length := by
  rw [totalRegs_eq, ← sparseRegs, h.regs]

theorem hllSparseIsValid_iff : hllSparseIsValid bytes = true ↔
    SparseForm bytes (sparseRegs bytes) ∧ (sparseRegs bytes).length = hllRegisters := by
  rw [hllSparseIsValid, Bool.and_eq_true, beq_iff_eq, totalRegs_eq]
  exact ⟨fun h => ⟨⟨h.1, rfl⟩, h.2⟩, fun h => ⟨h.1.clean, h.2⟩⟩

theorem hllSparseIsValid_of_form (h : SparseForm bytes regs) (hlen : regs.length = hllRegisters) :
    hllSparseIsValid bytes = true :=
  hllSparseIsValid_iff.mpr ⟨⟨h.clean, rfl⟩, by rw [h.regs, hlen]⟩

/-! ## Encoded runs -/

theorem decodeSparseOp_zero (hn : n < 64) (rest : Bytes) :
    decodeSparseOp (UInt8.ofNat n :: rest) = some (.zero (n + 1), 1) := by
  have hbits : ∀ n < 64, UInt8.ofNat n &&& 0x80 = 0 ∧ UInt8.ofNat n &&& 0xC0 = 0 ∧
      (UInt8.ofNat n &&& 0x3F).toNat = n := by decide
  obtain ⟨h80, hC0, h3F⟩ := hbits n hn
  simp [decodeSparseOp, h80, hC0, h3F]

theorem decodeSparseOp_xZero (hn : n < 16384) (rest : Bytes) :
    decodeSparseOp (((0x40 : UInt8) ||| UInt8.ofNat (n >>> 8)) :: UInt8.ofNat (n &&& 0xFF) :: rest) =
      some (.xZero (n + 1), 2) := by
  have hbits : ∀ n < 64, ((0x40 : UInt8) ||| UInt8.ofNat n) &&& 0x80 = 0 ∧
      ((0x40 : UInt8) ||| UInt8.ofNat n) &&& 0xC0 = 0x40 ∧
      (((0x40 : UInt8) ||| UInt8.ofNat n) &&& 0x3F).toNat = n := by decide
  have hhigh : n >>> 8 < 64 := by
    rw [Nat.shiftRight_eq_div_pow]
    omega
  obtain ⟨h80, hC0, h3F⟩ := hbits _ hhigh
  have hlow : n &&& 0xFF < 2 ^ 8 := and_byte_lt n
  have hjoin : (n >>> 8) <<< 8 ||| (n &&& 0xFF) = n := by
    rw [← Nat.shiftLeft_add_eq_or_of_lt hlow, show (0xFF : ℕ) = 2 ^ 8 - 1 from rfl,
      Nat.and_two_pow_sub_one_eq_mod, Nat.shiftLeft_eq, Nat.shiftRight_eq_div_pow]
    omega
  simp only [decodeSparseOp, h80, hC0, h3F, UInt8.toNat_ofNat_of_lt' hlow, hjoin]
  rfl

theorem decodeSparseOp_val (h0 : v ≠ 0) (hv : v ≤ hllSparseValMaxValue) (hn : n < 4) (rest : Bytes) :
    decodeSparseOp (((0x80 : UInt8) ||| (((v - 1) &&& 0x1F) <<< 2) |||
      (UInt8.ofNat n &&& 0x03)) :: rest) = some (.val v (n + 1), 1) := by
  have hbits : ∀ w < 33, w ≠ 0 → ∀ n < 4, ∀ x : UInt8, x = ((0x80 : UInt8) |||
      (((UInt8.ofNat w - 1) &&& 0x1F) <<< 2) ||| (UInt8.ofNat n &&& 0x03)) →
      x &&& 0x80 ≠ 0 ∧ ((x >>> 2) &&& 0x1F) + 1 = UInt8.ofNat w ∧ (x &&& 0x03).toNat = n := by
    simp only [forall_eq]
    decide
  have hw : v.toNat < 33 := Nat.lt_succ_of_le (UInt8.le_iff_toNat_le.mp hv)
  have hw0 : v.toNat ≠ 0 := fun h => h0 (UInt8.toNat_inj.mp h)
  obtain ⟨h80, hval, hlen⟩ := hbits v.toNat hw hw0 n hn _ rfl
  rw [UInt8.ofNat_toNat] at h80 hval hlen
  simp only [decodeSparseOp]
  rw [if_pos h80, hval, hlen]

theorem encodeSparseZero_form (n : ℕ) : SparseForm (encodeSparseZero n) (List.replicate n 0) := by
  induction n using Nat.strong_induction_on with
  | h n ih =>
    rw [encodeSparseZero]
    split_ifs with h0 hlong
    · rw [h0]
      exact .nil
    · simp only [hllSparseZeroMaxLen, hllSparseXzeroMaxLen] at hlong ⊢
      have hchunk : min n 16384 - 1 < 16384 := by omega
      have hsucc : min n 16384 - 1 + 1 = min n 16384 := by omega
      have hhead : SparseForm [(0x40 : UInt8) ||| UInt8.ofNat ((min n 16384 - 1) >>> 8),
          UInt8.ofNat ((min n 16384 - 1) &&& 0xFF)] (List.replicate (min n 16384) 0) := by
        have hform := SparseForm.of_decode (decodeSparseOp_xZero hchunk [])
        rwa [hsucc] at hform
      have hsplit : List.replicate n (0 : UInt8) = List.replicate (min n 16384) 0 ++
          List.replicate (n - min n 16384) 0 := by
        rw [← List.replicate_add]
        congr 1
        omega
      rw [hsplit]
      exact hhead.append (ih _ (by omega))
    · simp only [hllSparseZeroMaxLen] at hlong
      have hform := SparseForm.of_decode (decodeSparseOp_zero (n := n - 1) (by omega) [])
      rwa [show n - 1 + 1 = n by omega] at hform

theorem encodeSparseVal_form (h0 : v ≠ 0) (hv : v ≤ hllSparseValMaxValue) (n : ℕ) :
    SparseForm (encodeSparseVal v n) (List.replicate n v) := by
  induction n using Nat.strong_induction_on with
  | h n ih =>
    rw [encodeSparseVal]
    split_ifs with hn
    · rw [hn]
      exact .nil
    · simp only [hllSparseValMaxLen]
      have hform := SparseForm.of_decode (decodeSparseOp_val h0 hv
        (show min n 4 - 1 < 4 by omega) [])
      rw [show min n 4 - 1 + 1 = min n 4 by omega] at hform
      have hsplit : List.replicate n v = List.replicate (min n 4) v ++
          List.replicate (n - min n 4) v := by
        rw [← List.replicate_add]
        congr 1
        omega
      rw [hsplit]
      exact hform.append (ih _ (by omega))

theorem encodeRun_form (hv : v ≤ hllSparseValMaxValue) (n : ℕ) :
    SparseForm (encodeRun v n) (List.replicate n v) := by
  rw [encodeRun]
  split_ifs with h0
  · rw [h0]
    exact encodeSparseZero_form n
  · exact encodeSparseVal_form h0 hv n

theorem hllSparseNew_form : SparseForm hllSparseNew (List.replicate hllRegisters 0) :=
  encodeSparseZero_form hllRegisters

theorem decodeSparseOp_value_le (h : decodeSparseOp bytes = some (op, n)) :
    op.value ≤ hllSparseValMaxValue := by
  have hbits : ∀ x : UInt8, ((x >>> 2) &&& 0x1F) + 1 ≤ 32 := by
    intro x
    have hmask : ((x >>> 2) &&& 0x1F).toNat = (x >>> 2).toNat % 2 ^ 5 := toNat_and_mask _ rfl
    have hlt := Nat.mod_lt (x >>> 2).toNat (show 0 < 2 ^ 5 by decide)
    rw [UInt8.le_iff_toNat_le, UInt8.toNat_add, hmask]
    have h1 : (1 : UInt8).toNat = 1 := rfl
    have h32 : (32 : UInt8).toNat = 32 := rfl
    omega
  cases bytes with
  | nil => cases h
  | cons b0 rest =>
    simp only [decodeSparseOp] at h
    split_ifs at h
    · cases h
      exact hbits b0
    · cases rest with
      | nil => cases h
      | cons b1 rest =>
        cases h
        exact UInt8.zero_le
    · cases h
      exact UInt8.zero_le

theorem sparseOps_value_le (bytes : Bytes) :
    ∀ op ∈ (sparseOps bytes).1, op.value ≤ hllSparseValMaxValue := by
  induction bytes using sparseOps.induct with
  | case1 bytes hnone =>
    rw [sparseOps_of_none hnone]
    exact List.forall_mem_nil _
  | case2 bytes op n hdec ih =>
    rw [sparseOps_of_decode hdec]
    exact List.forall_mem_cons.mpr ⟨decodeSparseOp_value_le hdec, ih⟩

/-! ## Finding a register -/

theorem locateOp_eq_some (h : locateOp i ops k = some (pre, c, op, post)) (hk : k ≤ i) :
    ops = pre ++ op :: post ∧ c = k + totalRegs pre ∧ c ≤ i ∧ i < c + op.len := by
  induction ops generalizing pre k with
  | nil => cases h
  | cons o ops ih =>
    rw [locateOp] at h
    split_ifs at h with hlt
    · cases h
      exact ⟨rfl, rfl, hk, hlt⟩
    · cases hloc : locateOp i ops (k + o.len) with
      | none => simp [hloc] at h
      | some x =>
        obtain ⟨pre', c', op', post'⟩ := x
        rw [hloc] at h
        cases h
        obtain ⟨hops, hc, hle, hin⟩ := ih hloc (not_lt.mp hlt)
        refine ⟨by rw [hops]; rfl, ?_, hle, hin⟩
        rw [hc, totalRegs_cons, Nat.add_assoc]

theorem locateOp_ne_none (hk : k ≤ i) (hi : i < k + totalRegs ops) : locateOp i ops k ≠ none := by
  induction ops generalizing k with
  | nil => exact absurd hi (not_lt.mpr hk)
  | cons o ops ih =>
    rw [locateOp]
    split_ifs with hlt
    · exact Option.some_ne_none _
    · rw [totalRegs_cons] at hi
      have hrest := ih (not_lt.mp hlt) (by omega)
      cases hloc : locateOp i ops (k + o.len) with
      | none => exact absurd hloc hrest
      | some x => exact Option.some_ne_none _

theorem SparseForm.located (h : SparseForm sparse regs) (hi : i < regs.length) :
    ∃ pre c op post, locateOp i (sparseOps sparse).1 0 = some (pre, c, op, post) ∧
      (sparseOps sparse).1 = pre ++ op :: post ∧ c = Wedb.totalRegs pre ∧ c ≤ i ∧ i < c + op.len ∧
      regs[i]? = some op.value := by
  have hne := locateOp_ne_none (k := 0) (Nat.zero_le i)
    (show i < 0 + Wedb.totalRegs (sparseOps sparse).1 by rw [h.totalRegs]; omega)
  cases hloc : locateOp i (sparseOps sparse).1 0 with
  | none => exact absurd hloc hne
  | some x =>
    obtain ⟨pre, c, op, post⟩ := x
    obtain ⟨hops, hc, hle, hin⟩ := locateOp_eq_some hloc (Nat.zero_le i)
    rw [Nat.zero_add] at hc
    refine ⟨pre, c, op, post, rfl, hops, hc, hle, hin, ?_⟩
    rw [hc, totalRegs_eq] at hle hin
    rw [← h.regs, sparseRegs, hops, List.map_append]
    exact getElem?_expand_split hle hin

theorem hllSparseGetRegister_of_form (h : SparseForm sparse regs) (hlen : regs.length = hllRegisters)
    (hi : i < hllRegisters) : hllSparseGetRegister sparse i = .ok (regs.getD i 0) := by
  obtain ⟨pre, c, op, post, hloc, -, -, -, -, hget⟩ := h.located (hlen ▸ hi)
  rw [hllSparseGetRegister, if_neg (not_le.mpr hi)]
  simp only [hloc]
  rw [List.getD_eq_getElem?_getD, hget, Option.getD_some]

/-! ## Rewriting a register -/

/-- The bytes written and the run still held are the registers. -/
structure Writes (w : SparseWriter) (regs : List UInt8) : Prop where
  form : ∃ done, SparseForm w.out done ∧ done ++ List.replicate w.lastLen w.lastVal = regs
  small : w.lastVal ≤ hllSparseValMaxValue

theorem writes_empty : Writes {} [] := ⟨⟨[], .nil, rfl⟩, UInt8.zero_le⟩

theorem Writes.flush {w : SparseWriter} (h : Writes w regs) : SparseForm w.flush regs := by
  obtain ⟨done, hout, rfl⟩ := h.form
  rw [SparseWriter.flush, SparseWriter.emitRun]
  split_ifs with h0
  · rw [h0]
    simpa using hout
  · exact hout.append (encodeRun_form h.small _)

theorem Writes.pushRun {w : SparseWriter} (h : Writes w regs) (hv : v ≤ hllSparseValMaxValue)
    (l : ℕ) : Writes (w.pushRun v l) (regs ++ List.replicate l v) := by
  rw [SparseWriter.pushRun]
  split_ifs with hl hlast hsame
  · rw [hl]
    simpa using h
  · obtain ⟨done, hout, rfl⟩ := h.form
    exact ⟨⟨done, hout, by simp [hlast]⟩, hv⟩
  · obtain ⟨done, hout, rfl⟩ := h.form
    refine ⟨⟨done, hout, ?_⟩, h.small⟩
    rw [List.replicate_add, hsame, List.append_assoc]
  · exact ⟨⟨regs, h.flush, rfl⟩, hv⟩

theorem Writes.pushOps {w : SparseWriter} (h : Writes w regs)
    (hops : ∀ op ∈ ops, op.value ≤ hllSparseValMaxValue) :
    Writes (w.pushOps ops) (regs ++ expand (ops.map HllSparseOp.run)) := by
  induction ops generalizing w regs with
  | nil =>
    rw [List.map_nil, expand_nil, List.append_nil]
    exact h
  | cons op ops ih =>
    obtain ⟨hop, hrest⟩ := List.forall_mem_cons.mp hops
    have hnext := ih (h.pushRun hop op.len) hrest
    rw [List.append_assoc] at hnext
    exact hnext

theorem Writes.pushIf {w : SparseWriter} (h : Writes w regs) (hv : v ≤ hllSparseValMaxValue) {P : Prop}
    [Decidable P] (hP : ¬P → n = 0) :
    Writes (if P then w.pushRun v n else w) (regs ++ List.replicate n v) := by
  split_ifs with hp
  · exact h.pushRun hv n
  · rw [hP hp]
    simpa using h

/-- A register is raised, or the change is refused; a value not above the register
changes nothing. -/
theorem hllSparseSetRegister_spec (h : SparseForm sparse regs) (hlen : regs.length = hllRegisters)
    (hi : i < hllRegisters) :
    (v ≤ regs.getD i 0 ∧ hllSparseSetRegister sparse i v = .ok (false, sparse)) ∨
    regs.getD i 0 < v ∧ ((∃ err, hllSparseSetRegister sparse i v = .error err) ∨
      ∃ sparse', hllSparseSetRegister sparse i v = .ok (true, sparse') ∧
        SparseForm sparse' (regs.set i v)) := by
  obtain ⟨pre, c, op, post, hloc, hops, hc, hle, hin, hget⟩ := h.located (hlen ▸ hi)
  have hvalues := sparseOps_value_le sparse
  rw [hops] at hvalues
  have hpre : ∀ o ∈ pre, o.value ≤ hllSparseValMaxValue := fun o ho =>
    hvalues o (List.mem_append_left _ ho)
  have hop : op.value ≤ hllSparseValMaxValue := hvalues op (by simp)
  have hpost : ∀ o ∈ post, o.value ≤ hllSparseValMaxValue := fun o ho => hvalues o (by simp [ho])
  have hreg : regs.getD i 0 = op.value := by
    rw [List.getD_eq_getElem?_getD, hget, Option.getD_some]
  rw [hreg, hllSparseSetRegister, if_neg (not_le.mpr hi)]
  split_ifs with hbig
  · exact Or.inr ⟨hop.trans_lt hbig, Or.inl ⟨_, rfl⟩⟩
  · have hv := not_lt.mp hbig
    simp only [hloc]
    by_cases hsame : v ≤ op.value
    · rw [if_pos hsame]
      exact Or.inl ⟨hsame, rfl⟩
    · rw [if_neg hsame]
      refine Or.inr ⟨not_le.mp hsame, ?_⟩
      have hw := ((((writes_empty.pushOps hpre).pushIf hop (P := i > c) (n := i - c)
        (by omega)).pushRun hv 1).pushIf hop (P := c + op.len > i + 1) (n := c + op.len - (i + 1))
        (by omega)).pushOps hpost
      have hform := hw.flush
      have hset : regs.set i v = [] ++ expand (pre.map HllSparseOp.run) ++
          List.replicate (i - c) op.value ++ List.replicate 1 v ++
          List.replicate (c + op.len - (i + 1)) op.value ++ expand (post.map HllSparseOp.run) := by
        rw [hc, totalRegs_eq] at hle hin
        have hsplit := @set_expand_split UInt8 (pre.map HllSparseOp.run)
          (post.map HllSparseOp.run) op.value v op.len i hle hin
        rw [← totalRegs_eq, ← hc] at hsplit
        rw [← h.regs, sparseRegs, hops, List.map_append]
        refine hsplit.trans ?_
        simp
      rw [← hset] at hform
      revert hform
      generalize SparseWriter.flush _ = newSparse
      intro hform
      split_ifs with hclean htotal hlong
      · exact Or.inl ⟨_, rfl⟩
      · exact Or.inl ⟨_, rfl⟩
      · exact Or.inl ⟨_, rfl⟩
      · exact Or.inr ⟨_, rfl, hform⟩

end

end Wedb
