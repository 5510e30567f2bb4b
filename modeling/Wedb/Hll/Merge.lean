import Wedb.Hll.Dense

/-!
# Dense histograms and merges

Three bytes hold four registers. The histogram counts the registers sixteen at a
time, and a merge takes the greater register of each pair, four at a time; what
is left of a length that is no multiple of three is taken register by register.
-/

namespace Wedb

open BitStream

def quad0 (b0 : UInt8) : UInt8 := b0 &&& 0x3F
def quad1 (b0 b1 : UInt8) : UInt8 := (b0 >>> 6) ||| ((b1 &&& 0x0F) <<< 2)
def quad2 (b1 b2 : UInt8) : UInt8 := (b1 >>> 4) ||| ((b2 &&& 0x03) <<< 4)
def quad3 (b2 : UInt8) : UInt8 := b2 >>> 2

def quad (b0 b1 b2 : UInt8) : List UInt8 := [quad0 b0, quad1 b0 b1, quad2 b1 b2, quad3 b2]

def bump (reghisto : ℕ → ℕ) (v n : ℕ) : ℕ → ℕ := fun j => if j = v then reghisto j + n else reghisto j

def histoOf (reghisto : ℕ → ℕ) (regs : List UInt8) : ℕ → ℕ :=
  regs.foldl (fun h r => bump h r.toNat 1) reghisto

def histoChunks : (ℕ → ℕ) → Bytes → ℕ → ℕ
  | reghisto, b0 :: b1 :: b2 :: b3 :: b4 :: b5 :: b6 :: b7 :: b8 :: b9 :: b10 :: b11 :: rest =>
    histoChunks (histoOf reghisto
      (quad b0 b1 b2 ++ quad b3 b4 b5 ++ quad b6 b7 b8 ++ quad b9 b10 b11)) rest
  | reghisto, _ => reghisto

def hllDenseRegHisto (registers : Bytes) (reghisto : ℕ → ℕ) : ℕ → ℕ :=
  let reghisto := histoChunks reghisto registers
  let baseReg := registers.length / 12 * 16
  let totalRegs := registers.length * 8 / 6
  histoOf reghisto
    ((List.range' baseReg (totalRegs - baseReg)).map (hllDenseGetRegister registers))

def packLow (m0 m1 : UInt8) : UInt8 :=
  (m0 &&& (0x3F : UInt8)) ||| ((m1 &&& (0x03 : UInt8)) <<< (6 : UInt8))
def packMid (m1 m2 : UInt8) : UInt8 := (m1 >>> 2) ||| ((m2 &&& 0x0F) <<< 4)
def packHigh (m2 m3 : UInt8) : UInt8 := (m2 >>> 4) ||| ((m3 &&& 0x3F) <<< 2)

def merge3Bytes (d0 d1 d2 s0 s1 s2 : UInt8) : Bytes :=
  if s0 ||| s1 ||| s2 = 0 then [d0, d1, d2]
  else if d0 ||| d1 ||| d2 = 0 then [s0, s1, s2]
  else
    let m0 := max (quad0 d0) (quad0 s0)
    let m1 := max (quad1 d0 d1) (quad1 s0 s1)
    let m2 := max (quad2 d1 d2) (quad2 s1 s2)
    let m3 := max (quad3 d2) (quad3 s2)
    [packLow m0 m1, packMid m1 m2, packHigh m2 m3]

def mergeRegister (s d : Bytes) (i : ℕ) : Bytes :=
  if hllDenseGetRegister s i > hllDenseGetRegister d i then
    hllDenseSetRegister d i (hllDenseGetRegister s i)
  else d

def mergeChunks : Bytes → Bytes → Bytes
  | d0 :: d1 :: d2 :: ds, s0 :: s1 :: s2 :: ss => merge3Bytes d0 d1 d2 s0 s1 s2 ++ mergeChunks ds ss
  | d, s => (List.range (d.length * 8 / 6)).foldl (mergeRegister s) d

def hllMergeBytes (dest src : Bytes) : Bytes :=
  if dest.isEmpty || src.isEmpty then dest
  else
    let limit := min dest.length src.length
    mergeChunks (dest.take limit) (src.take limit) ++ dest.drop limit

/-! ## Bytes as numbers -/

section
variable {a b c k m s l : UInt8} {n : ℕ}

theorem toNat_or_shiftLeft (hk : k.toNat < 8) (ha : a.toNat < 2 ^ k.toNat)
    (hc : c.toNat * 2 ^ k.toNat < 2 ^ 8) :
    (a ||| (c <<< k)).toNat = a.toNat + c.toNat * 2 ^ k.toNat := by
  rw [UInt8.toNat_or, UInt8.toNat_shiftLeft, Nat.mod_eq_of_lt hk, Nat.shiftLeft_eq,
    Nat.mod_eq_of_lt hc, Nat.or_comm, ← Nat.shiftLeft_eq, ← Nat.shiftLeft_add_eq_or_of_lt ha,
    Nat.add_comm]

theorem toNat_and_mask (a : UInt8) (hm : m.toNat = 2 ^ n - 1) :
    (a &&& m).toNat = a.toNat % 2 ^ n := by
  rw [UInt8.toNat_and, hm, Nat.and_two_pow_sub_one_eq_mod]

theorem toNat_shiftRight (a : UInt8) (hk : k.toNat < 8) :
    (a >>> k).toNat = a.toNat / 2 ^ k.toNat := by
  rw [UInt8.toNat_shiftRight, Nat.mod_eq_of_lt hk, Nat.shiftRight_eq_div_pow]

theorem masked_shift_lt (hm : m.toNat = 2 ^ n - 1) (hn : n + l.toNat ≤ 8) :
    (b &&& m).toNat * 2 ^ l.toNat < 2 ^ 8 := by
  have hmul : 2 ^ n * 2 ^ l.toNat ≤ 2 ^ 8 := by
    rw [← pow_add]
    exact Nat.pow_le_pow_right two_pos hn
  rw [toNat_and_mask b hm]
  exact ((Nat.mul_lt_mul_right (Nat.two_pow_pos _)).mpr
    (Nat.mod_lt _ (Nat.two_pow_pos n))).trans_le hmul

theorem toNat_join (hs : s.toNat < 8) (hl : l.toNat < 8) (ha : a.toNat < 2 ^ (s.toNat + l.toNat))
    (hm : m.toNat = 2 ^ n - 1) (hn : n + l.toNat ≤ 8) :
    ((a >>> s) ||| ((b &&& m) <<< l)).toNat =
      a.toNat / 2 ^ s.toNat + b.toNat % 2 ^ n * 2 ^ l.toNat := by
  have hlow : (a >>> s).toNat < 2 ^ l.toNat := by
    rw [toNat_shiftRight a hs, Nat.div_lt_iff_lt_mul (Nat.two_pow_pos _), ← pow_add]
    rwa [Nat.add_comm]
  rw [toNat_or_shiftLeft hl hlow (masked_shift_lt hm hn), toNat_shiftRight a hs,
    toNat_and_mask b hm]

theorem toNat_quad0 (b0 : UInt8) : (quad0 b0).toNat = b0.toNat % 64 := toNat_and_mask b0 (n := 6) rfl

theorem toNat_quad1 (b0 b1 : UInt8) :
    (quad1 b0 b1).toNat = b0.toNat / 64 + b1.toNat % 16 * 4 :=
  toNat_join (n := 4) (by decide) (by decide) b0.toNat_lt rfl (by decide)

theorem toNat_quad2 (b1 b2 : UInt8) :
    (quad2 b1 b2).toNat = b1.toNat / 16 + b2.toNat % 4 * 16 :=
  toNat_join (n := 2) (by decide) (by decide) b1.toNat_lt rfl (by decide)

theorem toNat_quad3 (b2 : UInt8) : (quad3 b2).toNat = b2.toNat / 4 := toNat_shiftRight b2 (by decide)

theorem toNat_packLow (m0 m1 : UInt8) :
    (packLow m0 m1).toNat = m0.toNat % 64 + m1.toNat % 4 * 64 := by
  have hmask : (m0 &&& 0x3F).toNat = m0.toNat % 64 := toNat_and_mask m0 (n := 6) rfl
  have hlow : (m0 &&& 0x3F).toNat < 2 ^ (6 : UInt8).toNat := by
    rw [hmask]
    exact Nat.mod_lt _ (by decide)
  have hhigh : (m1 &&& 0x03).toNat * 2 ^ (6 : UInt8).toNat < 2 ^ 8 :=
    masked_shift_lt (n := 2) rfl (by decide)
  have hjoin := toNat_or_shiftLeft (by decide) hlow hhigh
  rw [hmask, toNat_and_mask m1 (n := 2) rfl] at hjoin
  exact hjoin

theorem toNat_packMid {m1 m2 : UInt8} (h1 : m1.toNat < 64) :
    (packMid m1 m2).toNat = m1.toNat / 4 + m2.toNat % 16 * 16 :=
  toNat_join (n := 4) (by decide) (by decide) h1 rfl (by decide)

theorem toNat_packHigh {m2 m3 : UInt8} (h2 : m2.toNat < 64) :
    (packHigh m2 m3).toNat = m2.toNat / 16 + m3.toNat % 64 * 4 :=
  toNat_join (n := 6) (by decide) (by decide) h2 rfl (by decide)

end

/-! ## Four registers in three bytes -/

section
variable {b0 b1 b2 d0 d1 d2 s0 s1 s2 : UInt8} {d s registers rest rest' : Bytes} {i j k n : ℕ}

theorem toNat_getRegister (registers : Bytes) (i : ℕ) :
    (hllDenseGetRegister registers i).toNat = ((registers.getD (i * 6 / 8) 0).toNat +
      256 * (registers.getD (i * 6 / 8 + 1) 0).toNat) / 2 ^ (i * 6 % 8) % 2 ^ 6 := by
  refine eq_of_bits (hllDenseGetRegister_lt registers i) (Nat.mod_lt _ (by decide)) fun j hj => ?_
  have hsplit : 6 * i + j = 8 * (i * 6 / 8) + (i * 6 % 8 + j) := by omega
  have hlow := (registers.getD (i * 6 / 8) 0).toNat_lt
  rw [testBit_getRegister hj, hsplit, testBit_shift registers _ (by omega),
    Nat.testBit_mod_two_pow, Nat.testBit_div_two_pow, decide_eq_true hj, Bool.true_and,
    Nat.add_comm (UInt8.toNat _), show (256 : ℕ) = 2 ^ 8 from rfl,
    Nat.testBit_two_pow_mul_add _ hlow, Nat.add_comm j]
  by_cases h8 : 8 ≤ i * 6 % 8 + j
  · rw [testBit_byte _ h8, if_neg (not_lt.mpr h8)]
    simp [h8]
  · rw [if_pos (not_le.mp h8)]
    simp [h8]

theorem getRegister_cons_quad (h : i < 4) :
    hllDenseGetRegister (b0 :: b1 :: b2 :: rest) i = (quad b0 b1 b2).getD i 0 := by
  refine UInt8.toNat_inj.mp ?_
  rw [toNat_getRegister]
  have h0 := b0.toNat_lt
  have h1 := b1.toNat_lt
  have h2 := b2.toNat_lt
  interval_cases i
  · show (b0.toNat + 256 * b1.toNat) / 2 ^ 0 % 2 ^ 6 = (quad0 b0).toNat
    rw [toNat_quad0]
    omega
  · show (b0.toNat + 256 * b1.toNat) / 2 ^ 6 % 2 ^ 6 = (quad1 b0 b1).toNat
    rw [toNat_quad1]
    omega
  · show (b1.toNat + 256 * b2.toNat) / 2 ^ 4 % 2 ^ 6 = (quad2 b1 b2).toNat
    rw [toNat_quad2]
    omega
  · show (b2.toNat + 256 * (rest.getD 0 0).toNat) / 2 ^ 2 % 2 ^ 6 = (quad3 b2).toNat
    rw [toNat_quad3]
    omega

theorem getRegister_append_right {a : Bytes} (hn : 8 * a.length = 6 * n) (h : n ≤ i) :
    hllDenseGetRegister (a ++ rest) i = hllDenseGetRegister rest (i - n) := by
  refine hllDenseGetRegister_eq_of_bits (hllDenseGetRegister_lt rest _) fun j hj => ?_
  have hsub : 6 * i + j - 8 * a.length = 6 * (i - n) + j := by omega
  rw [testBit_getRegister hj, bit_append_right (by omega), hsub]

theorem getRegister_append_left {a : Bytes} (h : 6 * i + 6 ≤ 8 * a.length) :
    hllDenseGetRegister (a ++ rest) i = hllDenseGetRegister a i := by
  refine hllDenseGetRegister_eq_of_bits (hllDenseGetRegister_lt a i) fun j hj => ?_
  rw [testBit_getRegister hj, bit_append_left (by omega)]

/-! ## Merging -/

variable (d0 d1 d2 s0 s1 s2) in
theorem merge3Bytes_length : (merge3Bytes d0 d1 d2 s0 s1 s2).length = 3 := by
  simp only [merge3Bytes]
  split_ifs <;> rfl

theorem quad_zero : quad 0 0 0 = [0, 0, 0, 0] := rfl

theorem quad_lt {x : UInt8} (hx : x ∈ quad b0 b1 b2) : x.toNat < 64 := by
  have h0 := b0.toNat_lt
  have h1 := b1.toNat_lt
  have h2 := b2.toNat_lt
  simp only [quad, List.mem_cons, List.not_mem_nil, or_false] at hx
  rcases hx with rfl | rfl | rfl | rfl
  · rw [toNat_quad0]
    omega
  · rw [toNat_quad1]
    omega
  · rw [toNat_quad2]
    omega
  · rw [toNat_quad3]
    omega

theorem quad_pack {m0 m1 m2 m3 : UInt8} (h0 : m0.toNat < 64) (h1 : m1.toNat < 64)
    (h2 : m2.toNat < 64) (h3 : m3.toNat < 64) :
    quad (packLow m0 m1) (packMid m1 m2) (packHigh m2 m3) = [m0, m1, m2, m3] := by
  have hlow := toNat_packLow m0 m1
  have hmid : (packMid m1 m2).toNat = m1.toNat / 4 + m2.toNat % 16 * 16 := toNat_packMid h1
  have hhigh : (packHigh m2 m3).toNat = m2.toNat / 16 + m3.toNat % 64 * 4 := toNat_packHigh h2
  have e0 : quad0 (packLow m0 m1) = m0 := by
    refine UInt8.toNat_inj.mp ?_
    rw [toNat_quad0, hlow]
    omega
  have e1 : quad1 (packLow m0 m1) (packMid m1 m2) = m1 := by
    refine UInt8.toNat_inj.mp ?_
    rw [toNat_quad1, hlow, hmid]
    omega
  have e2 : quad2 (packMid m1 m2) (packHigh m2 m3) = m2 := by
    refine UInt8.toNat_inj.mp ?_
    rw [toNat_quad2, hmid, hhigh]
    omega
  have e3 : quad3 (packHigh m2 m3) = m3 := by
    refine UInt8.toNat_inj.mp ?_
    rw [toNat_quad3, hhigh]
    omega
  rw [quad, e0, e1, e2, e3]

theorem max_toNat_lt {x y : UInt8} (hx : x.toNat < n) (hy : y.toNat < n) : (max x y).toNat < n := by
  rcases max_choice x y with h | h
  · rwa [h]
  · rwa [h]

theorem or_or_eq_zero {x y z : UInt8} (h : x ||| y ||| z = 0) : x = 0 ∧ y = 0 ∧ z = 0 := by
  rw [UInt8.or_eq_zero_iff, UInt8.or_eq_zero_iff] at h
  exact ⟨h.1.1, h.1.2, h.2⟩

theorem getRegister_merge3Bytes (h : i < 4) :
    hllDenseGetRegister (merge3Bytes d0 d1 d2 s0 s1 s2 ++ rest) i =
      max ((quad d0 d1 d2).getD i 0) ((quad s0 s1 s2).getD i 0) := by
  have hzero : ∀ i : ℕ, ([0, 0, 0, 0] : List UInt8).getD i 0 = 0 := fun i => by
    rcases i with _ | _ | _ | _ | i <;> rfl
  rw [merge3Bytes]
  split_ifs with hs hd
  · obtain ⟨rfl, rfl, rfl⟩ := or_or_eq_zero hs
    rw [quad_zero, hzero]
    exact (getRegister_cons_quad h).trans (max_eq_left (UInt8.zero_le)).symm
  · obtain ⟨rfl, rfl, rfl⟩ := or_or_eq_zero hd
    rw [quad_zero, hzero]
    exact (getRegister_cons_quad h).trans (max_eq_right (UInt8.zero_le)).symm
  · have hd := fun x (hx : x ∈ quad d0 d1 d2) => quad_lt hx
    have hs := fun x (hx : x ∈ quad s0 s1 s2) => quad_lt hx
    refine (getRegister_cons_quad h).trans ?_
    rw [quad_pack (max_toNat_lt (hd _ (by simp [quad])) (hs _ (by simp [quad])))
      (max_toNat_lt (hd _ (by simp [quad])) (hs _ (by simp [quad])))
      (max_toNat_lt (hd _ (by simp [quad])) (hs _ (by simp [quad])))
      (max_toNat_lt (hd _ (by simp [quad])) (hs _ (by simp [quad])))]
    interval_cases i <;> rfl

/-- The first `n` registers are merged and no bit after them has changed. -/
structure Merged (d s r : Bytes) (n : ℕ) : Prop where
  length : r.length = d.length
  regs : ∀ i < n, hllDenseGetRegister r i = max (hllDenseGetRegister d i) (hllDenseGetRegister s i)
  rest : ∀ k, 6 * n ≤ k → bit r k = bit d k

variable {r : Bytes}

theorem Merged.register (h : Merged d s r n) (hlen : 6 * n + 6 ≤ 8 * d.length) :
    Merged d s (mergeRegister s r n) (n + 1) := by
  have hn : hllDenseGetRegister r n = hllDenseGetRegister d n :=
    hllDenseGetRegister_eq_of_bits (hllDenseGetRegister_lt d n) fun j hj => by
      rw [h.rest _ (by omega), testBit_getRegister hj]
  have hroom : 6 * n + 6 ≤ 8 * r.length := by rwa [h.length]
  rw [mergeRegister]
  split_ifs with hgt
  · refine ⟨by rw [hllDenseSetRegister_length, h.length], fun i hi => ?_, fun k hk => ?_⟩
    · by_cases heq : i = n
      · subst heq
        rw [getRegister_setRegister_self hroom (hllDenseGetRegister_lt s i), ← hn]
        exact (max_eq_right hgt.le).symm
      · rw [getRegister_setRegister_of_ne hroom heq]
        exact h.regs i (by omega)
    · rw [bit_setRegister hroom, if_neg (by omega)]
      exact h.rest k (by omega)
  · refine ⟨h.length, fun i hi => ?_, fun k hk => h.rest k (by omega)⟩
    by_cases heq : i = n
    · subst heq
      rw [← hn]
      exact (max_eq_left (not_lt.mp hgt)).symm
    · exact h.regs i (by omega)

theorem foldl_mergeRegister (d s : Bytes) (hn : 6 * n ≤ 8 * d.length) :
    Merged d s ((List.range n).foldl (mergeRegister s) d) n := by
  induction n with
  | zero => exact ⟨rfl, fun i hi => absurd hi (Nat.not_lt_zero i), fun _ _ => rfl⟩
  | succ n ih =>
    rw [List.range_succ, List.foldl_append]
    exact (ih (by omega)).register (by omega)

theorem Merged.quad (h : Merged d s r n) : Merged (d0 :: d1 :: d2 :: d) (s0 :: s1 :: s2 :: s)
    (merge3Bytes d0 d1 d2 s0 s1 s2 ++ r) (n + 4) := by
  have hlen := merge3Bytes_length d0 d1 d2 s0 s1 s2
  refine ⟨by simp [hlen, h.length]; omega, fun i hi => ?_, fun k hk => ?_⟩
  · by_cases h4 : i < 4
    · rw [getRegister_merge3Bytes h4, getRegister_cons_quad h4, getRegister_cons_quad h4]
    · have hge := not_lt.mp h4
      rw [getRegister_append_right (n := 4) (by rw [hlen]) hge]
      have hd : hllDenseGetRegister (d0 :: d1 :: d2 :: d) i = hllDenseGetRegister d (i - 4) :=
        getRegister_append_right (a := [d0, d1, d2]) (n := 4) rfl hge
      have hs : hllDenseGetRegister (s0 :: s1 :: s2 :: s) i = hllDenseGetRegister s (i - 4) :=
        getRegister_append_right (a := [s0, s1, s2]) (n := 4) rfl hge
      rw [hd, hs]
      exact h.regs _ (by omega)
  · have hd : bit (d0 :: d1 :: d2 :: d) k = bit d (k - 24) :=
      bit_append_right (a := [d0, d1, d2]) (show 24 ≤ k by omega)
    rw [bit_append_right (by rw [hlen]; omega), hlen, hd]
    exact h.rest _ (by omega)

theorem mergeChunks_merged (hlen : d.length = s.length) :
    Merged d s (mergeChunks d s) (d.length * 8 / 6) := by
  induction d, s using mergeChunks.induct with
  | case1 d0 d1 d2 ds s0 s1 s2 ss ih =>
    have hcount : (d0 :: d1 :: d2 :: ds).length * 8 / 6 = ds.length * 8 / 6 + 4 := by
      simp only [List.length_cons]
      omega
    rw [hcount, mergeChunks]
    exact (ih (by simpa using hlen)).quad
  | case2 d s hne =>
    rw [mergeChunks.eq_2 d s hne]
    exact foldl_mergeRegister d s (by omega)

def denseRegisters (src : Bytes) (i : ℕ) : UInt8 :=
  if 6 * i + 6 ≤ 8 * src.length then hllDenseGetRegister src i else 0

theorem hllMergeBytes_length (dest src : Bytes) : (hllMergeBytes dest src).length = dest.length := by
  rw [hllMergeBytes]
  split_ifs
  · rfl
  · have hlen : (dest.take (min dest.length src.length)).length =
        (src.take (min dest.length src.length)).length := by
      simp
    have hmerged := (mergeChunks_merged hlen).length
    simp only [List.length_append, hmerged, List.length_take, List.length_drop]
    omega

theorem getRegister_hllMergeBytes (hi : 6 * i + 6 ≤ 8 * d.length) :
    hllDenseGetRegister (hllMergeBytes d s) i =
      max (hllDenseGetRegister d i) (denseRegisters s i) := by
  rw [hllMergeBytes, denseRegisters]
  split_ifs with hempty hs hs
  · simp only [Bool.or_eq_true, List.isEmpty_iff] at hempty
    rcases hempty with rfl | rfl
    · simp at hi
    · simp at hs
  · exact (max_eq_left UInt8.zero_le).symm
  · have hlen : (d.take (min d.length s.length)).length = (s.take (min d.length s.length)).length := by
      simp
    have hm := mergeChunks_merged hlen
    have htake : (d.take (min d.length s.length)).length = min d.length s.length := by simp
    have hroom : 6 * i + 6 ≤ 8 * min d.length s.length := by omega
    have hd : hllDenseGetRegister (d.take (min d.length s.length)) i = hllDenseGetRegister d i := by
      conv_rhs => rw [← List.take_append_drop (min d.length s.length) d]
      rw [getRegister_append_left (by rwa [htake])]
    have hsrc : hllDenseGetRegister (s.take (min d.length s.length)) i = hllDenseGetRegister s i := by
      conv_rhs => rw [← List.take_append_drop (min d.length s.length) s]
      rw [getRegister_append_left (by rwa [← hlen, htake])]
    rw [getRegister_append_left (by rw [hm.length, htake]; exact hroom),
      hm.regs i (by rw [htake]; omega), hd, hsrc]
  · refine Eq.trans ?_ (max_eq_left UInt8.zero_le).symm
    have hlen : (d.take (min d.length s.length)).length = (s.take (min d.length s.length)).length := by
      simp
    have hm := mergeChunks_merged hlen
    have htake : (d.take (min d.length s.length)).length = min d.length s.length := by simp
    refine hllDenseGetRegister_eq_of_bits (hllDenseGetRegister_lt d i) fun j hj => ?_
    rw [testBit_getRegister hj]
    conv_rhs => rw [← List.take_append_drop (min d.length s.length) d]
    by_cases hin : 6 * i + j < 8 * min d.length s.length
    · rw [bit_append_left (by rwa [hm.length, htake]), bit_append_left (by rwa [htake])]
      exact hm.rest _ (by rw [htake]; omega)
    · rw [bit_append_right (by rw [hm.length, htake]; omega),
        bit_append_right (by rw [htake]; omega), hm.length]

/-! ## Counting -/

theorem histoOf_eq (reghisto : ℕ → ℕ) (regs : List UInt8) :
    histoOf reghisto regs = fun v => reghisto v + regs.countP fun x => x.toNat = v := by
  induction regs generalizing reghisto with
  | nil => rfl
  | cons x regs ih =>
    rw [histoOf, List.foldl_cons, ← histoOf, ih]
    funext v
    rw [List.countP_cons, bump]
    by_cases hv : v = x.toNat
    · simp [hv]
      omega
    · simp [hv, Ne.symm hv]

theorem histoOf_append (reghisto : ℕ → ℕ) (a b : List UInt8) :
    histoOf reghisto (a ++ b) = histoOf (histoOf reghisto a) b := List.foldl_append

theorem map_getRegister_cons (b0 b1 b2 : UInt8) (rest : Bytes) (n : ℕ) :
    (List.range (4 + n)).map (hllDenseGetRegister (b0 :: b1 :: b2 :: rest)) =
      quad b0 b1 b2 ++ (List.range n).map (hllDenseGetRegister rest) := by
  rw [List.range_add, List.map_append, List.map_map]
  congr 1
  · have hquad : ∀ i < 4, hllDenseGetRegister (b0 :: b1 :: b2 :: rest) i =
        (quad b0 b1 b2).getD i 0 := fun i h => getRegister_cons_quad h
    simp [List.range_succ, hquad, quad]
  · refine List.map_congr_left fun i _ => ?_
    have hright : hllDenseGetRegister ([b0, b1, b2] ++ rest) (4 + i) =
        hllDenseGetRegister rest (4 + i - 4) := getRegister_append_right (n := 4) rfl (by omega)
    rw [Nat.add_sub_cancel_left] at hright
    exact hright

theorem histoChunks_eq (reghisto : ℕ → ℕ) (registers : Bytes) :
    histoChunks reghisto registers = histoOf reghisto
      ((List.range (registers.length / 12 * 16)).map (hllDenseGetRegister registers)) := by
  induction reghisto, registers using histoChunks.induct with
  | case1 reghisto b0 b1 b2 b3 b4 b5 b6 b7 b8 b9 b10 b11 rest ih =>
    have hcount : (b0 :: b1 :: b2 :: b3 :: b4 :: b5 :: b6 :: b7 :: b8 :: b9 :: b10 :: b11 ::
        rest).length / 12 * 16 = 4 + (4 + (4 + (4 + rest.length / 12 * 16))) := by
      simp only [List.length_cons]
      omega
    rw [hcount, map_getRegister_cons, map_getRegister_cons, map_getRegister_cons,
      map_getRegister_cons, histoChunks, ih, ← histoOf_append]
    simp only [List.append_assoc]
  | case2 registers reghisto hne =>
    have hlt : registers.length / 12 = 0 := by
      by_contra h0
      have hlen : 12 ≤ registers.length := by omega
      match registers, hlen with
      | b0 :: b1 :: b2 :: b3 :: b4 :: b5 :: b6 :: b7 :: b8 :: b9 :: b10 :: b11 :: rest, _ =>
        exact hne b0 b1 b2 b3 b4 b5 b6 b7 b8 b9 b10 b11 rest rfl
    rw [histoChunks.eq_2 reghisto registers hne, hlt]
    rfl

theorem hllDenseRegHisto_eq (registers : Bytes) (reghisto : ℕ → ℕ) :
    hllDenseRegHisto registers reghisto = histoOf reghisto
      ((List.range (registers.length * 8 / 6)).map (hllDenseGetRegister registers)) := by
  have htotal : registers.length * 8 / 6 = registers.length / 12 * 16 +
      (registers.length * 8 / 6 - registers.length / 12 * 16) := by omega
  have hsplit : List.range (registers.length * 8 / 6) = List.range (registers.length / 12 * 16) ++
      List.range' (registers.length / 12 * 16)
        (registers.length * 8 / 6 - registers.length / 12 * 16) := by
    conv_lhs => rw [htotal, List.range_eq_range', ← List.range'_append_1, Nat.zero_add]
    rw [List.range_eq_range']
  rw [hsplit, List.map_append, histoOf_append, ← histoChunks_eq]
  rfl

end

end Wedb
