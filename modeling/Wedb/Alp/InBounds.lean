import Wedb.Alp.Kernel

/-!
# Which loads stay inside the source

The wide loads are guarded by limits that saturate at zero, so that a slice shorter than a
load admits the load at its first byte. What follows says for every kernel exactly which
lengths of the source keep all loads inside.
-/

namespace Wedb.Alp

/-- A byte that the kernel reads. -/
def Reads (out : List Consumed) (j : ℕ) : Prop :=
  ∃ step ∈ out, ∃ load ∈ step.loads, load.off ≤ j ∧ j < load.off + load.bytes

def InBounds (srcLen : ℕ) (out : List Consumed) : Prop := ∀ j, Reads out j → j < srcLen

def Load.Fits (srcLen : ℕ) (load : Load) : Prop := load.bytes = 0 ∨ load.off + load.bytes ≤ srcLen

variable {mem : Memory} {bw count srcLen i : ℕ} {step : Consumed} {out : List Consumed}

theorem inBounds_iff :
    InBounds srcLen out ↔ ∀ step ∈ out, ∀ load ∈ step.loads, load.Fits srcLen := by
  constructor
  · intro h step hstep load hload
    rcases Nat.eq_zero_or_pos load.bytes with hzero | hpos
    · exact .inl hzero
    · have hlast := h (load.off + load.bytes - 1) ⟨step, hstep, load, hload, by omega, by omega⟩
      exact .inr (by omega)
  · intro h j hj
    obtain ⟨step, hstep, load, hload, hlo, hhi⟩ := hj
    rcases h step hstep load hload with hzero | hfits
    · omega
    · omega

theorem inBounds_nil : InBounds srcLen [] := by
  rw [inBounds_iff]
  intro step hstep
  cases hstep

theorem inBounds_cons : InBounds srcLen (step :: out) ↔
    (∀ load ∈ step.loads, load.Fits srcLen) ∧ InBounds srcLen out := by
  rw [inBounds_iff, inBounds_iff, List.forall_mem_cons]

theorem inBounds_append {out' : List Consumed} :
    InBounds srcLen (out ++ out') ↔ InBounds srcLen out ∧ InBounds srcLen out' := by
  rw [inBounds_iff, inBounds_iff, inBounds_iff, List.forall_mem_append]

/-! ## The loops -/

theorem inBounds_onesFrom {one : ℕ → Consumed} :
    InBounds srcLen (onesFrom count one i) ↔
      ∀ j, i ≤ j → j < count → ∀ load ∈ (one j).loads, load.Fits srcLen := by
  induction hn : count - i generalizing i with
  | zero =>
    rw [onesFrom, if_neg (by omega), iff_true_left inBounds_nil]
    intro j hij hj
    omega
  | succ n ih =>
    rw [onesFrom, if_pos (by omega), inBounds_cons, ih (by omega)]
    constructor
    · intro h j hij hj
      rcases Nat.eq_or_lt_of_le hij with heq | hlt
      · exact heq ▸ h.1
      · exact h.2 j hlt hj
    · intro h
      exact ⟨h i le_rfl (by omega), fun j hij hj => h j (by omega) hj⟩

theorem inBounds_eightsThenOnes {eight one : ℕ → Consumed}
    (height : ∀ j, j % 8 = 0 → j + 8 ≤ count → ∀ load ∈ (eight j).loads, load.Fits srcLen)
    (hone : ∀ j, count / 8 * 8 ≤ j → j < count → ∀ load ∈ (one j).loads, load.Fits srcLen)
    (hi : i % 8 = 0) (hcount : i ≤ count) :
    InBounds srcLen (eightsThenOnes count eight one i) := by
  induction hn : (count - i) / 8 generalizing i with
  | zero =>
    rw [eightsThenOnes, if_neg (by omega), inBounds_onesFrom]
    exact fun j hij hj => hone j (by omega) hj
  | succ n ih =>
    rw [eightsThenOnes, if_pos (by omega), inBounds_cons]
    exact ⟨height i hi (by omega), ih (by omega) (by omega) (by omega)⟩

/-! ## Exact kernels -/

theorem inBounds_bytesThenRem {perByte width : ℕ} (hdiv : perByte * width = 8)
    (hsrc : packedByteSize count width ≤ srcLen) :
    InBounds srcLen (bytesThenRem mem perByte width count) := by
  have hper : 0 < perByte := Nat.pos_of_ne_zero fun h => by simp [h] at hdiv
  have hbits : 8 * (count / perByte) + count % perByte * width = count * width := by
    calc
      _ = (perByte * (count / perByte) + count % perByte) * width := by rw [← hdiv]; ring
      _ = count * width := by rw [Nat.div_add_mod]
  rw [packedByteSize] at hsrc
  rw [bytesThenRem, inBounds_append, inBounds_iff]
  constructor
  · intro step hstep load hload
    obtain ⟨b, hb, rfl⟩ := List.mem_map.mp hstep
    rw [List.mem_range] at hb
    rw [List.mem_singleton] at hload
    rw [hload]
    exact .inr (by simp only; omega)
  · split_ifs with hrem
    · have hwidth : 0 < width := Nat.pos_of_ne_zero fun h => by simp [h] at hdiv
      have hone := Nat.mul_pos hrem hwidth
      rw [inBounds_cons, and_iff_left inBounds_nil, List.forall_mem_singleton]
      exact .inr (by simp only; omega)
    · exact inBounds_nil

theorem inBounds_wordsThenBytes {width : ℕ} (hwidth : width = 2 ∨ width = 4)
    (hsrc : packedByteSize count width ≤ srcLen) :
    InBounds srcLen (wordsThenBytes mem width count) := by
  rw [packedByteSize] at hsrc
  refine inBounds_eightsThenOnes ?_ ?_ rfl (Nat.zero_le count)
  · intro j hmod hj
    rw [List.forall_mem_singleton]
    rcases hwidth with rfl | rfl <;> exact .inr (by simp only; omega)
  · intro j hlo hj
    rw [List.forall_mem_singleton]
    refine .inr ?_
    simp only [Nat.shiftRight_eq_div_pow]
    rcases hwidth with rfl | rfl <;> omega

theorem inBounds_unpack4Lut (hsrc : packedByteSize count 4 ≤ srcLen) :
    InBounds srcLen (unpack4Lut mem count) := by
  rw [packedByteSize] at hsrc
  rw [unpack4Lut, inBounds_append, inBounds_append, inBounds_iff]
  refine ⟨⟨?_, ?_⟩, ?_⟩
  · intro step hstep load hload
    obtain ⟨c, hc, rfl⟩ := List.mem_map.mp hstep
    rw [List.mem_range] at hc
    simp only [List.mem_cons, List.not_mem_nil, or_false] at hload
    rcases hload with rfl | rfl <;> exact .inr (by simp only; omega)
  · split_ifs
    · rw [inBounds_cons, and_iff_left inBounds_nil, List.forall_mem_singleton]
      exact .inr (by simp only; omega)
    · exact inBounds_nil
  · split_ifs
    · rw [inBounds_cons, and_iff_left inBounds_nil, List.forall_mem_singleton]
      exact .inr (by simp only; omega)
    · exact inBounds_nil

theorem inBounds_unpack8 (hsrc : packedByteSize count 8 ≤ srcLen) :
    InBounds srcLen (unpack8 mem count) := by
  rw [packedByteSize] at hsrc
  refine inBounds_eightsThenOnes ?_ ?_ rfl (Nat.zero_le count) <;> intro j _ hj <;>
    rw [List.forall_mem_singleton] <;> exact .inr (by simp only; omega)

theorem inBounds_unpack16 (hsrc : packedByteSize count 16 ≤ srcLen) :
    InBounds srcLen (unpack16 mem count) := by
  rw [packedByteSize] at hsrc
  refine inBounds_eightsThenOnes ?_ ?_ rfl (Nat.zero_le count) <;> intro j _ hj <;>
    rw [List.forall_mem_singleton] <;> exact .inr (by simp only; omega)

theorem inBounds_wordsEach {bytes : ℕ} (hsrc : packedByteSize count (8 * bytes) ≤ srcLen) :
    InBounds srcLen (wordsEach mem bytes count) := by
  have hall : count * bytes ≤ srcLen := by
    have hbits : count * (8 * bytes) = 8 * (count * bytes) := by ring
    rw [packedByteSize, hbits] at hsrc
    omega
  have hword : ∀ j, j < count → Load.Fits srcLen ⟨j * bytes, bytes⟩ := by
    intro j hj
    have hnext : (j + 1) * bytes ≤ count * bytes := Nat.mul_le_mul_right bytes hj
    rw [add_one_mul] at hnext
    exact .inr (hnext.trans hall)
  refine inBounds_eightsThenOnes ?_ ?_ rfl (Nat.zero_le count)
  · intro j _ hj load hload
    obtain ⟨k, hk, rfl⟩ := List.mem_map.mp hload
    rw [List.mem_range] at hk
    exact hword (j + k) (by omega)
  · intro j _ hj
    rw [List.forall_mem_singleton]
    exact hword j hj

/-! ## Unaligned kernels -/

/-- The load of an element stays inside where the source holds a whole word, or where the
element lies past the limit that saturated. -/
theorem tailStep_fits (wordBytes : ℕ) (i : ℕ) (hword : 0 < wordBytes) :
    (∀ load ∈ (tailStep mem bw srcLen wordBytes i).loads, load.Fits srcLen) ↔
      wordBytes ≤ srcLen ∨ 0 < i * bw / 8 := by
  rw [tailStep]
  simp only [Nat.shiftRight_eq_div_pow]
  split_ifs with hlimit havail
  · rw [List.forall_mem_singleton, Load.Fits]
    simp only
    omega
  · rw [List.forall_mem_singleton, Load.Fits]
    simp only
    omega
  · simp only [List.not_mem_nil, false_imp_iff, implies_true, true_iff]
    omega

theorem inBounds_unpackTail (wordBytes : ℕ) (hword : 0 < wordBytes)
    (h : wordBytes ≤ srcLen ∨ 0 < i * bw / 8) :
    InBounds srcLen (unpackTail mem bw count srcLen wordBytes i) := by
  rw [unpackTail, inBounds_onesFrom]
  intro j hij hj
  rw [tailStep_fits wordBytes j hword]
  refine h.imp_right fun hpos => hpos.trans_le ?_
  exact Nat.div_le_div_right (Nat.mul_le_mul_right bw hij)

theorem not_inBounds_unpackTail (wordBytes : ℕ) (hcount : 0 < count) (hshort : srcLen < wordBytes) :
    ¬InBounds srcLen (unpackTail mem bw count srcLen wordBytes 0) := by
  rw [unpackTail, inBounds_onesFrom]
  intro h
  have hfirst := (tailStep_fits wordBytes 0 (by omega)).mp (h 0 le_rfl hcount)
  rw [zero_mul, Nat.zero_div] at hfirst
  omega

theorem group_fits {fastEnd8 byteOffset slack groups : ℕ} (hoff : 8 * byteOffset = i * bw)
    (hlast : i + 8 * groups ≤ fastEnd8) (hgroups : 0 < groups)
    (hfast : fastEnd8 ≤ (srcLen - slack) / bw * 8) :
    byteOffset + groups * bw + slack ≤ srcLen := by
  have hbits : (i + 8 * groups) * bw ≤ (srcLen - slack) / bw * 8 * bw :=
    Nat.mul_le_mul_right bw (hlast.trans hfast)
  have hsplit : (i + 8 * groups) * bw = 8 * (byteOffset + groups * bw) := by
    rw [add_mul, ← hoff]
    ring
  have hround : (srcLen - slack) / bw * 8 * bw ≤ 8 * (srcLen - slack) := by
    calc
      _ = 8 * ((srcLen - slack) / bw * bw) := by ring
      _ ≤ 8 * (srcLen - slack) := Nat.mul_le_mul_left 8 (Nat.div_mul_le_self _ _)
  have hpos : 0 < (srcLen - slack) / bw := by omega
  have hslack : 0 < srcLen - slack := Nat.pos_of_ne_zero fun h => by simp [h] at hpos
  omega

theorem inBounds_le16Eights {fastEnd8 byteOffset : ℕ} (hoff : 8 * byteOffset = i * bw)
    (hfast : fastEnd8 ≤ (srcLen - 16) / bw * 8) (hsrc : 8 ≤ srcLen) :
    InBounds srcLen (le16Eights mem bw count srcLen fastEnd8 byteOffset i) := by
  induction hn : (fastEnd8 - i) / 8 generalizing i byteOffset with
  | zero =>
    rw [le16Eights]
    split_ifs with hlast
    · omega
    · exact inBounds_unpackTail 8 (by decide) (.inl hsrc)
  | succ n ih =>
    have hgroup := group_fits hoff (by omega : i + 8 * 1 ≤ fastEnd8) Nat.one_pos hfast
    rw [le16Eights, if_pos (by omega), inBounds_cons, List.forall_mem_singleton]
    refine ⟨.inr (by simp only; omega), ih ?_ (by omega)⟩
    rw [mul_add, hoff]
    ring

theorem inBounds_le16Sixteens {fastEnd8 byteOffset : ℕ} (hoff : 8 * byteOffset = i * bw)
    (hfast : fastEnd8 ≤ (srcLen - 16) / bw * 8) (hsrc : 8 ≤ srcLen) :
    InBounds srcLen (le16Sixteens mem bw count srcLen fastEnd8 byteOffset i) := by
  induction hn : (fastEnd8 - i) / 16 generalizing i byteOffset with
  | zero =>
    rw [le16Sixteens]
    split_ifs with hlast
    · omega
    · exact inBounds_le16Eights hoff hfast hsrc
  | succ n ih =>
    have hgroup := group_fits hoff (by omega : i + 8 * 2 ≤ fastEnd8) Nat.two_pos hfast
    rw [le16Sixteens, if_pos (by omega), inBounds_cons, inBounds_cons]
    refine ⟨?_, by simp, ih ?_ (by omega)⟩
    · rw [List.forall_mem_cons, List.forall_mem_singleton]
      exact ⟨.inr (by simp only; omega), .inr (by simp only; omega)⟩
    · rw [mul_add, hoff]
      ring

theorem inBounds_unpackLe16 (hcount : 0 < count) :
    InBounds srcLen (unpackLe16 mem bw count srcLen) ↔ 8 ≤ srcLen := by
  constructor
  · intro h
    by_contra hshort
    have hzero : srcLen - 16 = 0 := by omega
    rw [unpackLe16] at h
    simp only [hzero, Nat.zero_div, zero_mul, Nat.zero_min] at h
    rw [le16Sixteens, if_neg (by decide), le16Eights, if_neg (by decide)] at h
    exact not_inBounds_unpackTail 8 hcount (not_le.mp hshort) h
  · exact inBounds_le16Sixteens (by rw [mul_zero, zero_mul]) (Nat.min_le_left _ _)

theorem inBounds_mid32Eights {fastEnd8 byteOffset : ℕ} (hoff : 8 * byteOffset = i * bw)
    (hfast : fastEnd8 ≤ (srcLen - (4 * bw / 8 + 16)) / bw * 8) (hsrc : 8 ≤ srcLen) :
    InBounds srcLen (mid32Eights mem bw count srcLen fastEnd8 byteOffset i) := by
  induction hn : (fastEnd8 - i) / 8 generalizing i byteOffset with
  | zero =>
    rw [mid32Eights]
    split_ifs with hlast
    · omega
    · exact inBounds_unpackTail 8 (by decide) (.inl hsrc)
  | succ n ih =>
    have hgroup := group_fits hoff (by omega : i + 8 * 1 ≤ fastEnd8) Nat.one_pos hfast
    rw [mid32Eights]
    rw [if_pos (by omega), inBounds_cons, List.forall_mem_cons, List.forall_mem_singleton]
    refine ⟨⟨.inr (by simp only; omega), .inr (by simp only; omega)⟩, ih ?_ (by omega)⟩
    rw [mul_add, hoff]
    ring

theorem inBounds_unpack17To32 (hcount : 0 < count) :
    InBounds srcLen (unpack17To32 mem bw count srcLen) ↔ 8 ≤ srcLen := by
  constructor
  · intro h
    by_contra hshort
    have hzero : srcLen - (4 * bw / 8 + 16) = 0 := by omega
    rw [unpack17To32] at h
    simp only [hzero, Nat.zero_div, zero_mul, Nat.zero_min] at h
    rw [mid32Eights, if_neg (by decide)] at h
    exact not_inBounds_unpackTail 8 hcount (not_le.mp hshort) h
  · exact inBounds_mid32Eights (by rw [mul_zero, zero_mul]) (Nat.min_le_left _ _)

def wideReach (bw : ℕ) : ℕ := 7 * bw / 8 + wideBytes bw

theorem wideReach_le (bw : ℕ) : wideReach bw ≤ bw + 16 := by
  rw [wideReach, wideBytes]
  split_ifs <;> omega

theorem wideGroup_fits (byteOff : ℕ) :
    (∀ load ∈ arr8 (fun k => (⟨byteOff + wideOff bw k, wideBytes bw⟩ : Load)), load.Fits srcLen) ↔
      byteOff + wideReach bw ≤ srcLen := by
  have hword : 0 < wideBytes bw := by
    rw [wideBytes]
    split_ifs <;> decide
  rw [wideReach]
  constructor
  · intro h
    have hlast := h ⟨byteOff + wideOff bw 7, wideBytes bw⟩
      (List.mem_map.mpr ⟨7, by decide, rfl⟩)
    rw [Load.Fits, wideOff] at hlast
    simp only at hlast
    omega
  · intro h load hload
    obtain ⟨k, hk, rfl⟩ := List.mem_map.mp hload
    rw [List.mem_range] at hk
    have hle : wideOff bw k ≤ 7 * bw / 8 :=
      Nat.div_le_div_right (Nat.mul_le_mul_right bw (Nat.lt_succ_iff.mp hk))
    exact .inr (by simp only; omega)

/-- Past the first group the limit no longer admits a load that does not fit. -/
theorem inBounds_wideEights {fastEnd byteOff : ℕ} (hoff : 8 * byteOff = i * bw)
    (hpos : 0 < byteOff) :
    InBounds srcLen (wideEights mem bw count srcLen (srcLen - (bw + 16)) fastEnd byteOff i) := by
  have htail : InBounds srcLen (unpackTail mem bw count srcLen 16 i) :=
    inBounds_unpackTail 16 (by decide) (.inr (by omega))
  induction hn : (fastEnd + 7 - i) / 8 generalizing i byteOff with
  | zero =>
    rw [wideEights, if_neg (by omega)]
    exact htail
  | succ n ih =>
    rw [wideEights]
    split_ifs with hgroup
    · have hreach := wideReach_le bw
      have hnext : 8 * (byteOff + bw) = (i + 8) * bw := by
        rw [mul_add, hoff]
        ring
      rw [inBounds_cons, wideGroup_fits]
      exact ⟨by omega, ih hnext (by omega) (inBounds_unpackTail 16 (by decide) (.inr (by omega)))
        (by omega)⟩
    · exact htail

theorem inBounds_unpack33To64 (hbw : 0 < bw) (hcount : 0 < count) :
    InBounds srcLen (unpack33To64 mem bw count srcLen) ↔
      if count < 8 then 16 ≤ srcLen else wideReach bw ≤ srcLen := by
  rw [unpack33To64]
  split_ifs with hfew
  · rw [wideEights, if_neg (by omega)]
    constructor
    · intro h
      by_contra hshort
      exact not_inBounds_unpackTail 16 hcount (not_le.mp hshort) h
    · exact fun h => inBounds_unpackTail 16 (by decide) (.inl h)
  · have hrest : InBounds srcLen
        (wideEights mem bw count srcLen (srcLen - (bw + 16)) (count / 8 * 8) (0 + bw) (0 + 8)) :=
      inBounds_wideEights (by ring) (by omega)
    rw [wideEights, if_pos (by omega), inBounds_cons, and_iff_left hrest, wideGroup_fits, zero_add]

/-! ## Every width -/

/-- The source is long enough for the loads that the saturated limits admit. -/
def LoadsFit (bw count srcLen : ℕ) : Prop :=
  if bw ∈ [1, 2, 4, 8, 16, 32, 64] then True
  else if bw < 32 then 8 ≤ srcLen
  else if count < 8 then 16 ≤ srcLen
  else wideReach bw ≤ srcLen

instance : Decidable (LoadsFit bw count srcLen) := inferInstanceAs (Decidable (ite _ _ _))

/-- Every byte that the kernel of a width reads lies in the source exactly where the source is
long enough for the word that its first element or its first group is loaded through. -/
theorem bitunpackCoreConsumer_inBounds_iff (mem : Memory) (consumer : Consumer)
    (hbw : 1 ≤ bw ∧ bw ≤ 64) (hcount : 1 ≤ count) (hsrc : packedByteSize count bw ≤ srcLen) :
    (∀ j, Reads (bitunpackCoreConsumer mem bw count srcLen consumer) j → j < srcLen) ↔
      LoadsFit bw count srcLen := by
  change InBounds srcLen _ ↔ _
  rw [bitunpackCoreConsumer, if_neg (by omega), if_neg (by omega), LoadsFit]
  by_cases hexact : bw ∈ [1, 2, 4, 8, 16, 32, 64]
  · rw [if_pos hexact, iff_true]
    simp only [List.mem_cons, List.not_mem_nil, or_false] at hexact
    rcases hexact with rfl | rfl | rfl | rfl | rfl | rfl | rfl
    · exact inBounds_bytesThenRem rfl hsrc
    · rw [dispatchBw, unpack2]
      split_ifs
      · exact inBounds_bytesThenRem rfl hsrc
      · exact inBounds_wordsThenBytes (.inl rfl) hsrc
    · rw [dispatchBw, unpack4]
      split_ifs
      · exact inBounds_unpack4Lut hsrc
      · exact inBounds_wordsThenBytes (.inr rfl) hsrc
    · exact inBounds_unpack8 hsrc
    · exact inBounds_unpack16 hsrc
    · exact inBounds_wordsEach hsrc
    · rw [dispatchBw, unpack64]
      split_ifs
      · rw [packedByteSize] at hsrc
        rw [inBounds_cons, and_iff_left inBounds_nil, List.forall_mem_singleton]
        exact .inr (by simp only; omega)
      · exact inBounds_wordsEach hsrc
  · rw [if_neg hexact]
    simp only [List.mem_cons, List.not_mem_nil, or_false, not_or] at hexact
    obtain ⟨h1, h2, h4, h8, h16, h32, h64⟩ := hexact
    have hkernel : dispatchBw mem bw count srcLen consumer =
        if bw ≤ 15 then unpackLe16 mem bw count srcLen
        else if bw ≤ 31 then unpack17To32 mem bw count srcLen
        else unpack33To64 mem bw count srcLen := by
      rw [dispatchBw] <;> assumption
    rw [hkernel]
    by_cases hle16 : bw ≤ 15
    · rw [if_pos hle16, if_pos (by omega)]
      exact inBounds_unpackLe16 hcount
    · rw [if_neg hle16]
      by_cases hle31 : bw ≤ 31
      · rw [if_pos hle31, if_pos (by omega)]
        exact inBounds_unpack17To32 hcount
      · rw [if_neg hle31, if_neg (by omega), inBounds_unpack33To64 (by omega) hcount]

theorem bitunpackCoreConsumer_inBounds_eight :
    (∀ j, Reads (bitunpackCoreConsumer (fun _ => 0) 5 3 8 ⟨false, false, false⟩) j → j < 8) ↔
      LoadsFit 5 3 8 :=
  bitunpackCoreConsumer_inBounds_iff _ _ (by decide) (by decide) (by decide)

/-- A single three-bit integer is loaded through eight bytes, also out of a source of one. -/
theorem bitunpackCoreConsumer_reads_past :
    ¬∀ (mem : Memory) (consumer : Consumer) (bw count srcLen : ℕ), 1 ≤ bw ∧ bw ≤ 64 → 1 ≤ count →
      packedByteSize count bw ≤ srcLen →
      ∀ j, Reads (bitunpackCoreConsumer mem bw count srcLen consumer) j → j < srcLen := by
  intro hclaim
  have hkernel : bitunpackCoreConsumer (fun _ => 0) 3 1 1 ⟨false, false, false⟩ =
      unpackLe16 (fun _ => 0) 3 1 1 := rfl
  have hin := hclaim (fun _ => 0) ⟨false, false, false⟩ 3 1 1 (by decide) le_rfl (by decide)
  rw [hkernel] at hin
  exact absurd ((inBounds_unpackLe16 Nat.one_pos).mp hin) (by decide)

end Wedb.Alp
