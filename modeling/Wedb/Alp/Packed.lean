import Wedb.Alp.Pack

/-!
# What the packers write

Every packer leaves the integers as consecutive fields of one bit stream and nothing below its
first byte changed. A chunk of eight is settled shape by shape, the accumulator by the stream
of the bits that it has stored and of those that it still holds.
-/

namespace Wedb.Alp

variable {mem mem' : Memory} {w p b count width v : ℕ} {o : ℕ → ℕ}

theorem testBit_asU64 (n j : ℕ) : (asU64 n).testBit j = (decide (j < 64) && n.testBit j) := by
  rw [asU64, Nat.testBit_mod_two_pow]

theorem masked_eq (hfits : v < 2 ^ w) : v &&& bitMask w = v := by
  rw [bitMask, Nat.and_two_pow_sub_one_eq_mod, Nat.mod_eq_of_lt hfits]

theorem HoldsBits.of_asU64 {start : ℕ} (h : HoldsBits mem start width (asU64 v))
    (hwidth : width ≤ 64) : HoldsBits mem start width v := by
  intro b hb
  rw [h b hb, testBit_asU64, decide_eq_true (by omega), Bool.true_and]

theorem word_lt (hfits : ∀ k < count, o k < 2 ^ w) : word w count o < 2 ^ (count * w) :=
  (Nat.mod_le _ _).trans_lt (joined_lt hfits)

theorem HoldsBits.word_fields {start : ℕ} (h : HoldsBits mem start (count * w) (word w count o))
    (hfits : ∀ k < count, o k < 2 ^ w) (hword : count * w ≤ 64) :
    HoldsFields mem start w count o :=
  (h.of_asU64 hword).fields hfits

theorem holdsFields_store_word {off bytes : ℕ} (hfits : ∀ k < count, o k < 2 ^ w)
    (hword : count * w ≤ 64) (hbytes : count * w ≤ 8 * bytes) :
    HoldsFields (store mem off bytes (word w count o)) (8 * off) w count o :=
  (holdsBits_store hbytes).word_fields hfits hword

/-! ## Chunks of eight -/

/-- The eight fields stand from byte `p` on, and nothing below has changed. -/
structure Packs (w : ℕ) (o : ℕ → ℕ) (mem mem' : Memory) (p : ℕ) : Prop where
  same : SameBelow mem mem' (8 * p)
  fields : HoldsFields mem' (8 * p) w 8 o

theorem packWord_packs {bytes : ℕ} (hfits : ∀ k < 8, o k < 2 ^ w) (hbytes : w ≤ bytes)
    (hword : w ≤ 8) : Packs w o mem (packWord w o bytes mem p) p :=
  ⟨sameBelow_store le_rfl, holdsFields_store_word hfits (by omega) (by omega)⟩

theorem testBit_lowBits (x : ℕ) (hb : b < w) (hw : w ≤ 8) :
    (x % 2 ^ 8 &&& bitMask w).testBit b = x.testBit b := by
  rw [bitMask, Nat.testBit_and, Nat.testBit_mod_two_pow, Nat.testBit_two_pow_sub_one,
    decide_eq_true hb, decide_eq_true (by omega), Bool.true_and, Bool.and_true]

theorem lowBits_lt (x : ℕ) : x % 2 ^ 8 &&& bitMask w < 2 ^ w :=
  Nat.and_lt_two_pow _ (Nat.sub_lt (by positivity) (by decide))

theorem packBytes_packs {perByte : ℕ} (hper : perByte * w = 8) :
    Packs w o mem (packBytes w o perByte mem p) p := by
  have hpos : 0 < perByte := Nat.pos_of_ne_zero fun h => by simp [h] at hper
  have hw : w ≤ 8 := hper ▸ Nat.le_mul_of_pos_left w hpos
  have hbyte : ∀ i < w, joined w (fun k => o (perByte * i + k) % 2 ^ 8 &&& bitMask w) perByte <
      2 ^ 8 := by
    intro i _
    have hlt := @joined_lt w perByte (fun k => o (perByte * i + k) % 2 ^ 8 &&& bitMask w)
      fun k _ => lowBits_lt _
    rw [hper] at hlt
    exact hlt
  refine ⟨sameBelow_store le_rfl, ?_⟩
  intro k hk b hb
  have hin : k % perByte < perByte := Nat.mod_lt k hpos
  have hbit : k * w + b = k / perByte * 8 + (k % perByte * w + b) := by
    calc
      k * w + b = (perByte * (k / perByte) + k % perByte) * w + b := by rw [Nat.div_add_mod]
      _ = k / perByte * (perByte * w) + (k % perByte * w + b) := by ring
      _ = _ := by rw [hper]
  have hlow : k % perByte * w + b < 8 := by
    have hnext : (k % perByte + 1) * w ≤ perByte * w := Nat.mul_le_mul_right w hin
    rw [add_one_mul] at hnext
    omega
  have hbyteIdx : k / perByte < w := by
    rw [Nat.div_lt_iff_lt_mul hpos, mul_comm, hper]
    exact hk
  rw [packBytes, bitAt_store, if_pos (by omega), add_assoc, Nat.add_sub_cancel_left, hbit,
    testBit_joined hbyte hbyteIdx hlow, testBit_joined (fun k _ => lowBits_lt _) hin hb,
    testBit_lowBits _ hb hw, Nat.div_add_mod]

theorem packHalves_packs {highBytes : ℕ} (hfits : ∀ k < 8, o k < 2 ^ w) (hlow : 8 ≤ w)
    (hword : w ≤ 16) (hhigh : w ≤ 8 + highBytes) :
    Packs w o mem (packHalves w o highBytes mem p) p := by
  have hfirst : word w 4 o < 2 ^ (4 * w) := word_lt fun k hk => hfits k (by omega)
  refine ⟨(sameBelow_store le_rfl).trans (sameBelow_store (by omega)), ?_⟩
  have hbit : ∀ j < 8 * w, bitAt (packHalves w o highBytes mem p) (8 * p + j) =
      ((word w 4 o).testBit j ||
        (decide (4 * w ≤ j) && (word w 4 fun k => o (4 + k)).testBit (j - 4 * w))) := by
    intro j hj
    rw [packHalves, bitAt_store]
    by_cases hlt : j < 64
    · rw [if_neg (by omega), bitAt_store, if_pos (by omega), Nat.add_sub_cancel_left,
        Nat.testBit_or, testBit_asU64, decide_eq_true hlt, Bool.true_and, Nat.testBit_shiftLeft]
    · have hidx : 64 - 4 * w + (8 * p + j - 8 * (p + 8)) = j - 4 * w := by omega
      rw [if_pos (by omega), Nat.testBit_shiftRight, hidx,
        testBit_eq_false_of_fits hfirst (by omega), Bool.false_or, decide_eq_true (by omega),
        Bool.true_and]
  refine HoldsFields.append 4 4 ?_ ?_
  · refine HoldsBits.word_fields ?_ (fun k hk => hfits k (by omega)) (by omega)
    intro b hb
    rw [hbit b (by omega), decide_eq_false (by omega), Bool.false_and, Bool.or_false]
  · refine HoldsBits.word_fields ?_ (fun k hk => hfits (4 + k) (by omega)) (by omega)
    intro b hb
    rw [add_assoc, hbit (4 * w + b) (by omega), testBit_eq_false_of_fits hfirst (by omega),
      Bool.false_or, decide_eq_true (by omega), Bool.true_and, Nat.add_sub_cancel_left]

theorem packTwoWords_packs (hfits : ∀ k < 8, o k < 2 ^ w) (heven : w % 2 = 0) (hword : w ≤ 16) :
    Packs w o mem (packTwoWords w o mem p) p := by
  have hstep : 8 * (p + w / 2) = 8 * p + 4 * w := by omega
  refine ⟨(sameBelow_store le_rfl).trans (sameBelow_store (by omega)), ?_⟩
  refine HoldsFields.append 4 4 ?_ ?_
  · have hfirst : HoldsFields (store mem p 8 (word w 4 o)) (8 * p) w 4 o :=
      holdsFields_store_word (fun k hk => hfits k (by omega)) (by omega) (by omega)
    exact hfirst.of_sameBelow (8 * p + 4 * w) (sameBelow_store (by omega)) le_rfl
  · rw [← hstep]
    exact holdsFields_store_word (fun k hk => hfits (4 + k) (by omega)) (by omega) (by omega)

theorem packPairs_packs (hfits : ∀ k < 8, o k < 2 ^ w) (hfour : w % 4 = 0) (hword : w ≤ 32) :
    Packs w o mem (packPairs w o mem p) p := by
  have hpair : ∀ i < 4, ∀ mem : Memory, HoldsFields
      (store mem (p + i * (w / 4)) 8 (word w 2 fun k => o (2 * i + k))) (8 * p + 2 * i * w) w 2
      fun k => o (2 * i + k) := by
    intro i hi mem
    have hstep : 8 * p + 2 * i * w = 8 * (p + i * (w / 4)) := by
      have hdiv : w = 4 * (w / 4) := by omega
      calc
        8 * p + 2 * i * w = 8 * p + 2 * i * (4 * (w / 4)) := by rw [← hdiv]
        _ = 8 * (p + i * (w / 4)) := by ring
    rw [hstep]
    exact holdsFields_store_word (fun k hk => hfits (2 * i + k) (by omega)) (by omega) (by omega)
  have hone : ∀ mem : Memory, HoldsFields (store mem p 8 (word w 2 fun k => o (2 * 0 + k)))
      (8 * p) w 2 o := by
    intro mem
    have h := hpair 0 (by decide) mem
    simpa using h
  have htwo : ∀ mem : Memory, HoldsFields
      (store mem (p + w / 4) 8 (word w 2 fun k => o (2 * 1 + k))) (8 * p + 2 * w) w 2
      fun k => o (2 + k) := by
    intro mem
    have h := hpair 1 (by decide) mem
    simpa using h
  refine ⟨?_, ?_⟩
  · exact (((sameBelow_store le_rfl).trans (sameBelow_store (by omega))).trans
      (sameBelow_store (by omega))).trans (sameBelow_store (by omega))
  · refine HoldsFields.append 6 2 ?_ (hpair 3 (by decide) _)
    refine HoldsFields.of_sameBelow (8 * p + 6 * w) ?_ (sameBelow_store (by omega)) le_rfl
    refine HoldsFields.append 4 2 ?_ (hpair 2 (by decide) _)
    refine HoldsFields.of_sameBelow (8 * p + 4 * w) ?_ (sameBelow_store (by omega)) le_rfl
    refine HoldsFields.append 2 2 ?_ (htwo _)
    exact (hone mem).of_sameBelow (8 * p + 2 * w) (sameBelow_store (by omega)) le_rfl

theorem packW24_packs (hfits : ∀ k < 8, o k < 2 ^ 24) :
    Packs 24 o mem (packW24 o mem p) p := by
  refine ⟨((sameBelow_store le_rfl).trans (sameBelow_store (by omega))).trans
    (sameBelow_store (by omega)), ?_⟩
  have hoff : ∀ k < 8, ∀ j, 24 ≤ j → (o k).testBit j = false :=
    fun k hk j hj => testBit_eq_false_of_fits (hfits k hk) hj
  have hbit : ∀ j < 8 * 24, bitAt (packW24 o mem p) (8 * p + j) = (joined 24 o 8).testBit j := by
    intro j hj
    simp only [joined, Nat.testBit_or, Nat.testBit_shiftLeft, Nat.zero_testBit, Bool.false_or]
    rw [packW24]
    simp only [bitAt_store]
    by_cases hfirst : j < 64
    · rw [if_neg (by omega), if_neg (by omega), if_pos (by omega), Nat.add_sub_cancel_left]
      simp only [Nat.testBit_or, testBit_asU64, Nat.testBit_shiftLeft, decide_eq_true hfirst]
      rw [decide_eq_false (by omega : ¬3 * 24 ≤ j), decide_eq_false (by omega : ¬4 * 24 ≤ j),
        decide_eq_false (by omega : ¬5 * 24 ≤ j), decide_eq_false (by omega : ¬6 * 24 ≤ j),
        decide_eq_false (by omega : ¬7 * 24 ≤ j)]
      simp
    · by_cases hsecond : j < 128
      · have hword : 8 * p + j - 8 * (p + 8) = j - 64 := by omega
        rw [if_neg (by omega), if_pos (by omega), hword]
        simp only [Nat.testBit_or, testBit_asU64, Nat.testBit_shiftLeft, Nat.testBit_shiftRight,
          decide_eq_true (by omega : j - 64 < 64)]
        rw [hoff 0 (by decide) _ (by omega), hoff 1 (by decide) _ (by omega),
          decide_eq_false (by omega : ¬6 * 24 ≤ j), decide_eq_false (by omega : ¬7 * 24 ≤ j),
          decide_eq_true (by omega : 2 * 24 ≤ j)]
        have h2 : 16 + (j - 64) = j - 2 * 24 := by omega
        have h3 : j - 64 - 8 = j - 3 * 24 := by omega
        have h4 : j - 64 - 32 = j - 4 * 24 := by omega
        have h5 : j - 64 - 56 = j - 5 * 24 := by omega
        have h3' : 8 ≤ j - 64 ↔ 3 * 24 ≤ j := by omega
        have h4' : 32 ≤ j - 64 ↔ 4 * 24 ≤ j := by omega
        have h5' : 56 ≤ j - 64 ↔ 5 * 24 ≤ j := by omega
        simp only [h2, h3, h4, h5, h3', h4', h5', ge_iff_le, Bool.and_false, Bool.false_or,
          Bool.true_and, Bool.false_and, Bool.or_false]
      · have hword : 8 * p + j - 8 * (p + 16) = j - 128 := by omega
        rw [if_pos (by omega), hword]
        simp only [Nat.testBit_or, testBit_asU64, Nat.testBit_shiftLeft, Nat.testBit_shiftRight,
          decide_eq_true (by omega : j - 128 < 64)]
        rw [hoff 0 (by decide) _ (by omega), hoff 1 (by decide) _ (by omega),
          hoff 2 (by decide) _ (by omega), hoff 3 (by decide) _ (by omega),
          hoff 4 (by decide) _ (by omega), decide_eq_true (by omega : 5 * 24 ≤ j)]
        have h5 : 8 + (j - 128) = j - 5 * 24 := by omega
        have h6 : j - 128 - 16 = j - 6 * 24 := by omega
        have h7 : j - 128 - 40 = j - 7 * 24 := by omega
        have h6' : 16 ≤ j - 128 ↔ 6 * 24 ≤ j := by omega
        have h7' : 40 ≤ j - 128 ↔ 7 * 24 ≤ j := by omega
        simp only [h5, h6, h7, h6', h7', ge_iff_le, Bool.and_false, Bool.false_or,
          Bool.true_and]
  refine HoldsBits.fields ?_ hfits
  intro b hb
  exact hbit b hb

/-! ### Fields that share a byte -/

/-- The rest of the byte that the next field begins in is zero. -/
def Clear (mem : Memory) (p b : ℕ) : Prop :=
  ∀ j, b ≤ j → j < (b + 7) / 8 * 8 → bitAt mem (8 * p + j) = false

/-- A field has been added at bit `b` of the bytes from `p` on. -/
structure Extends (mem mem' : Memory) (p b width v : ℕ) : Prop where
  same : SameBelow mem mem' (8 * p + b)
  holds : HoldsBits mem' (8 * p + b) width v
  clear : Clear mem' p (b + width)

theorem clear_of_mod_eq_zero (hb : b % 8 = 0) : Clear mem p b := by
  intro j hlo hhi
  omega

theorem storeAt_sameBelow : SameBelow mem (storeAt v b mem p) (8 * p + b) := by
  intro j hj
  rw [storeAt]
  split_ifs with hshift
  · rw [bitAt_store, if_neg (by omega)]
  · rw [bitAt_store]
    split_ifs with hin
    · have hbyte : j / 8 = p + b / 8 := by omega
      have hbit : j % 8 = j - 8 * (p + b / 8) := by omega
      have hlow : ¬b % 8 ≤ j - 8 * (p + b / 8) := by omega
      rw [Nat.testBit_or, testBit_asU64, Nat.testBit_shiftLeft, decide_eq_false hlow,
        Bool.false_and, Bool.and_false, Bool.false_or, bitAt, hbyte, hbit]
    · rfl

theorem bitAt_storeAt (hclear : Clear mem p b) {j : ℕ} (hlo : b ≤ j)
    (hhi : j < b / 8 * 8 + 64) : bitAt (storeAt v b mem p) (8 * p + j) = v.testBit (j - b) := by
  rw [storeAt]
  split_ifs with hshift
  · have hidx : 8 * p + j - 8 * (p + b / 8) = j - b := by omega
    rw [bitAt_store, if_pos (by omega), hidx]
  · have hidx : 8 * p + j - 8 * (p + b / 8) - b % 8 = j - b := by omega
    rw [bitAt_store, if_pos (by omega), Nat.testBit_or, testBit_asU64, Nat.testBit_shiftLeft,
      decide_eq_true (by omega : _ < 64), decide_eq_true (by omega : _ ≥ b % 8), hidx]
    by_cases hsame : j / 8 = b / 8
    · have hbit := hclear j hlo (by omega)
      have hbyte : (8 * p + j) / 8 = p + b / 8 := by omega
      have hmod : (8 * p + j) % 8 = 8 * p + j - 8 * (p + b / 8) := by omega
      rw [bitAt, hbyte, hmod] at hbit
      rw [hbit, Bool.true_and, Bool.true_and, Bool.or_false]
    · have hbyte : (mem (p + b / 8)).toNat < 2 ^ 8 := (mem (p + b / 8)).toNat_lt
      rw [testBit_eq_false_of_fits hbyte (by omega), Bool.true_and, Bool.true_and, Bool.or_false]

theorem storeAt_extends (hv : v < 2 ^ width) (hroom : b % 8 + width ≤ 64)
    (hclear : Clear mem p b) : Extends mem (storeAt v b mem p) p b width v := by
  refine ⟨storeAt_sameBelow, ?_, ?_⟩
  · intro j hj
    rw [add_assoc, bitAt_storeAt hclear (by omega) (by omega), Nat.add_sub_cancel_left]
  · intro j hlo hhi
    rw [bitAt_storeAt hclear (by omega) (by omega)]
    exact testBit_eq_false_of_fits hv (by omega)

theorem writePair_extends (hv : v < 2 ^ width) (hwidth : width ≤ 64)
    (hroom : b % 8 + width ≤ 72)
    (hclear : Clear mem p b) : Extends mem (writePair v width b mem p) p b width v := by
  rw [writePair]
  split_ifs with hextra
  · have hbit : ∀ j, b ≤ j → j < b / 8 * 8 + 72 →
        bitAt (store (storeAt v b mem p) (p + b / 8 + 8) 1 (v >>> (64 - b % 8))) (8 * p + j) =
          v.testBit (j - b) := by
      intro j hlo hhi
      rw [bitAt_store]
      split_ifs with hin
      · rw [Nat.testBit_shiftRight]
        congr 1
        omega
      · exact bitAt_storeAt hclear hlo (by omega)
    refine ⟨storeAt_sameBelow.trans (sameBelow_store (by omega)), ?_, ?_⟩
    · intro j hj
      rw [add_assoc (8 * p), hbit (b + j) (by omega) (by omega), Nat.add_sub_cancel_left]
    · intro j hlo hhi
      rw [hbit j (by omega) (by omega)]
      exact testBit_eq_false_of_fits hv (by omega)
  · refine storeAt_extends hv ?_ hclear
    omega

/-- Some fields from byte `p` on, with the rest of the last byte zero. -/
structure Growing (w : ℕ) (o : ℕ → ℕ) (mem mem' : Memory) (p count : ℕ) : Prop where
  same : SameBelow mem mem' (8 * p)
  fields : HoldsFields mem' (8 * p) w count o
  clear : Clear mem' p (count * w)

theorem Growing.zero : Growing w o mem mem p 0 :=
  ⟨SameBelow.refl, holdsFields_zero, clear_of_mod_eq_zero (by simp)⟩

theorem Growing.append {mem'' : Memory} (more : ℕ) (h : Growing w o mem mem' p count)
    (hnext : Extends mem' mem'' p (count * w) (more * w) (word w more fun k => o (count + k)))
    (hfits : ∀ k < more, o (count + k) < 2 ^ w) (hword : more * w ≤ 64) :
    Growing w o mem mem'' p (count + more) := by
  refine ⟨h.same.trans (hnext.same.mono (by omega)), ?_, ?_⟩
  · exact HoldsFields.append count more (h.fields.of_sameBelow _ hnext.same le_rfl)
      (hnext.holds.word_fields hfits hword)
  · rw [add_mul]
    exact hnext.clear

theorem pack8W17ToW32_packs (hfits : ∀ k < 8, o k < 2 ^ w) (hword : w ≤ 32) :
    Packs w o mem (pack8W17ToW32 w o mem p) p := by
  have hstep : ∀ (i : ℕ) (mem' : Memory), i < 4 → Growing w o mem mem' p (2 * i) →
      Growing w o mem
        (writePair (word w 2 fun k => o (2 * i + k)) (w * 2) (w * (2 * i)) mem' p) p
        (2 * i + 2) := by
    intro i mem' hi hgrow
    have hpair : ∀ k < 2, o (2 * i + k) < 2 ^ w := fun k hk => hfits (2 * i + k) (by omega)
    have hlt := word_lt hpair
    refine hgrow.append 2 ?_ hpair (by omega)
    rw [mul_comm w, mul_comm w]
    refine writePair_extends hlt (by omega) ?_ hgrow.clear
    have heven : 2 * i * w % 8 = 2 * (i * w % 4) := by
      rw [mul_assoc, ← Nat.mul_mod_mul_left]
    omega
  have hfirst := hstep 0 mem (by decide) Growing.zero
  have hsecond := hstep 1 _ (by decide) hfirst
  have hthird := hstep 2 _ (by decide) hsecond
  have hfourth := hstep 3 _ (by decide) hthird
  exact ⟨hfourth.same, hfourth.fields⟩

theorem pack8W33ToW48_packs (hfits : ∀ k < 8, o k < 2 ^ w) (hword : w ≤ 48) :
    Packs w o mem (pack8W33ToW48 w o mem p) p := by
  have hgrow : ∀ n ≤ 8, Growing w o mem
      ((List.range n).foldl (fun mem i => storeAt (o i) (i * w) mem p) mem) p n := by
    intro n hn
    induction n with
    | zero => exact Growing.zero
    | succ n ih =>
      have hinit := ih (by omega)
      have hext := storeAt_extends (hfits n (by omega)) (by omega) hinit.clear
      rw [List.range_succ, List.foldl_append, List.foldl_cons, List.foldl_nil]
      refine ⟨hinit.same.trans (hext.same.mono (by omega)), ?_, ?_⟩
      · exact (hinit.fields.of_sameBelow _ hext.same le_rfl).succ hext.holds
      · rw [add_one_mul]
        exact hext.clear
  have hall := hgrow 8 le_rfl
  exact ⟨hall.same, hall.fields⟩

theorem pack8Unrolled_packs (hfits : ∀ k < 8, o k < 2 ^ w) (hpos : 1 ≤ w) (hword : w ≤ 16) :
    Packs w o mem (pack8Unrolled w o mem p) p := by
  interval_cases w
  · exact packBytes_packs rfl
  · exact packBytes_packs rfl
  · exact packWord_packs hfits (by decide) (by decide)
  · exact packBytes_packs rfl
  · exact packWord_packs hfits (by decide) (by decide)
  · exact packWord_packs hfits (by decide) (by decide)
  · exact packWord_packs hfits (by decide) (by decide)
  · exact packWord_packs hfits (by decide) (by decide)
  · exact packHalves_packs hfits (by decide) (by decide) (by decide)
  · exact packTwoWords_packs hfits rfl (by decide)
  · exact packHalves_packs hfits (by decide) (by decide) (by decide)
  · exact packTwoWords_packs hfits rfl (by decide)
  · exact packHalves_packs hfits (by decide) (by decide) (by decide)
  · exact packTwoWords_packs hfits rfl (by decide)
  · exact packHalves_packs hfits (by decide) (by decide) (by decide)
  · exact packTwoWords_packs hfits rfl (by decide)

theorem packChunk8_packs (hfits : ∀ k < 8, o k < 2 ^ w) (hpos : 1 ≤ w) (hword : w ≤ 48) :
    Packs w o mem (packChunk8 w o mem p) p := by
  rw [packChunk8]
  split_ifs with hunrolled h20 h24 h28 h32 hpair
  · exact pack8Unrolled_packs hfits hpos hunrolled.2
  · subst h20
    exact packPairs_packs hfits rfl (by decide)
  · subst h24
    exact packW24_packs hfits
  · subst h28
    exact packPairs_packs hfits rfl (by decide)
  · subst h32
    exact packPairs_packs hfits rfl (by decide)
  · exact pack8W17ToW32_packs hfits (by omega)
  · exact pack8W33ToW48_packs hfits hword

theorem packChunks_fields (chunks : ℕ) (hfits : ∀ k < 8 * chunks, o k < 2 ^ w) (hpos : 1 ≤ w)
    (hword : w ≤ 48) : HoldsFields (packChunks w o mem chunks) 0 w (8 * chunks) o := by
  induction chunks with
  | zero => exact holdsFields_zero
  | succ chunks ih =>
    have hlast := @packChunk8_packs (packChunks w o mem chunks) w (w * chunks)
      (fun k => o (8 * chunks + k)) (fun k hk => hfits _ (by omega)) hpos hword
    have hstart : 8 * (w * chunks) = 0 + 8 * chunks * w := by ring
    rw [packChunks, mul_add_one]
    refine HoldsFields.append (8 * chunks) 8 ?_ ?_
    · exact (ih fun k hk => hfits k (by omega)).of_sameBelow _ hlast.same hstart.ge
    · exact hstart ▸ hlast.fields

end Wedb.Alp
