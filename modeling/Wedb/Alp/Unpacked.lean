import Wedb.Alp.Packed

/-!
# What the kernels hand out

Over a memory that holds fields of one width every kernel hands out these fields in order, a
loop at a time: the loops of eights, the single elements behind them, and the tails that copy
the bytes that are left.
-/

namespace Wedb.Alp

variable {mem : Memory} {w count srcLen i k : ℕ} {o : ℕ → ℕ}

def handed (out : List Consumed) : List ℕ := out.flatMap (·.offs)

@[simp] theorem handed_nil : handed [] = [] := rfl

@[simp] theorem handed_cons (step : Consumed) (out : List Consumed) :
    handed (step :: out) = step.offs ++ handed out := rfl

@[simp] theorem handed_append (out out' : List Consumed) :
    handed (out ++ out') = handed out ++ handed out' := List.flatMap_append

/-! ## Loads of fields -/

theorem and_bitMask_eq {x v : ℕ} (h : ∀ b < w, x.testBit b = v.testBit b) (hfits : v < 2 ^ w) :
    x &&& bitMask w = v := by
  apply Nat.eq_of_testBit_eq
  intro b
  rw [bitMask, Nat.testBit_and, Nat.testBit_two_pow_sub_one]
  by_cases hb : b < w
  · rw [h b hb, decide_eq_true hb, Bool.and_true]
  · rw [decide_eq_false hb, Bool.and_false, testBit_eq_false_of_fits hfits (by omega)]

/-- A field read out of a load, of which the first `a` bits are dropped before the rest is cut
to a word. -/
theorem load_field (hheld : HoldsFields mem 0 w count o) (hk : k < count) (hfits : o k < 2 ^ w)
    {off bytes a c : ℕ} (hstart : 8 * off + (a + c) = k * w) (hload : a + c + w ≤ 8 * bytes)
    (hword : c + w ≤ 64) :
    asU64 (fromLe mem off bytes >>> a) >>> c &&& bitMask w = o k := by
  refine and_bitMask_eq ?_ hfits
  intro b hb
  have hfield := hheld k hk b hb
  have hpos : 8 * off + (a + (c + b)) = 0 + k * w + b := by omega
  rw [Nat.testBit_shiftRight, testBit_asU64, Nat.testBit_shiftRight, testBit_fromLe, hpos, hfield,
    decide_eq_true (by omega), decide_eq_true (by omega), Bool.true_and, Bool.true_and]

theorem load_field_narrow (hheld : HoldsFields mem 0 w count o) (hk : k < count)
    (hfits : o k < 2 ^ w) {off bytes a : ℕ} (hstart : 8 * off + a = k * w)
    (hload : a + w ≤ 8 * bytes) : fromLe mem off bytes >>> a &&& bitMask w = o k := by
  refine and_bitMask_eq ?_ hfits
  intro b hb
  have hfield := hheld k hk b hb
  have hpos : 8 * off + (a + b) = 0 + k * w + b := by omega
  rw [Nat.testBit_shiftRight, testBit_fromLe, hpos, hfield, decide_eq_true (by omega),
    Bool.true_and]

theorem load_field_whole (hheld : HoldsFields mem 0 w count o) (hk : k < count)
    (hfits : o k < 2 ^ w) {off bytes : ℕ} (hstart : 8 * off = k * w) (hload : w = 8 * bytes) :
    fromLe mem off bytes = o k := by
  have hlt : fromLe mem off bytes < 2 ^ w := hload ▸ fromLe_lt mem off bytes
  have hmasked : fromLe mem off bytes >>> 0 &&& bitMask w = o k :=
    load_field_narrow hheld hk hfits hstart (by omega)
  rw [Nat.shiftRight_zero, masked_eq hlt] at hmasked
  exact hmasked

theorem fromLe_one (off : ℕ) : fromLe mem off 1 = (mem off).toNat := by simp [fromLe]

theorem and_seven (x : ℕ) : x &&& 7 = x % 8 := Nat.and_two_pow_sub_one_eq_mod x 3

/-! ## The loops -/

theorem arr8_eq (f : ℕ → ℕ) : arr8 (fun k => f (i + k)) = (List.range' i 8).map f := by
  rw [arr8, List.range'_eq_map_range, List.map_map]
  rfl

theorem map_range'_append (i n n' : ℕ) (f : ℕ → ℕ) :
    (List.range' i n).map f ++ (List.range' (i + n) n').map f = (List.range' i (n + n')).map f := by
  rw [← List.map_append, ← List.range'_append_1]

theorem handed_onesFrom {one : ℕ → Consumed}
    (hone : ∀ j, i ≤ j → j < count → (one j).offs = [o j]) :
    handed (onesFrom count one i) = (List.range' i (count - i)).map o := by
  induction hn : count - i generalizing i with
  | zero => rw [onesFrom, if_neg (by omega), List.range'_zero, List.map_nil, handed_nil]
  | succ n ih =>
    rw [onesFrom, if_pos (by omega), handed_cons, hone i le_rfl (by omega),
      ih (fun j hij hj => hone j (by omega) hj) (by omega), List.range'_succ, List.map_cons]
    rfl

theorem handed_eightsThenOnes {eight one : ℕ → Consumed}
    (height : ∀ j, j % 8 = 0 → j + 8 ≤ count → (eight j).offs = arr8 fun k => o (j + k))
    (hone : ∀ j, count / 8 * 8 ≤ j → j < count → (one j).offs = [o j]) (hi : i % 8 = 0)
    (hcount : i ≤ count) :
    handed (eightsThenOnes count eight one i) = (List.range' i (count - i)).map o := by
  induction hn : (count - i) / 8 generalizing i with
  | zero =>
    rw [eightsThenOnes, if_neg (by omega)]
    exact handed_onesFrom fun j hij hj => hone j (by omega) hj
  | succ n ih =>
    have hsplit : count - i = 8 + (count - (i + 8)) := by omega
    rw [eightsThenOnes, if_pos (by omega), handed_cons, height i hi (by omega), arr8_eq,
      ih (by omega) (by omega) (by omega), map_range'_append, ← hsplit]

theorem flatMap_range_mul (n per : ℕ) (f : ℕ → ℕ) :
    ((List.range n).flatMap fun b => (List.range per).map fun k => f (per * b + k)) =
      (List.range (per * n)).map f := by
  induction n with
  | zero => simp
  | succ n ih =>
    rw [List.range_succ, List.flatMap_append, ih, mul_add_one, List.range_add, List.map_append,
      List.map_map, List.flatMap_cons, List.flatMap_nil, List.append_nil]
    rfl

/-! ## Exact kernels -/

section Kernels

variable (hheld : HoldsFields mem 0 w count o) (hfits : ∀ k < count, o k < 2 ^ w)
include hheld hfits

theorem handed_bytesThenRem {perByte : ℕ} (hper : perByte * w = 8) :
    handed (bytesThenRem mem perByte w count) = (List.range count).map o := by
  have hpos : 0 < perByte := Nat.pos_of_ne_zero fun h => by simp [h] at hper
  have hfield : ∀ b k, k < perByte → perByte * b + k < count →
      (mem b).toNat >>> (k * w) &&& bitMask w = o (perByte * b + k) := by
    intro b k hk hlt
    have hnext : (k + 1) * w ≤ perByte * w := Nat.mul_le_mul_right w hk
    rw [add_one_mul] at hnext
    have hstart : 8 * b + k * w = (perByte * b + k) * w := by
      rw [add_mul, ← hper]
      ring
    rw [← fromLe_one]
    exact load_field_narrow hheld hlt (hfits _ hlt) hstart (by omega)
  have hsplit : perByte * (count / perByte) + count % perByte = count := Nat.div_add_mod _ _
  have hbytes : handed ((List.range (count / perByte)).map fun b => (⟨[⟨b, 1⟩],
      (List.range perByte).map fun k => (mem b).toNat >>> (k * w) &&& bitMask w⟩ : Consumed)) =
      (List.range (perByte * (count / perByte))).map o := by
    rw [handed, List.flatMap_map, ← flatMap_range_mul]
    apply List.flatMap_congr
    intro b hb
    apply List.map_congr_left
    intro k hk
    rw [List.mem_range] at hb hk
    refine hfield b k hk ?_
    have hle : perByte * (b + 1) ≤ perByte * (count / perByte) := Nat.mul_le_mul_left _ hb
    rw [mul_add_one] at hle
    omega
  rw [bytesThenRem, handed_append, hbytes]
  have hrange : (List.range count).map o = (List.range (perByte * (count / perByte))).map o ++
      (List.range (count % perByte)).map fun k => o (perByte * (count / perByte) + k) := by
    conv_lhs => rw [← hsplit, List.range_add, List.map_append, List.map_map]
    rfl
  rw [hrange]
  congr 1
  split_ifs with hrem
  · rw [handed_cons, handed_nil, List.append_nil]
    apply List.map_congr_left
    intro k hk
    rw [List.mem_range] at hk
    exact hfield _ k (hk.trans (Nat.mod_lt _ hpos)) (by omega)
  · have hnone : count % perByte = 0 := by omega
    rw [hnone]
    rfl

theorem handed_wordsThenBytes (hwidth : w = 2 ∨ w = 4) :
    handed (wordsThenBytes mem w count) = (List.range count).map o := by
  rw [wordsThenBytes, List.range_eq_range']
  refine handed_eightsThenOnes ?_ ?_ rfl (Nat.zero_le count)
  · intro j hj hlt
    simp only
    apply List.map_congr_left
    intro k hk
    rw [List.mem_range] at hk
    have hstart : 8 * (j / 8 * w) + k * w = (j + k) * w := by
      rw [add_mul, ← mul_assoc, mul_comm 8, Nat.div_mul_cancel (Nat.dvd_of_mod_eq_zero hj)]
    exact load_field_narrow hheld (by omega) (hfits _ (by omega)) hstart
      (by rcases hwidth with rfl | rfl <;> omega)
  · intro j hlo hlt
    simp only [List.cons.injEq, and_true]
    rw [← fromLe_one]
    refine load_field_narrow hheld hlt (hfits j hlt) ?_ ?_
    · simp only [Nat.shiftRight_eq_div_pow, and_seven]
      rcases hwidth with rfl | rfl <;> omega
    · rw [and_seven]
      rcases hwidth with rfl | rfl <;> omega

theorem handed_unpack4Lut (hw : w = 4) :
    handed (unpack4Lut mem count) = (List.range count).map o := by
  subst hw
  have hlow : ∀ b, 2 * b < count → (mem b).toNat &&& bitMask 4 = o (2 * b) := by
    intro b hb
    have h : fromLe mem b 1 >>> 0 &&& bitMask 4 = o (2 * b) :=
      load_field_narrow hheld hb (hfits _ hb) (by omega) (by omega)
    rw [Nat.shiftRight_zero, fromLe_one] at h
    exact h
  have hhigh : ∀ b, 2 * b + 1 < count → (mem b).toNat >>> 4 = o (2 * b + 1) := by
    intro b hb
    have h := load_field_narrow hheld hb (hfits _ hb) (by omega : 8 * b + 4 = (2 * b + 1) * 4)
      (by omega : 4 + 4 ≤ 8 * 1)
    have hbyte : (mem b).toNat >>> 4 < 2 ^ 4 := by
      have hlt := (mem b).toNat_lt
      rw [Nat.shiftRight_eq_div_pow]
      omega
    rw [fromLe_one, masked_eq hbyte] at h
    exact h
  have hpairs : ∀ n, 4 * n ≤ count →
      handed ((List.range n).map fun c => (⟨[⟨2 * c, 1⟩, ⟨2 * c + 1, 1⟩],
        [(mem (2 * c)).toNat &&& bitMask 4, (mem (2 * c)).toNat >>> 4] ++
        [(mem (2 * c + 1)).toNat &&& bitMask 4, (mem (2 * c + 1)).toNat >>> 4]⟩ : Consumed)) =
      (List.range (4 * n)).map o := by
    intro n hn
    rw [handed, List.flatMap_map, ← flatMap_range_mul]
    apply List.flatMap_congr
    intro c hc
    rw [List.mem_range] at hc
    rw [hlow (2 * c) (by omega), hhigh (2 * c) (by omega), hlow (2 * c + 1) (by omega),
      hhigh (2 * c + 1) (by omega)]
    have hstart : 2 * (2 * c) = 4 * c := by ring
    have hnext : 2 * (2 * c + 1) = 4 * c + 2 := by ring
    rw [hstart, hnext]
    rfl
  have hbytes : handed (if count / 2 % 2 = 1 then [(⟨[⟨count / 2 - 1, 1⟩],
        [(mem (count / 2 - 1)).toNat &&& bitMask 4, (mem (count / 2 - 1)).toNat >>> 4]⟩ :
          Consumed)] else []) =
      (List.range' (4 * (count / 2 / 2)) (2 * (count / 2 % 2))).map o := by
    split_ifs with hodd
    · have hstart : 2 * (count / 2 - 1) = 4 * (count / 2 / 2) := by omega
      rw [handed_cons, handed_nil, hlow _ (by omega), hhigh _ (by omega), hstart, hodd]
      rfl
    · rw [Nat.mod_two_ne_one.mp hodd]
      rfl
  have hhalf : handed (if count % 2 = 1 then [(⟨[⟨count / 2, 1⟩],
        [(mem (count / 2)).toNat &&& bitMask 4]⟩ : Consumed)] else []) =
      (List.range' (2 * (count / 2)) (count % 2)).map o := by
    split_ifs with hodd
    · rw [handed_cons, handed_nil, hlow _ (by omega), hodd]
      rfl
    · rw [Nat.mod_two_ne_one.mp hodd]
      rfl
  have hfour : 4 * (count / 2 / 2) + 2 * (count / 2 % 2) = 2 * (count / 2) := by omega
  rw [unpack4Lut, handed_append, handed_append, hpairs _ (by omega), hbytes, hhalf]
  have hfirst := map_range'_append 0 (4 * (count / 2 / 2)) (2 * (count / 2 % 2)) o
  have hsecond := map_range'_append 0 (2 * (count / 2)) (count % 2) o
  rw [Nat.zero_add, hfour] at hfirst
  rw [Nat.zero_add, Nat.div_add_mod] at hsecond
  rw [List.range_eq_range', List.range_eq_range', hfirst, hsecond]

theorem handed_unpack8 (hw : w = 8) : handed (unpack8 mem count) = (List.range count).map o := by
  subst hw
  have hbyte : ∀ j < count, (mem j).toNat = o j := by
    intro j hj
    rw [← fromLe_one]
    exact load_field_whole hheld hj (hfits j hj) (by omega) (by decide)
  rw [unpack8, List.range_eq_range']
  refine handed_eightsThenOnes ?_ ?_ rfl (Nat.zero_le count)
  · intro j _ hlt
    apply List.map_congr_left
    intro k hk
    rw [List.mem_range] at hk
    exact hbyte (j + k) (by omega)
  · intro j _ hlt
    rw [hbyte j hlt]

theorem handed_unpack16 (hw : w = 16) :
    handed (unpack16 mem count) = (List.range count).map o := by
  subst hw
  rw [unpack16, List.range_eq_range']
  refine handed_eightsThenOnes ?_ ?_ rfl (Nat.zero_le count)
  · intro j _ hlt
    apply List.map_congr_left
    intro k hk
    rw [List.mem_range] at hk
    have h := load_field_narrow hheld (by omega : j + k < count) (hfits _ (by omega))
      (by ring : 8 * (j * 2) + k * 16 = (j + k) * 16) (by omega : k * 16 + 16 ≤ 8 * 16)
    rw [bitMask, Nat.and_two_pow_sub_one_eq_mod] at h
    exact h
  · intro j _ hlt
    rw [load_field_whole hheld hlt (hfits j hlt) (by omega) (by decide)]

theorem handed_wordsEach {bytes : ℕ} (hw : w = 8 * bytes) :
    handed (wordsEach mem bytes count) = (List.range count).map o := by
  have hword : ∀ j < count, fromLe mem (j * bytes) bytes = o j := by
    intro j hj
    refine load_field_whole hheld hj (hfits j hj) ?_ hw
    rw [hw]
    ring
  rw [wordsEach, List.range_eq_range']
  refine handed_eightsThenOnes ?_ ?_ rfl (Nat.zero_le count)
  · intro j _ hlt
    apply List.map_congr_left
    intro k hk
    rw [List.mem_range] at hk
    exact hword (j + k) (by omega)
  · intro j _ hlt
    rw [hword j hlt]

theorem handed_unpack64 (consumer : Consumer) (hw : w = 64) :
    handed (unpack64 mem consumer count) = (List.range count).map o := by
  subst hw
  rw [unpack64]
  split_ifs
  · rw [handed_cons, handed_nil, List.append_nil]
    apply List.map_congr_left
    intro j hj
    rw [List.mem_range] at hj
    exact load_field_whole hheld hj (hfits j hj) (by omega) (by decide)
  · exact handed_wordsEach hheld hfits rfl

/-! ## Unaligned kernels -/

/-- One element behind the loops, loaded whole or out of the bytes that are left. -/
theorem tailStep_offs (wordBytes : ℕ) (hword : w + 7 ≤ 8 * wordBytes) (hw : w ≤ 64)
    (hsrc : packedByteSize count w ≤ srcLen) {j : ℕ} (hj : j < count) :
    (tailStep mem w srcLen wordBytes j).offs = [o j] := by
  have hnext : (j + 1) * w ≤ count * w := Nat.mul_le_mul_right w hj
  rw [packedByteSize] at hsrc
  rw [add_one_mul] at hnext
  have hfield : ∀ bytes, j * w % 8 + w ≤ 8 * bytes →
      asU64 (fromLe mem (j * w / 8) bytes >>> (j * w % 8)) &&& bitMask w = o j := by
    intro bytes hbytes
    have h := load_field hheld hj (hfits j hj) (by omega : 8 * (j * w / 8) + (j * w % 8 + 0) = j * w)
      (by omega : j * w % 8 + 0 + w ≤ 8 * bytes) (by omega)
    rw [Nat.shiftRight_zero] at h
    exact h
  have hdiv : (j * w) >>> 3 = j * w / 8 := Nat.shiftRight_eq_div_pow (j * w) 3
  rw [tailStep]
  simp only [hdiv, and_seven (j * w)]
  split_ifs with hlimit
  · rw [hfield wordBytes (by omega)]
  · rw [hfield _ (by omega)]
  · rw [hfield _ (by omega)]

theorem handed_unpackTail (wordBytes : ℕ) (hword : w + 7 ≤ 8 * wordBytes) (hw : w ≤ 64)
    (hsrc : packedByteSize count w ≤ srcLen) :
    handed (unpackTail mem w count srcLen wordBytes i) = (List.range' i (count - i)).map o :=
  handed_onesFrom fun _ _ hj => tailStep_offs hheld hfits wordBytes hword hw hsrc hj

theorem le16Fields_eq {byteOffset : ℕ} (hoff : 8 * byteOffset = i * w) (hi : i + 8 ≤ count)
    (hw : w ≤ 15) :
    le16Fields w (fromLe mem byteOffset 16) = (List.range' i 8).map o := by
  have hlo : ∀ k < 4, asU64 (fromLe mem byteOffset 16) >>> (w * k) &&& bitMask w = o (i + k) := by
    intro k hk
    have hle : w * k ≤ w * 3 := Nat.mul_le_mul_left w (by omega)
    have h := load_field hheld (by omega : i + k < count) (hfits _ (by omega))
      (by rw [hoff]; ring : 8 * byteOffset + (0 + w * k) = (i + k) * w)
      (by omega : 0 + w * k + w ≤ 8 * 16) (by omega)
    rw [Nat.shiftRight_zero] at h
    exact h
  have hhi : ∀ k < 4, asU64 (fromLe mem byteOffset 16 >>> (w * 4)) >>> (w * k) &&& bitMask w =
      o (i + 4 + k) := by
    intro k hk
    have hle : w * k ≤ w * 3 := Nat.mul_le_mul_left w (by omega)
    exact load_field hheld (by omega : i + 4 + k < count) (hfits _ (by omega))
      (by rw [hoff]; ring : 8 * byteOffset + (w * 4 + w * k) = (i + 4 + k) * w)
      (by omega : w * 4 + w * k + w ≤ 8 * 16) (by omega)
  have hlo0 := hlo 0 (by decide)
  have hlo1 := hlo 1 (by decide)
  have hhi0 := hhi 0 (by decide)
  have hhi1 := hhi 1 (by decide)
  rw [mul_zero, Nat.shiftRight_zero] at hlo0 hhi0
  rw [mul_one] at hlo1 hhi1
  rw [le16Fields]
  rw [hlo0, hlo1, hlo 2 (by decide), hlo 3 (by decide), hhi0, hhi1, hhi 2 (by decide),
    hhi 3 (by decide)]
  rfl

theorem handed_le16Eights {fastEnd8 byteOffset : ℕ} (hoff : 8 * byteOffset = i * w)
    (hfast : fastEnd8 ≤ count) (hi : i ≤ count) (hw : w ≤ 15)
    (hsrc : packedByteSize count w ≤ srcLen) :
    handed (le16Eights mem w count srcLen fastEnd8 byteOffset i) =
      (List.range' i (count - i)).map o := by
  induction hn : (fastEnd8 - i) / 8 generalizing i byteOffset with
  | zero =>
    rw [le16Eights]
    split_ifs with hlast
    · omega
    · exact handed_unpackTail hheld hfits 8 (by omega) (by omega) hsrc
  | succ n ih =>
    have hnext : 8 * (byteOffset + w) = (i + 8) * w := by
      rw [mul_add, hoff]
      ring
    have hsplit : count - i = 8 + (count - (i + 8)) := by omega
    rw [le16Eights, if_pos (by omega), handed_cons]
    simp only
    rw [le16Fields_eq hheld hfits hoff (by omega) hw, ih hnext (by omega) (by omega),
      map_range'_append, ← hsplit]

theorem handed_le16Sixteens {fastEnd8 byteOffset : ℕ} (hoff : 8 * byteOffset = i * w)
    (hfast : fastEnd8 ≤ count) (hi : i ≤ count) (hw : w ≤ 15)
    (hsrc : packedByteSize count w ≤ srcLen) :
    handed (le16Sixteens mem w count srcLen fastEnd8 byteOffset i) =
      (List.range' i (count - i)).map o := by
  induction hn : (fastEnd8 - i) / 16 generalizing i byteOffset with
  | zero =>
    rw [le16Sixteens]
    split_ifs with hlast
    · omega
    · exact handed_le16Eights hheld hfits hoff hfast hi hw hsrc
  | succ n ih =>
    have hmid : 8 * (byteOffset + w) = (i + 8) * w := by
      rw [mul_add, hoff]
      ring
    have hnext : 8 * (byteOffset + w * 2) = (i + 16) * w := by
      rw [mul_add, hoff]
      ring
    have hsplit : count - i = 8 + (8 + (count - (i + 16))) := by omega
    rw [le16Sixteens, if_pos (by omega), handed_cons, handed_cons]
    simp only
    rw [le16Fields_eq hheld hfits hoff (by omega) hw, le16Fields_eq hheld hfits hmid (by omega) hw,
      ih hnext (by omega) (by omega), hsplit, ← map_range'_append i, ← map_range'_append (i + 8)]

theorem handed_unpackLe16 (hw : w ≤ 15) (hsrc : packedByteSize count w ≤ srcLen) :
    handed (unpackLe16 mem w count srcLen) = (List.range count).map o := by
  rw [unpackLe16, List.range_eq_range']
  exact handed_le16Sixteens hheld hfits (by rw [mul_zero, zero_mul]) (by omega) (by omega) hw hsrc

theorem mid32Fields_eq {byteOffset : ℕ} (hoff : 8 * byteOffset = i * w) (hi : i + 8 ≤ count)
    (hw : w ≤ 31) :
    mid32Fields w ((4 * w) &&& 7) (fromLe mem byteOffset 16)
      (fromLe mem (byteOffset + 4 * w / 8) 16) = (List.range' i 8).map o := by
  have hle : ∀ k < 4, w * k ≤ w * 3 := fun k hk => Nat.mul_le_mul_left w (by omega)
  have hfirst : ∀ k < 4, asU64 (fromLe mem byteOffset 16 >>> (w * k)) &&& bitMask w =
      o (i + k) := by
    intro k hk
    have hk' := hle k hk
    have h := load_field hheld (by omega : i + k < count) (hfits _ (by omega))
      (by rw [hoff]; ring : 8 * byteOffset + (w * k + 0) = (i + k) * w)
      (by omega : w * k + 0 + w ≤ 8 * 16) (by omega)
    rw [Nat.shiftRight_zero] at h
    exact h
  have hsecond : ∀ k < 4, asU64 (fromLe mem (byteOffset + 4 * w / 8) 16 >>>
      ((4 * w) % 8 + w * k)) &&& bitMask w = o (i + 4 + k) := by
    intro k hk
    have hk' := hle k hk
    have hmid : 8 * (byteOffset + 4 * w / 8) + (4 * w % 8 + w * k + 0) = (i + 4 + k) * w := by
      have hdiv := Nat.div_add_mod (4 * w) 8
      calc
        _ = 8 * byteOffset + (8 * (4 * w / 8) + 4 * w % 8) + w * k := by ring
        _ = (i + 4 + k) * w := by rw [hoff, hdiv]; ring
    have h := load_field hheld (by omega : i + 4 + k < count) (hfits _ (by omega)) hmid
      (by omega : 4 * w % 8 + w * k + 0 + w ≤ 8 * 16) (by omega)
    rw [Nat.shiftRight_zero] at h
    exact h
  rw [mid32Fields, and_seven, ← map_range'_append i 4 4, List.range'_eq_map_range,
    List.range'_eq_map_range, List.map_map, List.map_map]
  congr 1
  · apply List.map_congr_left
    intro k hk
    exact hfirst k (List.mem_range.mp hk)
  · apply List.map_congr_left
    intro k hk
    exact hsecond k (List.mem_range.mp hk)

theorem handed_mid32Eights {fastEnd8 byteOffset : ℕ} (hoff : 8 * byteOffset = i * w)
    (hfast : fastEnd8 ≤ count) (hi : i ≤ count) (hw : w ≤ 31)
    (hsrc : packedByteSize count w ≤ srcLen) :
    handed (mid32Eights mem w count srcLen fastEnd8 byteOffset i) =
      (List.range' i (count - i)).map o := by
  induction hn : (fastEnd8 - i) / 8 generalizing i byteOffset with
  | zero =>
    rw [mid32Eights]
    split_ifs with hlast
    · omega
    · exact handed_unpackTail hheld hfits 8 (by omega) (by omega) hsrc
  | succ n ih =>
    have hnext : 8 * (byteOffset + w) = (i + 8) * w := by
      rw [mul_add, hoff]
      ring
    have hsplit : count - i = 8 + (count - (i + 8)) := by omega
    rw [mid32Eights, if_pos (by omega), handed_cons]
    simp only
    rw [mid32Fields_eq hheld hfits hoff (by omega) hw, ih hnext (by omega) (by omega),
      map_range'_append, ← hsplit]

theorem handed_unpack17To32 (hw : w ≤ 31) (hsrc : packedByteSize count w ≤ srcLen) :
    handed (unpack17To32 mem w count srcLen) = (List.range count).map o := by
  rw [unpack17To32, List.range_eq_range']
  exact handed_mid32Eights hheld hfits (by rw [mul_zero, zero_mul]) (by omega) (by omega) hw hsrc

theorem wideFields_eq {byteOff : ℕ} (hoff : 8 * byteOff = i * w) (hi : i + 8 ≤ count)
    (hw : w ≤ 64) :
    (arr8 fun k => asU64 (fromLe mem (byteOff + wideOff w k) (wideBytes w) >>> wideSh w k) &&&
      bitMask w) = (List.range' i 8).map o := by
  rw [← arr8_eq]
  apply List.map_congr_left
  intro k hk
  rw [List.mem_range] at hk
  have hstart : 8 * (byteOff + wideOff w k) + (wideSh w k + 0) = (i + k) * w := by
    have hdiv := Nat.div_add_mod (k * w) 8
    rw [wideOff, wideSh, and_seven, add_mul, ← hoff]
    omega
  have hroom : wideSh w k + 0 + w ≤ 8 * wideBytes w := by
    rw [wideSh, and_seven, wideBytes]
    split_ifs <;> omega
  have h := load_field hheld (by omega : i + k < count) (hfits _ (by omega)) hstart hroom
    (by omega)
  rw [Nat.shiftRight_zero] at h
  exact h

theorem handed_wideEights {safeLimit fastEnd byteOff : ℕ} (hoff : 8 * byteOff = i * w)
    (hfast : fastEnd ≤ count) (hmod : fastEnd % 8 = 0) (hi : i ≤ count) (himod : i % 8 = 0)
    (hw : w ≤ 64) (hsrc : packedByteSize count w ≤ srcLen) :
    handed (wideEights mem w count srcLen safeLimit fastEnd byteOff i) =
      (List.range' i (count - i)).map o := by
  induction hn : (fastEnd - i) / 8 generalizing i byteOff with
  | zero =>
    rw [wideEights, if_neg (by omega)]
    exact handed_unpackTail hheld hfits 16 (by omega) hw hsrc
  | succ n ih =>
    have hnext : 8 * (byteOff + w) = (i + 8) * w := by
      rw [mul_add, hoff]
      ring
    have hsplit : count - i = 8 + (count - (i + 8)) := by omega
    rw [wideEights]
    split_ifs with hsafe
    · rw [handed_cons]
      simp only
      rw [wideFields_eq hheld hfits hoff (by omega) hw, ih hnext (by omega) (by omega) (by omega),
        map_range'_append, ← hsplit]
    · exact handed_unpackTail hheld hfits 16 (by omega) hw hsrc

theorem handed_unpack33To64 (hw : w ≤ 64) (hsrc : packedByteSize count w ≤ srcLen) :
    handed (unpack33To64 mem w count srcLen) = (List.range count).map o := by
  rw [unpack33To64, List.range_eq_range']
  exact handed_wideEights hheld hfits (by rw [mul_zero, zero_mul]) (by omega) (by omega) (by omega)
    rfl hw hsrc

theorem handed_bitunpackCoreConsumer (consumer : Consumer) (hbw : 1 ≤ w ∧ w ≤ 64)
    (hsrc : packedByteSize count w ≤ srcLen) :
    handed (bitunpackCoreConsumer mem w count srcLen consumer) = (List.range count).map o := by
  rw [bitunpackCoreConsumer]
  split_ifs with hnone hzero
  · rw [hnone]
    rfl
  · omega
  · by_cases hexact : w ∈ [1, 2, 4, 8, 16, 32, 64]
    · simp only [List.mem_cons, List.not_mem_nil, or_false] at hexact
      rcases hexact with rfl | rfl | rfl | rfl | rfl | rfl | rfl
      · exact handed_bytesThenRem hheld hfits rfl
      · rw [dispatchBw, unpack2]
        split_ifs
        · exact handed_bytesThenRem hheld hfits rfl
        · exact handed_wordsThenBytes hheld hfits (.inl rfl)
      · rw [dispatchBw, unpack4]
        split_ifs
        · exact handed_unpack4Lut hheld hfits rfl
        · exact handed_wordsThenBytes hheld hfits (.inr rfl)
      · exact handed_unpack8 hheld hfits rfl
      · exact handed_unpack16 hheld hfits rfl
      · exact handed_wordsEach hheld hfits rfl
      · exact handed_unpack64 hheld hfits consumer rfl
    · simp only [List.mem_cons, List.not_mem_nil, or_false, not_or] at hexact
      obtain ⟨h1, h2, h4, h8, h16, h32, h64⟩ := hexact
      have hkernel : dispatchBw mem w count srcLen consumer =
          if w ≤ 15 then unpackLe16 mem w count srcLen
          else if w ≤ 31 then unpack17To32 mem w count srcLen
          else unpack33To64 mem w count srcLen := by
        rw [dispatchBw] <;> assumption
      rw [hkernel]
      split_ifs with hle16 hle31
      · exact handed_unpackLe16 hheld hfits hle16 hsrc
      · exact handed_unpack17To32 hheld hfits hle31 hsrc
      · exact handed_unpack33To64 hheld hfits hbw.2 hsrc

end Kernels

end Wedb.Alp
