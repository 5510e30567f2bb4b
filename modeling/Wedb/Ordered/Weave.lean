import Mathlib.Algebra.Order.Floor.Semifield
import Mathlib.Data.Nat.Bitwise
import Mathlib.Tactic.Ring

/-!
# Woven numbers

The bits of two numbers alternate in a third one. Operations on the bits of the woven number
are operations on both numbers, and a carry through the bits of one of them counts the other.
-/

def spread (n : ℕ) : ℕ := if n = 0 then 0 else n % 2 + 4 * spread (n / 2)
termination_by n

def weave (x y : ℕ) : ℕ := spread x + 2 * spread y

section

variable {x y a b k n : ℕ}

@[simp] theorem spread_zero : spread 0 = 0 := by
  rw [spread, if_pos rfl]

theorem spread_eq (n : ℕ) : spread n = n % 2 + 4 * spread (n / 2) := by
  rw [spread]
  split_ifs with h
  · rw [h]
    simp
  · rfl

theorem weave_zero_right (x : ℕ) : weave x 0 = spread x := by
  rw [weave, spread_zero, mul_zero, add_zero]

theorem weave_zero_left (y : ℕ) : weave 0 y = 2 * spread y := by
  rw [weave, spread_zero, zero_add]

theorem weave_eq (x y : ℕ) : weave x y = x % 2 + 2 * (y % 2) + 4 * weave (x / 2) (y / 2) := by
  rw [weave, weave, spread_eq x, spread_eq y]
  ring

theorem weave_div_four (x y : ℕ) : weave x y / 4 = weave (x / 2) (y / 2) := by
  rw [weave_eq]
  omega

theorem weave_mod_four (x y : ℕ) : weave x y % 4 = x % 2 + 2 * (y % 2) := by
  rw [weave_eq]
  omega

theorem weave_div_two (x y : ℕ) : weave x y / 2 = weave y (x / 2) := by
  rw [weave, weave, spread_eq x]
  omega

/-! ## Bits -/

theorem testBit_weave (x y i : ℕ) :
    (weave x y).testBit (2 * i) = x.testBit i ∧ (weave x y).testBit (2 * i + 1) = y.testBit i := by
  induction i generalizing x y with
  | zero =>
    have hmod := weave_mod_four x y
    rw [Nat.mul_zero, Nat.zero_add, Nat.testBit_zero, Nat.testBit_succ, Nat.testBit_zero,
      Nat.testBit_zero, Nat.testBit_zero]
    exact ⟨decide_eq_decide.mpr (by omega), decide_eq_decide.mpr (by omega)⟩
  | succ i ih =>
    have hdiv : weave x y / 2 / 2 = weave (x / 2) (y / 2) := by
      rw [Nat.div_div_eq_div_mul, weave_div_four]
    have heven : 2 * (i + 1) = 2 * i + 1 + 1 := by omega
    rw [heven, Nat.testBit_succ, Nat.testBit_succ, Nat.testBit_succ (weave x y) (2 * i + 1 + 1),
      Nat.testBit_succ (weave x y / 2) (2 * i + 1), hdiv, Nat.testBit_succ x, Nat.testBit_succ y]
    exact ih (x / 2) (y / 2)

theorem eq_of_testBit_pair {m n : ℕ} (heven : ∀ i, m.testBit (2 * i) = n.testBit (2 * i))
    (hodd : ∀ i, m.testBit (2 * i + 1) = n.testBit (2 * i + 1)) : m = n := by
  refine Nat.eq_of_testBit_eq fun j => ?_
  rcases Nat.even_or_odd' j with ⟨i, hi | hi⟩
  · rw [hi]
    exact heven i
  · rw [hi]
    exact hodd i

theorem weave_inj (h : weave x y = weave a b) : x = a ∧ y = b := by
  constructor
  · refine Nat.eq_of_testBit_eq fun i => ?_
    rw [← (testBit_weave x y i).1, h, (testBit_weave a b i).1]
  · refine Nat.eq_of_testBit_eq fun i => ?_
    rw [← (testBit_weave x y i).2, h, (testBit_weave a b i).2]

theorem weave_and (x y a b : ℕ) : weave x y &&& weave a b = weave (x &&& a) (y &&& b) := by
  refine eq_of_testBit_pair (fun i => ?_) fun i => ?_
  · rw [Nat.testBit_and, (testBit_weave x y i).1, (testBit_weave a b i).1,
      (testBit_weave _ _ i).1, Nat.testBit_and]
  · rw [Nat.testBit_and, (testBit_weave x y i).2, (testBit_weave a b i).2,
      (testBit_weave _ _ i).2, Nat.testBit_and]

theorem weave_or (x y a b : ℕ) : weave x y ||| weave a b = weave (x ||| a) (y ||| b) := by
  refine eq_of_testBit_pair (fun i => ?_) fun i => ?_
  · rw [Nat.testBit_or, (testBit_weave x y i).1, (testBit_weave a b i).1,
      (testBit_weave _ _ i).1, Nat.testBit_or]
  · rw [Nat.testBit_or, (testBit_weave x y i).2, (testBit_weave a b i).2,
      (testBit_weave _ _ i).2, Nat.testBit_or]

theorem spread_or (x y : ℕ) : spread (x ||| y) = spread x ||| spread y := by
  have h := weave_or x 0 y 0
  rw [Nat.or_zero, weave_zero_right, weave_zero_right, weave_zero_right] at h
  exact h.symm

theorem weave_eq_or (x y : ℕ) : weave x y = spread x ||| 2 * spread y := by
  have h := weave_or x 0 0 y
  rw [Nat.or_zero, Nat.zero_or, weave_zero_right, weave_zero_left] at h
  exact h.symm

theorem exists_weave (n : ℕ) : ∃ x y, weave x y = n := by
  induction n using Nat.strong_induction_on with
  | _ n ih =>
    by_cases hn : n = 0
    · exact ⟨0, 0, by rw [weave_zero_right, spread_zero, hn]⟩
    · obtain ⟨x, y, hxy⟩ := ih (n / 4) (by omega)
      refine ⟨2 * x + n % 2, 2 * y + n / 2 % 2, ?_⟩
      rw [weave_eq, Nat.mul_add_mod, Nat.mul_add_mod, Nat.mul_add_div two_pos,
        Nat.mul_add_div two_pos, Nat.mod_mod, Nat.mod_mod, Nat.div_eq_of_lt (Nat.mod_lt n two_pos),
        Nat.div_eq_of_lt (Nat.mod_lt (n / 2) two_pos), add_zero, add_zero, hxy]
      omega

/-! ## Size -/

theorem weave_div (x y k : ℕ) : weave x y / 4 ^ k = weave (x / 2 ^ k) (y / 2 ^ k) := by
  induction k generalizing x y with
  | zero => simp
  | succ k ih =>
    rw [pow_succ', pow_succ', ← Nat.div_div_eq_div_mul, ← Nat.div_div_eq_div_mul,
      ← Nat.div_div_eq_div_mul, weave_div_four, ih]

theorem weave_lt_iff : weave x y < 4 ^ k ↔ x < 2 ^ k ∧ y < 2 ^ k := by
  rw [← Nat.div_eq_zero_iff_lt (Nat.pow_pos four_pos),
    ← Nat.div_eq_zero_iff_lt (Nat.two_pow_pos k), ← Nat.div_eq_zero_iff_lt (Nat.two_pow_pos k),
    weave_div]
  constructor
  · intro h
    have hzero : weave (x / 2 ^ k) (y / 2 ^ k) = weave 0 0 := by
      rw [h, weave_zero_right, spread_zero]
    exact weave_inj hzero
  · intro h
    rw [h.1, h.2, weave_zero_right, spread_zero]

def evenMask (k : ℕ) : ℕ := spread (2 ^ k - 1)

theorem evenMask_succ (k : ℕ) : evenMask (k + 1) = 1 + 4 * evenMask k := by
  have hpos := Nat.two_pow_pos k
  have hmod : (2 ^ (k + 1) - 1) % 2 = 1 := by omega
  have hdiv : (2 ^ (k + 1) - 1) / 2 = 2 ^ k - 1 := by omega
  rw [evenMask, spread_eq, hmod, hdiv, evenMask]

theorem evenMask_eq (k : ℕ) : 3 * evenMask k + 1 = 4 ^ k := by
  induction k with
  | zero => simp [evenMask]
  | succ k ih =>
    rw [evenMask_succ, pow_succ]
    omega

theorem spread_two_pow (i : ℕ) : spread (2 ^ i) = 4 ^ i := by
  induction i with
  | zero =>
    rw [spread_eq]
    simp
  | succ i ih =>
    have hmod : 2 ^ (i + 1) % 2 = 0 := by omega
    have hdiv : 2 ^ (i + 1) / 2 = 2 ^ i := by omega
    rw [spread_eq, hmod, hdiv, ih, zero_add, ← pow_succ']

theorem mod_and_of_lt {m : ℕ} (hm : m < 4 ^ k) : n % 4 ^ k &&& m = n &&& m := by
  have hpow : 4 ^ k = 2 ^ (2 * k) := by
    rw [pow_mul]
    norm_num
  rw [hpow] at hm ⊢
  refine Nat.eq_of_testBit_eq fun j => ?_
  rw [Nat.testBit_and, Nat.testBit_and, Nat.testBit_mod_two_pow]
  by_cases hj : j < 2 * k
  · rw [decide_eq_true hj, Bool.true_and]
  · rw [Nat.testBit_lt_two_pow (hm.trans_le (Nat.pow_le_pow_right two_pos (not_lt.mp hj))),
      Bool.and_false, Bool.and_false]

/-- The mask keeps the first number below `2 ^ k`, whatever lies above. -/
theorem add_and_evenMask (x y c k : ℕ) :
    (weave x y + 4 ^ k * c) &&& evenMask k = spread (x % 2 ^ k) := by
  have hmask : evenMask k < 4 ^ k := by
    have h := evenMask_eq k
    omega
  rw [← mod_and_of_lt hmask, Nat.add_mul_mod_self_left, mod_and_of_lt hmask, evenMask,
    ← weave_zero_right, weave_and, Nat.and_two_pow_sub_one_eq_mod, Nat.and_zero, weave_zero_right]

theorem add_and_oddMask (x y c k : ℕ) :
    (weave x y + 4 ^ k * c) &&& 2 * evenMask k = 2 * spread (y % 2 ^ k) := by
  have hmask : 2 * evenMask k < 4 ^ k := by
    have h := evenMask_eq k
    omega
  rw [← mod_and_of_lt hmask, Nat.add_mul_mod_self_left, mod_and_of_lt hmask, evenMask,
    ← weave_zero_left, weave_and, Nat.and_two_pow_sub_one_eq_mod, Nat.and_zero, weave_zero_left]

/-! ## Carries -/

theorem weave_bit (x y : ℕ) {r s : ℕ} (hr : r < 2) (hs : s < 2) :
    weave (2 * x + r) (2 * y + s) = r + 2 * s + 4 * weave x y := by
  rw [weave_eq]
  have h₁ : (2 * x + r) % 2 = r ∧ (2 * x + r) / 2 = x := by omega
  have h₂ : (2 * y + s) % 2 = s ∧ (2 * y + s) / 2 = y := by omega
  rw [h₁.1, h₁.2, h₂.1, h₂.2]

theorem spread_bit (x : ℕ) {r : ℕ} (hr : r < 2) : spread (2 * x + r) = r + 4 * spread x := by
  simpa [weave_zero_right] using weave_bit x 0 hr two_pos

theorem spread_add_carry (ha : a < 2 ^ k) :
    ∃ g, spread a + (2 * evenMask k + 1) = weave (a + 1) g := by
  induction k generalizing a with
  | zero =>
    have hzero : a = 0 := by omega
    refine ⟨0, ?_⟩
    rw [hzero, weave_zero_right, spread_zero, spread_eq]
    simp [evenMask]
  | succ k ih =>
    rw [evenMask_succ]
    rcases Nat.even_or_odd' a with ⟨q, rfl | rfl⟩
    · refine ⟨2 * (2 ^ k - 1) + 1, ?_⟩
      have hq := spread_bit q two_pos
      rw [add_zero] at hq
      rw [weave_bit q (2 ^ k - 1) one_lt_two one_lt_two, hq, weave, evenMask]
      ring
    · obtain ⟨g, hg⟩ := @ih q (by omega)
      refine ⟨2 * g, ?_⟩
      have hbit := weave_bit (q + 1) g two_pos two_pos
      rw [add_zero, add_zero] at hbit
      rw [show 2 * q + 1 + 1 = 2 * (q + 1) by ring, hbit, ← hg, spread_bit q one_lt_two]
      ring

theorem two_mul_spread_add_carry (hb : b + 1 < 2 ^ k) :
    ∃ g, 2 * spread b + (evenMask k + 1) = weave g (b + 1) := by
  induction k generalizing b with
  | zero => omega
  | succ k ih =>
    rw [evenMask_succ]
    rcases Nat.even_or_odd' b with ⟨q, rfl | rfl⟩
    · refine ⟨2 * (2 ^ k - 1), ?_⟩
      have hq := spread_bit q two_pos
      have hbit := weave_bit (2 ^ k - 1) q two_pos one_lt_two
      rw [add_zero] at hq hbit
      rw [hbit, hq, weave, evenMask]
      ring
    · obtain ⟨g, hg⟩ := @ih q (by omega)
      refine ⟨2 * g, ?_⟩
      have hbit := weave_bit g (q + 1) two_pos two_pos
      rw [add_zero, add_zero] at hbit
      rw [show 2 * q + 1 + 1 = 2 * (q + 1) by ring, hbit, ← hg, spread_bit q one_lt_two]
      ring

theorem le_spread (n : ℕ) : n ≤ spread n := by
  induction n using Nat.strong_induction_on with
  | _ n ih =>
    rw [spread_eq]
    rcases Nat.eq_zero_or_pos n with rfl | hn
    · exact Nat.zero_le _
    · have hle := ih (n / 2) (by omega)
      omega

theorem spread_sub_one (ha : 0 < a) : ∃ g, spread a - 1 = weave (a - 1) g := by
  induction a using Nat.strong_induction_on with
  | _ a ih =>
    rcases Nat.even_or_odd' a with ⟨q, rfl | rfl⟩
    · obtain ⟨g, hg⟩ := ih q (by omega) (by omega)
      have hle := le_spread q
      have hq := spread_bit q two_pos
      rw [add_zero] at hq
      refine ⟨2 * g + 1, ?_⟩
      rw [show 2 * q - 1 = 2 * (q - 1) + 1 by omega, weave_bit _ _ one_lt_two one_lt_two, ← hg, hq]
      omega
    · have hq := spread_bit q two_pos
      rw [add_zero] at hq
      refine ⟨0, ?_⟩
      rw [spread_bit q one_lt_two, show 2 * q + 1 - 1 = 2 * q by omega, weave_zero_right, hq]
      omega

theorem two_mul_spread_sub_one (hb : 0 < b) : ∃ g, 2 * spread b - 1 = weave g (b - 1) := by
  induction b using Nat.strong_induction_on with
  | _ b ih =>
    rcases Nat.even_or_odd' b with ⟨q, rfl | rfl⟩
    · obtain ⟨g, hg⟩ := ih q (by omega) (by omega)
      have hle := le_spread q
      have hq := spread_bit q two_pos
      rw [add_zero] at hq
      refine ⟨2 * g + 1, ?_⟩
      rw [show 2 * q - 1 = 2 * (q - 1) + 1 by omega, weave_bit _ _ one_lt_two one_lt_two, ← hg, hq]
      omega
    · have hbit := weave_bit 0 q one_lt_two two_pos
      refine ⟨1, ?_⟩
      rw [add_zero] at hbit
      rw [show 2 * q + 1 - 1 = 2 * q by omega, spread_bit q one_lt_two]
      rw [mul_zero, zero_add] at hbit
      rw [hbit, weave_zero_left]
      omega

def turned (k : ℕ) (up : Bool) (c : ℕ) : ℕ :=
  if up then (c + 1) % 2 ^ k else (c + (2 ^ k - 1)) % 2 ^ k

theorem turned_lt (k : ℕ) (up : Bool) (c : ℕ) : turned k up c < 2 ^ k := by
  have hpos := Nat.two_pow_pos k
  rw [turned]
  split_ifs
  · exact Nat.mod_lt _ hpos
  · exact Nat.mod_lt _ hpos

theorem turned_down_of_pos (ha : a < 2 ^ k) (hpos : 0 < a) : turned k false a = a - 1 := by
  have hsum : a + (2 ^ k - 1) = a - 1 + 2 ^ k := by omega
  rw [turned, if_neg Bool.false_ne_true, hsum, Nat.add_mod_right, Nat.mod_eq_of_lt (by omega)]

theorem turned_down_zero (k : ℕ) : turned k false 0 = 2 ^ k - 1 := by
  have hpos := Nat.two_pow_pos k
  rw [turned, if_neg Bool.false_ne_true, zero_add, Nat.mod_eq_of_lt (by omega)]

theorem and_evenMask_up (ha : a < 2 ^ k) :
    (spread a + (2 * evenMask k + 1)) &&& evenMask k = spread (turned k true a) := by
  obtain ⟨g, hg⟩ := spread_add_carry ha
  have hmask := add_and_evenMask (a + 1) g 0 k
  rw [mul_zero, add_zero] at hmask
  rw [hg, hmask, turned, if_pos rfl]

theorem and_oddMask_up (hb : b < 2 ^ k) :
    (2 * spread b + (evenMask k + 1)) &&& 2 * evenMask k = 2 * spread (turned k true b) := by
  rw [turned, if_pos rfl]
  by_cases htop : b + 1 < 2 ^ k
  · obtain ⟨g, hg⟩ := two_mul_spread_add_carry htop
    have hmask := add_and_oddMask g (b + 1) 0 k
    rw [mul_zero, add_zero] at hmask
    rw [hg, hmask]
  · have hlast : b = 2 ^ k - 1 := by omega
    have hfull := evenMask_eq k
    have hsum : 2 * spread b + (evenMask k + 1) = weave 0 0 + 4 ^ k * 1 := by
      rw [hlast, ← evenMask, weave_zero_right, spread_zero]
      omega
    have hround : b + 1 = 2 ^ k := by omega
    rw [hsum, add_and_oddMask, hround, Nat.mod_self, Nat.zero_mod]

theorem two_pow_sub_one_mod (hn : k ≤ n) : (2 ^ n - 1) % 2 ^ k = 2 ^ k - 1 := by
  have hpos := Nat.two_pow_pos k
  have hpos' := Nat.two_pow_pos (n - k)
  have hsplit : 2 ^ n - 1 = 2 ^ k - 1 + 2 ^ k * (2 ^ (n - k) - 1) := by
    have hpow : 2 ^ n = 2 ^ k * 2 ^ (n - k) := by rw [← pow_add, Nat.add_sub_cancel' hn]
    rw [Nat.mul_sub, mul_one, ← hpow]
    have hle : 2 ^ k ≤ 2 ^ n := Nat.pow_le_pow_right two_pos hn
    omega
  rw [hsplit, Nat.add_mul_mod_self_left, Nat.mod_eq_of_lt (by omega)]

theorem pow_sub_one_eq_weave (n : ℕ) : 4 ^ n - 1 = weave (2 ^ n - 1) (2 ^ n - 1) := by
  have h := evenMask_eq n
  rw [weave, ← evenMask]
  omega

theorem and_evenMask_down (ha : a < 2 ^ k) (hn : k ≤ n) :
    (4 ^ n - (2 * evenMask k + 1) + (spread a + 2 * evenMask k)) % 4 ^ n &&& evenMask k =
      spread (turned k false a) := by
  have hfull := evenMask_eq k
  have hle : 4 ^ k ≤ 4 ^ n := Nat.pow_le_pow_right four_pos hn
  rcases Nat.eq_zero_or_pos a with rfl | hpos
  · have hsum : 4 ^ n - (2 * evenMask k + 1) + (spread 0 + 2 * evenMask k) = 4 ^ n - 1 := by
      rw [spread_zero]
      omega
    have hmask := add_and_evenMask (2 ^ n - 1) (2 ^ n - 1) 0 k
    rw [mul_zero, add_zero, two_pow_sub_one_mod hn] at hmask
    rw [hsum, Nat.mod_eq_of_lt (by omega), pow_sub_one_eq_weave, hmask, turned_down_zero]
  · obtain ⟨g, hg⟩ := spread_sub_one hpos
    have hlt : spread a < 4 ^ k := by
      rw [← weave_zero_right]
      exact weave_lt_iff.mpr ⟨ha, Nat.two_pow_pos k⟩
    have hle' := le_spread a
    have hsum : 4 ^ n - (2 * evenMask k + 1) + (spread a + 2 * evenMask k) =
        spread a - 1 + 4 ^ n := by omega
    have hmask := add_and_evenMask (a - 1) g 0 k
    rw [mul_zero, add_zero, Nat.mod_eq_of_lt (by omega)] at hmask
    rw [hsum, Nat.add_mod_right, Nat.mod_eq_of_lt (by omega), hg, hmask, turned_down_of_pos ha hpos]

theorem and_oddMask_down (hb : b < 2 ^ k) (hn : k ≤ n) :
    (4 ^ n - (evenMask k + 1) + (2 * spread b + evenMask k)) % 4 ^ n &&& 2 * evenMask k =
      2 * spread (turned k false b) := by
  have hfull := evenMask_eq k
  have hle : 4 ^ k ≤ 4 ^ n := Nat.pow_le_pow_right four_pos hn
  rcases Nat.eq_zero_or_pos b with rfl | hpos
  · have hsum : 4 ^ n - (evenMask k + 1) + (2 * spread 0 + evenMask k) = 4 ^ n - 1 := by
      rw [spread_zero]
      omega
    have hmask := add_and_oddMask (2 ^ n - 1) (2 ^ n - 1) 0 k
    rw [mul_zero, add_zero, two_pow_sub_one_mod hn] at hmask
    rw [hsum, Nat.mod_eq_of_lt (by omega), pow_sub_one_eq_weave, hmask, turned_down_zero]
  · obtain ⟨g, hg⟩ := two_mul_spread_sub_one hpos
    have hlt : 2 * spread b < 4 ^ k := by
      rw [← weave_zero_left]
      exact weave_lt_iff.mpr ⟨Nat.two_pow_pos k, hb⟩
    have hle' := le_spread b
    have hsum : 4 ^ n - (evenMask k + 1) + (2 * spread b + evenMask k) =
        2 * spread b - 1 + 4 ^ n := by omega
    have hmask := add_and_oddMask g (b - 1) 0 k
    rw [mul_zero, add_zero, Nat.mod_eq_of_lt (by omega)] at hmask
    rw [hsum, Nat.add_mod_right, Nat.mod_eq_of_lt (by omega), hg, hmask, turned_down_of_pos hb hpos]

end

/-! ## Functions of single bits -/

/-- Functions that carry the union of bits to the union of values are known by their values at
the powers of two. -/
theorem eq_of_or_hom {f g : ℕ → ℕ} (hf : ∀ a b, f (a ||| b) = f a ||| f b)
    (hg : ∀ a b, g (a ||| b) = g a ||| g b) (hzero : f 0 = g 0) {n : ℕ}
    (hpow : ∀ i < n, f (2 ^ i) = g (2 ^ i)) {x : ℕ} (hx : x < 2 ^ n) : f x = g x := by
  induction n generalizing x with
  | zero =>
    have hx0 : x = 0 := by omega
    rw [hx0, hzero]
  | succ n ih =>
    have hlow := ih (fun i hi => hpow i (by omega)) (Nat.mod_lt x (Nat.two_pow_pos n))
    by_cases htop : x < 2 ^ n
    · exact ih (fun i hi => hpow i (by omega)) htop
    · have hdiv : x / 2 ^ n = 1 := by
        refine Nat.div_eq_of_lt_le ?_ ?_
        · omega
        · rw [pow_succ] at hx
          omega
      have hsplit : x = 2 ^ n ||| x % 2 ^ n := by
        have heq := Nat.two_pow_add_eq_or_of_lt (Nat.mod_lt x (Nat.two_pow_pos n)) 1
        have hmod := Nat.div_add_mod x (2 ^ n)
        rw [hdiv] at hmod
        rw [mul_one] at heq hmod
        rw [← heq, hmod]
      rw [hsplit, hf, hg, hlow, hpow n (Nat.lt_succ_self n)]

/-! ## Positions on a grid -/

section

variable {K : Type*} [Field K] [LinearOrder K] [IsStrictOrderedRing K] [FloorSemiring K]
variable {offset : K} {j k : ℕ}

def cellIndex (offset : K) (k : ℕ) : ℕ := ⌊offset * 2 ^ k⌋₊

theorem cellIndex_lt_iff (h : 0 ≤ offset) : cellIndex offset k < 2 ^ k ↔ offset < 1 := by
  have hpos : (0 : K) < 2 ^ k := pow_pos two_pos k
  rw [cellIndex, Nat.floor_lt (mul_nonneg h hpos.le), Nat.cast_pow, Nat.cast_ofNat,
    mul_lt_iff_lt_one_left hpos]

theorem cellIndex_one (k : ℕ) : cellIndex (1 : K) k = 2 ^ k := by
  have hcast : (2 : K) ^ k = ((2 ^ k : ℕ) : K) := by
    rw [Nat.cast_pow, Nat.cast_ofNat]
  rw [cellIndex, one_mul, hcast, Nat.floor_natCast]

theorem cellIndex_le (h : 0 ≤ offset) : (cellIndex offset k : K) / 2 ^ k ≤ offset := by
  have hpos : (0 : K) < 2 ^ k := pow_pos two_pos k
  rw [div_le_iff₀ hpos]
  exact Nat.floor_le (mul_nonneg h hpos.le)

theorem lt_cellIndex (offset : K) (k : ℕ) : offset < (cellIndex offset k + 1 : K) / 2 ^ k := by
  have hpos : (0 : K) < 2 ^ k := pow_pos two_pos k
  rw [lt_div_iff₀ hpos]
  exact Nat.lt_floor_add_one _

theorem cellIndex_div (offset : K) (k j : ℕ) :
    cellIndex offset (k + j) / 2 ^ j = cellIndex offset k := by
  have hpos : (0 : K) < 2 ^ j := pow_pos two_pos j
  rw [cellIndex, ← Nat.floor_div_natCast, Nat.cast_pow, Nat.cast_ofNat, pow_add, ← mul_assoc,
    mul_div_cancel_right₀ _ hpos.ne', cellIndex]

end
