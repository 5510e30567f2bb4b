import Mathlib.Data.List.Lex
import Mathlib.Data.List.Infix
import Mathlib.Order.Defs.LinearOrder
import Mathlib.Tactic

/-!
# Byte strings in lexicographic order

Byte strings are lists of bytes under the lexicographic order. The strings that
extend a given prefix form an interval, an encoding is delimited when it can be
read back from the front of any longer string, and a fixed-width big-endian
encoding is delimited and monotone.
-/

abbrev Bytes := List UInt8

instance UInt8.linearOrder : LinearOrder UInt8 where
  le_refl a := UInt8.le_refl a
  le_trans _ _ _ := UInt8.le_trans
  lt_iff_le_not_ge a b := by
    simp only [UInt8.lt_iff_toNat_lt, UInt8.le_iff_toNat_le]
    omega
  le_antisymm _ _ := UInt8.le_antisymm
  le_total := UInt8.le_total
  toDecidableLE := inferInstance
  toDecidableEq := inferInstance
  toDecidableLT := inferInstance

instance UInt16.linearOrder : LinearOrder UInt16 where
  le_refl a := UInt16.le_refl a
  le_trans _ _ _ := UInt16.le_trans
  lt_iff_le_not_ge a b := by
    simp only [UInt16.lt_iff_toNat_lt, UInt16.le_iff_toNat_le]
    omega
  le_antisymm _ _ := UInt16.le_antisymm
  le_total := UInt16.le_total
  toDecidableLE := inferInstance
  toDecidableEq := inferInstance
  toDecidableLT := inferInstance

instance UInt64.linearOrder : LinearOrder UInt64 where
  le_refl a := UInt64.le_refl a
  le_trans _ _ _ := UInt64.le_trans
  lt_iff_le_not_ge a b := by
    simp only [UInt64.lt_iff_toNat_lt, UInt64.le_iff_toNat_le]
    omega
  le_antisymm _ _ := UInt64.le_antisymm
  le_total := UInt64.le_total
  toDecidableLE := inferInstance
  toDecidableEq := inferInstance
  toDecidableLT := inferInstance

namespace Bytes

theorem le_append (p s : Bytes) : p ≤ p ++ s := by
  cases s with
  | nil => simp
  | cons x xs =>
    have h : p ++ [] < p ++ x :: xs := List.append_left_lt (List.nil_lt_cons x xs)
    rw [List.append_nil] at h
    exact h.le

theorem append_lt_append_iff {p a b : Bytes} : p ++ a < p ++ b ↔ a < b := by
  induction p with
  | nil => simp
  | cons x xs ih => simpa [List.cons_lt_cons_iff] using ih

theorem append_le_append_iff {p a b : Bytes} : p ++ a ≤ p ++ b ↔ a ≤ b := by
  rw [← not_lt, ← not_lt, append_lt_append_iff]

theorem le_of_prefix {p k : Bytes} (h : p <+: k) : p ≤ k := by
  obtain ⟨s, rfl⟩ := h
  exact le_append p s

theorem append_lt_append_of_lt {x y : Bytes} (h : x < y) (hp : ¬x <+: y) (s t : Bytes) :
    x ++ s < y ++ t := by
  induction x generalizing y with
  | nil => exact absurd List.nil_prefix hp
  | cons a as ih =>
    cases y with
    | nil => exact absurd h (by simp)
    | cons b bs =>
      rw [List.cons_append, List.cons_append, List.cons_lt_cons_iff]
      rcases List.cons_lt_cons_iff.mp h with hlt | ⟨rfl, hlt⟩
      · exact Or.inl hlt
      · exact Or.inr ⟨rfl, ih hlt fun hq => hp (List.cons_prefix_cons.mpr ⟨rfl, hq⟩)⟩

theorem prefix_of_between {p a b c : Bytes} (ha : p <+: a) (hc : p <+: c) (hab : a ≤ b)
    (hbc : b ≤ c) : p <+: b := by
  induction p generalizing a b c with
  | nil => exact List.nil_prefix
  | cons x xs ih =>
    obtain ⟨s, rfl⟩ := ha
    obtain ⟨t, rfl⟩ := hc
    cases b with
    | nil => exact absurd hab (by simp)
    | cons y ys =>
      rw [← not_lt, List.cons_append, List.cons_lt_cons_iff] at hab hbc
      obtain rfl : x = y := by
        by_contra hne
        rcases lt_or_gt_of_ne hne with hlt | hlt
        · exact hbc (Or.inl hlt)
        · exact hab (Or.inl hlt)
      simp only [lt_self_iff_false, true_and, false_or, not_lt] at hab hbc
      exact List.cons_prefix_cons.mpr
        ⟨rfl, ih (List.prefix_append xs s) (List.prefix_append xs t) hab hbc⟩

end Bytes

/-! ## Delimited encodings -/

section Delimited
variable {α β γ : Type*}

def Delimited (enc : α → List γ) : Prop :=
  ∀ ⦃a b : α⦄ ⦃s t : List γ⦄, enc a ++ s = enc b ++ t → a = b ∧ s = t

namespace Delimited

theorem injective {enc : α → List γ} (h : Delimited enc) : Function.Injective enc := by
  intro a b hab
  exact (h (s := []) (t := []) (by rw [hab])).1

theorem eq_of_prefix {enc : α → List γ} (h : Delimited enc) {a b : α} {s : List γ}
    (hp : enc a <+: enc b ++ s) : a = b := by
  obtain ⟨t, ht⟩ := hp
  exact (h ht).1

theorem pair {f : α → List γ} {g : β → List γ} (hf : Delimited f) (hg : Delimited g) :
    Delimited fun x : α × β => f x.1 ++ g x.2 := by
  rintro ⟨a, b⟩ ⟨c, d⟩ s t he
  obtain ⟨hac, hrest⟩ := hf (by simpa using he)
  obtain ⟨hbd, hst⟩ := hg hrest
  exact ⟨Prod.ext hac hbd, hst⟩

theorem of_length {f : α → List γ} (hinj : Function.Injective f)
    (hlen : ∀ a b, (f a).length = (f b).length) : Delimited f := by
  intro a b s t he
  obtain ⟨hf, hst⟩ := List.append_inj he (hlen a b)
  exact ⟨hinj hf, hst⟩

theorem of_comp {f : β → List γ} (hf : Delimited f) {g : α → β} (hg : Function.Injective g) :
    Delimited fun a => f (g a) := by
  intro a b s t he
  obtain ⟨hab, hst⟩ := hf he
  exact ⟨hg hab, hst⟩

theorem cons_left {f : α → List γ} (hf : Delimited f) (c : γ) : Delimited fun a => c :: f a := by
  intro a b s t he
  simp only [List.cons_append, List.cons.injEq, true_and] at he
  exact hf he

end Delimited
end Delimited

/-! ## Big-endian numbers -/

def beBytes : ℕ → ℕ → Bytes
  | 0, _ => []
  | w + 1, n => UInt8.ofNat (n / 256 ^ w) :: beBytes w n

def beNat : Bytes → ℕ
  | [] => 0
  | b :: bs => b.toNat * 256 ^ bs.length + beNat bs

@[simp] theorem beBytes_length (w n : ℕ) : (beBytes w n).length = w := by
  induction w with
  | zero => rfl
  | succ w ih => simp [beBytes, ih]

theorem beNat_lt (bs : Bytes) : beNat bs < 256 ^ bs.length := by
  induction bs with
  | nil => simp [beNat]
  | cons b bs ih =>
    have hb : b.toNat ≤ 255 := Nat.le_of_lt_succ b.toNat_lt
    have hmul : b.toNat * 256 ^ bs.length ≤ 255 * 256 ^ bs.length := Nat.mul_le_mul_right _ hb
    simp only [beNat, List.length_cons, pow_succ]
    omega

theorem beNat_beBytes_mod (w n : ℕ) : beNat (beBytes w n) = n % 256 ^ w := by
  induction w with
  | zero => simp [beBytes, beNat, Nat.mod_one]
  | succ w ih =>
    have hdigit : (UInt8.ofNat (n / 256 ^ w)).toNat = n / 256 ^ w % 256 := UInt8.toNat_ofNat'
    simp only [beBytes, beNat, beBytes_length, hdigit, ih]
    rw [pow_succ, Nat.mod_mul, mul_comm (256 ^ w)]
    omega

theorem beNat_beBytes {w n : ℕ} (h : n < 256 ^ w) : beNat (beBytes w n) = n := by
  rw [beNat_beBytes_mod, Nat.mod_eq_of_lt h]

theorem beBytes_add_mul (w n k : ℕ) : beBytes w (n + 256 ^ w * k) = beBytes w n := by
  induction w generalizing k with
  | zero => rfl
  | succ w ih =>
    have hpow : 256 ^ (w + 1) * k = 256 ^ w * (256 * k) := by ring
    have hhead : (n + 256 ^ w * (256 * k)) / 256 ^ w = n / 256 ^ w + 256 * k :=
      Nat.add_mul_div_left _ _ (Nat.pow_pos (by omega))
    rw [hpow, beBytes, beBytes, ih (256 * k), hhead]
    congr 1
    apply UInt8.toNat.inj
    simp

theorem beBytes_beNat (bs : Bytes) : beBytes bs.length (beNat bs) = bs := by
  induction bs with
  | nil => rfl
  | cons b bs ih =>
    have hdiv : (b.toNat * 256 ^ bs.length + beNat bs) / 256 ^ bs.length = b.toNat := by
      rw [mul_comm, Nat.mul_add_div (Nat.pow_pos (by omega)), Nat.div_eq_of_lt (beNat_lt bs)]
      omega
    simp only [List.length_cons, beBytes, beNat, hdiv]
    rw [add_comm, mul_comm, beBytes_add_mul, ih]
    simp

theorem beBytes_lt_of_div_le {w m n : ℕ} (hmn : m < n) (hdiv : n / 256 ^ w ≤ m / 256 ^ w) :
    beBytes w m < beBytes w n := by
  induction w generalizing m n with
  | zero =>
    simp only [pow_zero, Nat.div_one] at hdiv
    omega
  | succ w ih =>
    rw [beBytes, beBytes, List.cons_lt_cons_iff]
    have hle : m / 256 ^ w ≤ n / 256 ^ w := Nat.div_le_div_right hmn.le
    have hhigh : n / 256 ^ w / 256 ≤ m / 256 ^ w / 256 := by
      rwa [Nat.div_div_eq_div_mul, Nat.div_div_eq_div_mul, ← pow_succ]
    rcases hle.lt_or_eq with hlt | heq
    · left
      rw [UInt8.lt_iff_toNat_lt, UInt8.toNat_ofNat', UInt8.toNat_ofNat']
      omega
    · exact Or.inr ⟨by rw [heq], ih hmn heq.ge⟩

theorem beBytes_lt {w m n : ℕ} (hmn : m < n) (hn : n < 256 ^ w) : beBytes w m < beBytes w n :=
  beBytes_lt_of_div_le hmn (by simp [Nat.div_eq_of_lt hn])

theorem beBytes_lt_iff {w m n : ℕ} (hm : m < 256 ^ w) (hn : n < 256 ^ w) :
    beBytes w m < beBytes w n ↔ m < n := by
  constructor
  · intro h
    rcases lt_trichotomy m n with hlt | heq | hgt
    · exact hlt
    · exact absurd h (by simp [heq])
    · exact absurd h (not_lt_of_gt (beBytes_lt hgt hm))
  · intro h
    exact beBytes_lt h hn

namespace UInt64

def toBeBytes (x : UInt64) : Bytes := beBytes 8 x.toNat

def fromBeBytes (bs : Bytes) : UInt64 := UInt64.ofNat (beNat bs)

@[simp] theorem toBeBytes_length (x : UInt64) : x.toBeBytes.length = 8 := by simp [toBeBytes]

theorem toNat_lt_pow (x : UInt64) : x.toNat < 256 ^ 8 := by
  have h := x.toNat_lt
  norm_num at h ⊢
  exact h

@[simp] theorem fromBeBytes_toBeBytes (x : UInt64) : fromBeBytes x.toBeBytes = x := by
  rw [fromBeBytes, toBeBytes, beNat_beBytes x.toNat_lt_pow]
  simp

theorem toBeBytes_fromBeBytes {bs : Bytes} (h : bs.length = 8) :
    (fromBeBytes bs).toBeBytes = bs := by
  have hlt : beNat bs < 2 ^ 64 := by
    have hb := beNat_lt bs
    rw [h] at hb
    norm_num at hb ⊢
    exact hb
  rw [toBeBytes, fromBeBytes, UInt64.toNat_ofNat_of_lt' hlt, ← h, beBytes_beNat]

theorem toBeBytes_injective : Function.Injective toBeBytes := by
  intro a b h
  rw [← fromBeBytes_toBeBytes a, h, fromBeBytes_toBeBytes]

theorem toBeBytes_lt_iff {a b : UInt64} : a.toBeBytes < b.toBeBytes ↔ a < b := by
  rw [toBeBytes, toBeBytes, beBytes_lt_iff a.toNat_lt_pow b.toNat_lt_pow, UInt64.lt_iff_toNat_lt]

end UInt64

namespace UInt16

def toBeBytes (x : UInt16) : Bytes := beBytes 2 x.toNat

@[simp] theorem toBeBytes_length (x : UInt16) : x.toBeBytes.length = 2 := by simp [toBeBytes]

theorem beNat_toBeBytes (x : UInt16) : beNat x.toBeBytes = x.toNat :=
  beNat_beBytes (lt_of_lt_of_le x.toNat_lt (by norm_num))

theorem toBeBytes_injective : Function.Injective toBeBytes := fun a b h =>
  UInt16.toNat_inj.mp (by rw [← beNat_toBeBytes a, h, beNat_toBeBytes])

end UInt16

namespace UInt32

def toBeBytes (x : UInt32) : Bytes := beBytes 4 x.toNat

@[simp] theorem toBeBytes_length (x : UInt32) : x.toBeBytes.length = 4 := by simp [toBeBytes]

theorem beNat_toBeBytes (x : UInt32) : beNat x.toBeBytes = x.toNat :=
  beNat_beBytes (lt_of_lt_of_le x.toNat_lt (by norm_num))

theorem toBeBytes_injective : Function.Injective toBeBytes := fun a b h =>
  UInt32.toNat_inj.mp (by rw [← beNat_toBeBytes a, h, beNat_toBeBytes])

end UInt32
