import Mathlib.Algebra.BigOperators.Group.Finset.Basic
import Mathlib.Data.Finset.Prod
import Mathlib.Data.Multiset.Count
import Mathlib.Tactic

/-!
# Prints in paired buckets

Filters of buckets with slots, where an item has a home bucket in every filter
and may lie there or in the alternate bucket of its print. A table holds a
multiset of placed items when every symmetric weight counts the same in both.
Placing an item adds its weight; clearing a slot with an item's print removes
the item from the multiset, where a placed item that shares the slot's pair is
moved to the place of the one removed.
-/

set_option linter.unusedSectionVars false

namespace Buckets

variable {F β σ φ ι : Type} [LinearOrder F] [DecidableEq β] [DecidableEq σ] [DecidableEq φ]
  [DecidableEq ι]

section
variable (B : Finset β) (S : Finset σ)

def count (t : β → σ → φ) (Q : β → φ → Bool) : ℕ :=
  ((B ×ˢ S).filter fun p => Q p.1 (t p.1 p.2)).card

def set (t : β → σ → φ) (b : β) (s : σ) (v : φ) : β → σ → φ :=
  fun b' s' => if b' = b ∧ s' = s then v else t b' s'

variable {B S} {t : β → σ → φ} {Q : β → φ → Bool} {b : β} {s : σ} {v : φ}

@[simp] theorem set_self (t : β → σ → φ) (b : β) (s : σ) (v : φ) : set t b s v b s = v := by
  simp [set]

theorem set_of_ne {b' : β} {s' : σ} (h : ¬(b' = b ∧ s' = s)) : set t b s v b' s' = t b' s' :=
  if_neg h

theorem count_set (Q : β → φ → Bool) (v : φ) (hb : b ∈ B) (hs : s ∈ S) :
    count B S (set t b s v) Q + (Q b (t b s)).toNat = count B S t Q + (Q b v).toNat := by
  have hmem : (b, s) ∈ B ×ˢ S := Finset.mk_mem_product hb hs
  have hsplit : ∀ u : β → σ → φ, count B S u Q =
      (((B ×ˢ S).erase (b, s)).filter fun p => Q p.1 (u p.1 p.2)).card + (Q b (u b s)).toNat := by
    intro u
    rw [count, ← Finset.insert_erase hmem, Finset.filter_insert, Finset.erase_insert_eq_erase]
    cases hq : Q b (u b s) with
    | false => simp [hq]
    | true => simp [hq]
  have hrest : ((B ×ˢ S).erase (b, s)).filter (fun p => Q p.1 (set t b s v p.1 p.2)) =
      ((B ×ˢ S).erase (b, s)).filter fun p => Q p.1 (t p.1 p.2) := by
    refine Finset.filter_congr fun p hp => ?_
    rw [set_of_ne]
    rintro ⟨hp1, hp2⟩
    exact (Finset.mem_erase.mp hp).1 (Prod.ext hp1 hp2)
  rw [hsplit (set t b s v), hsplit t, hrest, set_self]
  omega

theorem exists_of_count_pos (h : 0 < count B S t Q) : ∃ b ∈ B, ∃ s ∈ S, Q b (t b s) = true := by
  obtain ⟨p, hp⟩ := Finset.card_pos.mp h
  rw [Finset.mem_filter, Finset.mem_product] at hp
  exact ⟨p.1, hp.1.1, p.2, hp.1.2, hp.2⟩

theorem count_le (t : β → σ → φ) (Q : β → φ → Bool) : count B S t Q ≤ B.card * S.card :=
  (Finset.card_filter_le _ _).trans_eq (Finset.card_product B S)

end

/-- Where the items of a family of filters may lie. -/
structure Geometry (F β φ ι : Type) [LinearOrder F] where
  ok : F → Prop
  buckets : F → Finset β
  home : F → ι → β
  alt : F → β → φ → β
  print : ι → φ
  home_mem : ∀ {f x}, ok f → home f x ∈ buckets f
  alt_mem : ∀ {f b} (v : φ), ok f → b ∈ buckets f → alt f b v ∈ buckets f
  alt_alt : ∀ {f b} (v : φ), ok f → b ∈ buckets f → alt f (alt f b v) v = b
  nested : ∀ {f g x y}, ok f → ok g → g ≤ f → print x = print y →
    (home f y = home f x ∨ home f y = alt f (home f x) (print x)) →
    home g y = home g x ∨ home g y = alt g (home g x) (print x)

namespace Geometry

variable (G : Geometry F β φ ι) (S : Finset σ) [Zero φ]

/-- The bucket is one of the item's two. -/
def Paired (f : F) (x : ι) (b : β) : Prop :=
  b = G.home f x ∨ b = G.alt f (G.home f x) (G.print x)

instance (f : F) (x : ι) (b : β) : Decidable (G.Paired f x b) :=
  inferInstanceAs (Decidable (_ ∨ _))

/-- A weight that ignores empty slots and which of the two buckets a print lies in. -/
structure Symmetric (f : F) (Q : β → φ → Bool) : Prop where
  zero : ∀ b, Q b 0 = false
  alt : ∀ b ∈ G.buckets f, ∀ v, Q (G.alt f b v) v = Q b v

def pairWeight (f : F) (x : ι) (b : β) (v : φ) : Bool :=
  decide (v = G.print x) && decide (G.Paired f x b)

/-- The table holds exactly the placed items. -/
def Held (t : F → β → σ → φ) (A : Multiset (F × ι)) : Prop :=
  ∀ f, G.ok f → ∀ Q, G.Symmetric f Q →
    count (G.buckets f) S (t f) Q = A.countP fun a => a.1 = f ∧ Q (G.home f a.2) (G.print a.2)

/-- One filter gains the weight of an item and the others stay. -/
structure Grows (f : F) (x : ι) (t t' : F → β → σ → φ) : Prop where
  others : ∀ g, g ≠ f → t' g = t g
  weight : ∀ Q, G.Symmetric f Q → count (G.buckets f) S (t' f) Q =
    count (G.buckets f) S (t f) Q + (Q (G.home f x) (G.print x)).toNat

variable {G S} {f g : F} {x y : ι} {b : β} {s : σ} {t t' : F → β → σ → φ} {A : Multiset (F × ι)}

theorem Paired.mem (h : G.Paired f x b) (hf : G.ok f) : b ∈ G.buckets f := by
  rcases h with rfl | rfl
  · exact G.home_mem hf
  · exact G.alt_mem _ hf (G.home_mem hf)

theorem Paired.alt (h : G.Paired f x b) (hf : G.ok f) : G.Paired f x (G.alt f b (G.print x)) := by
  rcases h with rfl | rfl
  · exact Or.inr rfl
  · exact Or.inl (G.alt_alt _ hf (G.home_mem hf))

theorem Symmetric.paired {Q : β → φ → Bool} (hQ : G.Symmetric f Q) (hf : G.ok f)
    (h : G.Paired f x b) : Q b (G.print x) = Q (G.home f x) (G.print x) := by
  rcases h with rfl | rfl
  · rfl
  · exact hQ.alt _ (G.home_mem hf) _

theorem symmetric_pairWeight (hf : G.ok f) (hx : G.print x ≠ 0) :
    G.Symmetric f (G.pairWeight f x) := by
  constructor
  · intro b
    simp [pairWeight, Ne.symm hx]
  · intro b hb v
    by_cases hv : v = G.print x
    · subst hv
      have hiff : G.Paired f x (G.alt f b (G.print x)) ↔ G.Paired f x b := by
        refine ⟨fun h => ?_, fun h => h.alt hf⟩
        simpa only [G.alt_alt _ hf hb] using h.alt hf
      simp [pairWeight, hiff]
    · simp [pairWeight, hv]

theorem pairWeight_home (f : F) (x : ι) : G.pairWeight f x (G.home f x) (G.print x) = true := by
  simp [pairWeight, Paired]

theorem symmetric_nonzero (f : F) : G.Symmetric f fun _ v => decide (v ≠ 0) :=
  ⟨fun _ => by simp, fun _ _ _ => rfl⟩

/-- Writing an item's print over an empty slot of its pair adds its weight. -/
theorem grows_set (hf : G.ok f) (hs : s ∈ S) (hb : G.Paired f x b) (hempty : t f b s = 0)
    (hothers : ∀ g, g ≠ f → t' g = t g) (ht : t' f = set (t f) b s (G.print x)) :
    G.Grows S f x t t' := by
  refine ⟨hothers, fun Q hQ => ?_⟩
  have hcount := count_set (t := t f) Q (G.print x) (hb.mem hf) hs
  rw [hempty, hQ.zero, hQ.paired hf hb] at hcount
  rw [ht]
  simpa using hcount

theorem Grows.held (h : G.Held S t A) (hg : G.Grows S f x t t') : G.Held S t' ((f, x) ::ₘ A) := by
  intro g hgok Q hQ
  rw [Multiset.countP_cons, ← h g hgok Q hQ]
  by_cases hgf : g = f
  · subst hgf
    rw [hg.weight Q hQ]
    cases Q (G.home g x) (G.print x) <;> simp
  · rw [hg.others g hgf, if_neg fun hc => hgf hc.1.symm, add_zero]

theorem Held.found (h : G.Held S t A) (hf : G.ok f) (hx : G.print x ≠ 0) (hmem : (f, x) ∈ A) :
    ∃ b, G.Paired f x b ∧ ∃ s ∈ S, t f b s = G.print x := by
  have hpos : 0 < count (G.buckets f) S (t f) (G.pairWeight f x) := by
    rw [h f hf _ (symmetric_pairWeight hf hx), Multiset.countP_pos]
    exact ⟨_, hmem, rfl, pairWeight_home f x⟩
  obtain ⟨b, -, s, hs, hq⟩ := exists_of_count_pos hpos
  simp only [pairWeight, Bool.and_eq_true, decide_eq_true_eq] at hq
  exact ⟨b, hq.2, s, hs, hq.1⟩

theorem Held.sum (h : G.Held S t A) {s : Finset F} (hs : ∀ f ∈ s, G.ok f)
    (hA : ∀ a ∈ A, a.1 ∈ s) {Q : F → β → φ → Bool} (hQ : ∀ f ∈ s, G.Symmetric f (Q f)) :
    ∑ f ∈ s, count (G.buckets f) S (t f) (Q f) =
      A.countP fun a => Q a.1 (G.home a.1 a.2) (G.print a.2) := by
  rw [Finset.sum_congr rfl fun f hf => h f (hs f hf) (Q f) (hQ f hf)]
  clear h
  induction A using Multiset.induction with
  | empty => simp
  | cons a A ih =>
    rw [Multiset.countP_cons, ← ih fun c hc => hA c (Multiset.mem_cons_of_mem hc)]
    simp only [Multiset.countP_cons, Finset.sum_add_distrib, add_right_inj]
    rw [Finset.sum_eq_single_of_mem a.1 (hA a (Multiset.mem_cons_self a A))]
    · simp
    · intro f _ hne
      rw [if_neg fun hc => hne hc.1.symm]

theorem Held.sum_nonzero (h : G.Held S t A) {s : Finset F} (hs : ∀ f ∈ s, G.ok f)
    (hA : ∀ a ∈ A, a.1 ∈ s) (hprint : ∀ x, G.print x ≠ 0) :
    ∑ f ∈ s, count (G.buckets f) S (t f) (fun _ v => decide (v ≠ 0)) = A.card := by
  rw [h.sum hs hA fun f _ => G.symmetric_nonzero f, Multiset.countP_eq_card]
  intro a _
  simpa using hprint a.2

theorem Held.count_le_sum (h : G.Held S t A) {s : Finset F} (hs : ∀ f ∈ s, G.ok f)
    (hA : ∀ a ∈ A, a.1 ∈ s) (hx : G.print x ≠ 0) :
    (A.map Prod.snd).count x ≤ ∑ f ∈ s, count (G.buckets f) S (t f) (G.pairWeight f x) := by
  rw [h.sum hs hA fun f hf => symmetric_pairWeight (hs f hf) hx, Multiset.count_map,
    ← Multiset.countP_eq_card_filter]
  clear h hA
  induction A using Multiset.induction with
  | empty => simp
  | cons a A ih =>
    rw [Multiset.countP_cons, Multiset.countP_cons]
    refine add_le_add ih ?_
    split_ifs with hax hw
    · exact le_rfl
    · rw [hax] at hw
      exact absurd (pairWeight_home a.1 a.2) hw
    · exact Nat.zero_le _
    · exact le_rfl

theorem weight_of_shared {Q : β → φ → Bool} (hQ : G.Symmetric f Q) (hf : G.ok f)
    (hprint : G.print x = G.print y) (hpair : G.Paired f x (G.home f y)) :
    Q (G.home f y) (G.print y) = Q (G.home f x) (G.print x) := by
  rw [← hprint]
  exact hQ.paired hf hpair

/-- Clearing a slot with the item's print in a filter no earlier than a place of
the item removes one place of it. -/
theorem Held.remove (h : G.Held S t A) (hA : ∀ a ∈ A, G.ok a.1) (hf : G.ok f)
    (hx : G.print x ≠ 0) (hmem : (g, x) ∈ A) (hgf : g ≤ f) (hs : s ∈ S) (hb : G.Paired f x b)
    (hhit : t f b s = G.print x) (hothers : ∀ k, k ≠ f → t' k = t k)
    (ht : t' f = set (t f) b s 0) :
    ∃ A', G.Held S t' A' ∧ A'.map Prod.snd = (A.map Prod.snd).erase x ∧
      ∀ a ∈ A', ∃ c ∈ A, a.1 = c.1 := by
  have hpair := symmetric_pairWeight hf hx
  have hcount : ∀ Q, G.Symmetric f Q → count (G.buckets f) S (t' f) Q +
      (Q (G.home f x) (G.print x)).toNat = count (G.buckets f) S (t f) Q := by
    intro Q hQ
    have hset := count_set (t := t f) Q 0 (hb.mem hf) hs
    rw [hhit, hQ.zero, hQ.paired hf hb, ← ht] at hset
    simpa using hset
  by_cases hself : (f, x) ∈ A
  · obtain ⟨R, rfl⟩ := Multiset.exists_cons_of_mem hself
    refine ⟨R, fun k hk Q hQ => ?_, by simp, fun a ha => ⟨a, Multiset.mem_cons_of_mem ha, rfl⟩⟩
    have hheld := h k hk Q hQ
    rw [Multiset.countP_cons] at hheld
    by_cases hkf : k = f
    · subst hkf
      have hk' := hcount Q hQ
      cases hq : Q (G.home k x) (G.print x) <;> simp [hq] at hheld hk' <;> omega
    · rw [hothers k hkf, hheld, if_neg fun hc => hkf hc.1.symm, add_zero]
  · have hpos : 0 < count (G.buckets f) S (t f) (G.pairWeight f x) := by
      have hk' := hcount _ hpair
      rw [pairWeight_home] at hk'
      simp only [Bool.toNat_true] at hk'
      omega
    rw [h f hf _ hpair, Multiset.countP_pos] at hpos
    obtain ⟨⟨f', y⟩, hy, rfl, hweight⟩ := hpos
    simp only [pairWeight, Bool.and_eq_true, decide_eq_true_eq] at hweight
    obtain ⟨hprint, hshared⟩ := hweight
    obtain ⟨R, rfl⟩ := Multiset.exists_cons_of_mem hy
    have hne : (g, x) ≠ (f', y) := fun hc => hself (hc ▸ hc ▸ hmem)
    have hgf' : g ≠ f' := by
      rintro rfl
      exact hself hmem
    have hmemR : (g, x) ∈ R := (Multiset.mem_cons.mp hmem).resolve_left hne
    obtain ⟨R, rfl⟩ := Multiset.exists_cons_of_mem hmemR
    refine ⟨(g, y) ::ₘ R, fun k hk Q hQ => ?_, ?_, fun a ha => ?_⟩
    · have hheld := h k hk Q hQ
      rw [Multiset.countP_cons, Multiset.countP_cons] at hheld
      rw [Multiset.countP_cons]
      by_cases hkf : k = f'
      · subst hkf
        have hk' := hcount Q hQ
        have hw := weight_of_shared hQ hk hprint.symm hshared
        rw [if_neg fun hc => hgf' hc.1] at hheld ⊢
        cases hq : Q (G.home k x) (G.print x) <;> simp [hq, hw] at hheld hk' ⊢ <;> omega
      · rw [hothers k hkf, hheld, if_neg fun hc : f' = k ∧ _ => hkf hc.1.symm, add_zero]
        by_cases hkg : k = g
        · subst hkg
          have hnested := G.nested hf hk hgf hprint.symm hshared
          rw [weight_of_shared hQ hk hprint.symm hnested]
        · rw [if_neg fun hc => hkg hc.1.symm, if_neg fun hc => hkg hc.1.symm]
    · simp only [Multiset.map_cons]
      by_cases hxy : y = x
      · subst hxy
        simp
      · rw [Multiset.erase_cons_tail _ (by simpa using hxy), Multiset.erase_cons_head]
    · rcases Multiset.mem_cons.mp ha with rfl | ha
      · exact ⟨(g, x), by simp, rfl⟩
      · exact ⟨a, by simp [ha], rfl⟩

theorem count_pairWeight (hf : G.ok f) (u : β → σ → φ) :
    count (G.buckets f) S u (G.pairWeight f x) =
      ∑ b ∈ {G.home f x, G.alt f (G.home f x) (G.print x)},
        (S.filter fun s => u b s = G.print x).card := by
  have hsub : {G.home f x, G.alt f (G.home f x) (G.print x)} ⊆ G.buckets f := by
    intro b hb
    rw [Finset.mem_insert, Finset.mem_singleton] at hb
    exact Paired.mem hb hf
  rw [count, Finset.card_filter, Finset.sum_product]
  refine Eq.trans (Finset.sum_subset hsub fun b _ hb => ?_).symm (Finset.sum_congr rfl fun b hb => ?_)
  · rw [Finset.mem_insert, Finset.mem_singleton] at hb
    have hpair : ¬G.Paired f x b := hb
    simp [pairWeight, hpair]
  · rw [Finset.mem_insert, Finset.mem_singleton] at hb
    have hpair : G.Paired f x b := hb
    rw [Finset.card_filter]
    simp [pairWeight, hpair]

end Geometry

end Buckets
