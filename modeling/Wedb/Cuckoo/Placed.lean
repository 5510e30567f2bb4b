import Wedb.Cuckoo.Kickout

/-!
# Items placed in a chain

A command looks at an item's two buckets in the sub-filters one after the other.
The pages hold a multiset of hashes placed in sub-filters: an insertion adds the
item's hash in some sub-filter, and a deletion removes one place of it, whoever's
print was cleared.
-/

namespace Wedb

open CuckooFilterHelper

namespace CuckooPageCache

variable {c : CuckooPageCache} {m : CuckooChainMeta} {pages pages' : CuckooPages} {f : UInt16}
  {nb : UInt32} {h : UInt64}

/-! ## The two buckets of an item -/

theorem geometry_home (hnb : m.subFilterNumBuckets f = .ok nb) :
    m.geometry.home f h = firstBucket h nb := by
  rw [← CuckooChainMeta.numBuckets_of_ok hnb]
  rfl

theorem geometry_alt (hnb : m.subFilterNumBuckets f = .ok nb) :
    m.geometry.alt f (m.geometry.home f h) (m.geometry.print h) =
      getAltBucketIndex (firstBucket h nb) (generateFingerprint h) nb := by
  rw [← CuckooChainMeta.numBuckets_of_ok hnb]
  rfl

theorem Paired.lt {b : UInt32} (hnb : m.subFilterNumBuckets f = .ok nb)
    (hb : m.geometry.Paired f h b) : b < nb := by
  have hmem := hb.mem ⟨nb, hnb⟩
  rw [← CuckooChainMeta.numBuckets_of_ok hnb]
  exact mem_bucketRange.mp hmem

theorem paired_iff (hnb : m.subFilterNumBuckets f = .ok nb) {b : UInt32} :
    m.geometry.Paired f h b ↔ b = firstBucket h nb ∨
      b = getAltBucketIndex (firstBucket h nb) (generateFingerprint h) nb := by
  rw [Buckets.Geometry.Paired, geometry_alt hnb, geometry_home hnb]

theorem onPair_spec {op : UInt32 → CuckooPages → Bool × CuckooPages} {P : CuckooPages → Prop}
    {Hit : UInt32 → CuckooPages → Prop} {Miss : UInt32 → Prop}
    (hnb : m.subFilterNumBuckets f = .ok nb)
    (hop : ∀ b pages, m.geometry.Paired f h b → P pages →
      (∃ pages', op b pages = (true, pages') ∧ Hit b pages') ∨
        ∃ pages', op b pages = (false, pages') ∧ P pages' ∧ Miss b) (hp : P pages) :
    (∃ b pages', m.geometry.Paired f h b ∧
      onPair nb op h (generateFingerprint h) pages = (true, pages') ∧ Hit b pages') ∨
    ∃ pages', onPair nb op h (generateFingerprint h) pages = (false, pages') ∧ P pages' ∧
      ∀ b, m.geometry.Paired f h b → Miss b := by
  have hb1 : m.geometry.Paired f h (firstBucket h nb) := (paired_iff hnb).mpr (Or.inl rfl)
  have hb2 : m.geometry.Paired f h
      (getAltBucketIndex (firstBucket h nb) (generateFingerprint h) nb) :=
    (paired_iff hnb).mpr (Or.inr rfl)
  unfold onPair
  dsimp only
  rcases hop _ pages hb1 hp with ⟨pages1, hrun, hhit⟩ | ⟨pages1, hrun, hp1, hmiss⟩
  · rw [hrun]
    exact Or.inl ⟨_, pages1, hb1, rfl, hhit⟩
  · rw [hrun]
    simp only [Bool.false_eq_true, if_false]
    by_cases hne : firstBucket h nb = getAltBucketIndex (firstBucket h nb) (generateFingerprint h) nb
    · rw [if_neg (not_not.mpr hne)]
      refine Or.inr ⟨pages1, rfl, hp1, fun b hb => ?_⟩
      rcases (paired_iff hnb).mp hb with rfl | rfl
      · exact hmiss
      · rw [← hne]
        exact hmiss
    · rw [if_pos hne]
      rcases hop _ pages1 hb2 hp1 with ⟨pages2, hrun2, hhit⟩ | ⟨pages2, hrun2, hp2, hmiss2⟩
      · exact Or.inl ⟨_, pages2, hb2, hrun2, hhit⟩
      · refine Or.inr ⟨pages2, hrun2, hp2, fun b hb => ?_⟩
        rcases (paired_iff hnb).mp hb with rfl | rfl
        · exact hmiss
        · exact hmiss2

section
variable (hc : c.Valid) (hst : c.StoredSized m.subFilterNumBuckets)
  (hs : c.Sound m.subFilterNumBuckets pages) (hnb : m.subFilterNumBuckets f = .ok nb)
include hc hst hs hnb

theorem insertPair_spec :
    (∃ pages', c.insertPair f nb h (generateFingerprint h) pages = (true, pages') ∧
      c.Sound m.subFilterNumBuckets pages' ∧
      m.geometry.Grows (Finset.range c.bucketSize.toNat) f h (c.table pages) (c.table pages')) ∨
    ∃ pages', c.insertPair f nb h (generateFingerprint h) pages = (false, pages') ∧
      c.Same m.subFilterNumBuckets pages pages' ∧
      ∀ b, m.geometry.Paired f h b → ∀ s < c.bucketSize.toNat, c.table pages f b s ≠ 0 := by
  have hop : ∀ b pages1, m.geometry.Paired f h b → c.Same m.subFilterNumBuckets pages pages1 →
      (∃ pages', c.tryInsertInBucket f nb b pages1 (generateFingerprint h) = (true, pages') ∧
        (c.Sound m.subFilterNumBuckets pages' ∧ m.geometry.Grows (Finset.range c.bucketSize.toNat)
          f h (c.table pages) (c.table pages'))) ∨
      ∃ pages', c.tryInsertInBucket f nb b pages1 (generateFingerprint h) = (false, pages') ∧
        c.Same m.subFilterNumBuckets pages pages' ∧
        ∀ s < c.bucketSize.toNat, c.table pages f b s ≠ 0 := by
    intro b pages1 hb hsame
    rcases insertInBucket_spec (generateFingerprint h) hc hst hsame.sound hnb
      (Paired.lt hnb hb) with ⟨pos, pages2, hrun, hempty, hw⟩ | ⟨pages2, hrun, hsame2, hfull⟩
    · refine Or.inl ⟨pages2, by rw [tryInsertInBucket, hrun]; rfl, hw.written.sound, ?_⟩
      rw [← hsame.table]
      exact Buckets.Geometry.grows_set ⟨nb, hnb⟩ (Finset.mem_range.mpr hw.pos_lt) hb hempty
        (fun g hg => hw.table_ne hg) (hw.table hc)
    · refine Or.inr ⟨pages2, by rw [tryInsertInBucket, hrun]; rfl, hsame.trans hsame2, ?_⟩
      rwa [hsame.table] at hfull
  rcases onPair_spec hnb hop (Same.refl hs) with ⟨b, pages', -, hrun, hhit⟩ | hmiss
  · exact Or.inl ⟨pages', hrun, hhit⟩
  · exact Or.inr hmiss

theorem containsPair_spec :
    (∃ pages', c.containsPair f nb h (generateFingerprint h) pages = (true, pages') ∧
      c.Same m.subFilterNumBuckets pages pages' ∧ ∃ b, m.geometry.Paired f h b ∧
        ∃ s < c.bucketSize.toNat, c.table pages f b s = generateFingerprint h) ∨
    ∃ pages', c.containsPair f nb h (generateFingerprint h) pages = (false, pages') ∧
      c.Same m.subFilterNumBuckets pages pages' ∧ ∀ b, m.geometry.Paired f h b →
        ∀ s < c.bucketSize.toNat, c.table pages f b s ≠ generateFingerprint h := by
  have hop : ∀ b pages1, m.geometry.Paired f h b → c.Same m.subFilterNumBuckets pages pages1 →
      (∃ pages', c.containsInBucket f nb b pages1 (generateFingerprint h) = (true, pages') ∧
        (c.Same m.subFilterNumBuckets pages pages' ∧
          ∃ s < c.bucketSize.toNat, c.table pages f b s = generateFingerprint h)) ∨
      ∃ pages', c.containsInBucket f nb b pages1 (generateFingerprint h) = (false, pages') ∧
        c.Same m.subFilterNumBuckets pages pages' ∧
        ∀ s < c.bucketSize.toNat, c.table pages f b s ≠ generateFingerprint h := by
    intro b pages1 hb hsame
    obtain ⟨hiff, hsame2⟩ := containsInBucket_spec hc hst hsame.sound hnb (Paired.lt hnb hb)
      (generateFingerprint_ne_zero h)
    rw [hsame.table] at hiff
    generalize c.containsInBucket f nb b pages1 (generateFingerprint h) = r at hiff hsame2
    obtain ⟨hit, pages2⟩ := r
    cases hit with
    | true => exact Or.inl ⟨pages2, rfl, hsame.trans hsame2, hiff.mp rfl⟩
    | false =>
      refine Or.inr ⟨pages2, rfl, hsame.trans hsame2, fun s hlt heq => ?_⟩
      exact absurd (hiff.mpr ⟨s, hlt, heq⟩) Bool.false_ne_true
  rcases onPair_spec hnb hop (Same.refl hs) with ⟨b, pages', hb, hrun, hsame, hs'⟩ | hmiss
  · exact Or.inl ⟨pages', hrun, hsame, b, hb, hs'⟩
  · exact Or.inr hmiss

theorem deletePair_spec :
    (∃ b pos pages', m.geometry.Paired f h b ∧
      c.deletePair f nb h (generateFingerprint h) pages = (true, pages') ∧
      c.table pages f b pos = generateFingerprint h ∧ pos < c.bucketSize.toNat ∧
      c.Sound m.subFilterNumBuckets pages' ∧ c.table pages' f = Buckets.set (c.table pages f) b pos 0 ∧
      ∀ g, g ≠ f → c.table pages' g = c.table pages g) ∨
    ∃ pages', c.deletePair f nb h (generateFingerprint h) pages = (false, pages') ∧
      c.Same m.subFilterNumBuckets pages pages' ∧ ∀ b, m.geometry.Paired f h b →
        ∀ s < c.bucketSize.toNat, c.table pages f b s ≠ generateFingerprint h := by
  have hop : ∀ b pages1, m.geometry.Paired f h b → c.Same m.subFilterNumBuckets pages pages1 →
      (∃ pages', c.deleteFromBucket f nb b pages1 (generateFingerprint h) = (true, pages') ∧
        ∃ pos pages1, c.Same m.subFilterNumBuckets pages pages1 ∧
          c.table pages f b pos = generateFingerprint h ∧
          c.SlotWritten m.subFilterNumBuckets pages1 pages' f b pos 0) ∨
      ∃ pages', c.deleteFromBucket f nb b pages1 (generateFingerprint h) = (false, pages') ∧
        c.Same m.subFilterNumBuckets pages pages' ∧
        ∀ s < c.bucketSize.toNat, c.table pages f b s ≠ generateFingerprint h := by
    intro b pages1 hb hsame
    rcases deleteFromBucket_spec hc hst hsame.sound hnb (Paired.lt hnb hb)
      (generateFingerprint_ne_zero h) with ⟨pos, pages2, hrun, hv, hw⟩ | ⟨pages2, hrun, hsame2, hne⟩
    · exact Or.inl ⟨pages2, hrun, pos, pages1, hsame, hsame.table ▸ hv, hw⟩
    · refine Or.inr ⟨pages2, hrun, hsame.trans hsame2, ?_⟩
      rwa [hsame.table] at hne
  rcases onPair_spec hnb hop (Same.refl hs) with
    ⟨b, pages', hb, hrun, pos, pages1, hsame, hv, hw⟩ | hmiss
  · refine Or.inl ⟨b, pos, pages', hb, hrun, hv, hw.pos_lt, hw.written.sound, ?_, fun g hg => ?_⟩
    · rw [hw.table hc, hsame.table]
    · rw [hw.table_ne hg, hsame.table]
  · exact Or.inr hmiss

theorem countPair_spec :
    (c.countPair f nb h (generateFingerprint h) pages).1 =
        Buckets.count (m.geometry.buckets f) (Finset.range c.bucketSize.toNat) (c.table pages f)
          (m.geometry.pairWeight f h) ∧
      c.Same m.subFilterNumBuckets pages
        (c.countPair f nb h (generateFingerprint h) pages).2 := by
  have hne := generateFingerprint_ne_zero h
  have hb1 : m.geometry.Paired f h (firstBucket h nb) := (paired_iff hnb).mpr (Or.inl rfl)
  have hb2 : m.geometry.Paired f h
      (getAltBucketIndex (firstBucket h nb) (generateFingerprint h) nb) :=
    (paired_iff hnb).mpr (Or.inr rfl)
  rw [Buckets.Geometry.count_pairWeight (show m.geometry.ok f from ⟨nb, hnb⟩), geometry_alt hnb,
    geometry_home hnb]
  obtain ⟨hn1, hsame1⟩ := countInBucket_spec hc hst hs hnb (Paired.lt hnb hb1) hne
  obtain ⟨hn2, hsame2⟩ := countInBucket_spec hc hst hsame1.sound hnb (Paired.lt hnb hb2) hne
  rw [hsame1.table] at hn2
  unfold countPair
  dsimp only
  by_cases heq : firstBucket h nb = getAltBucketIndex (firstBucket h nb) (generateFingerprint h) nb
  · rw [if_neg (not_not.mpr heq), ← heq, Finset.pair_eq_singleton, Finset.sum_singleton]
    exact ⟨hn1, hsame1⟩
  · rw [if_pos heq, Finset.sum_pair heq]
    refine ⟨?_, hsame1.trans hsame2⟩
    rw [hn1, hn2]
    rfl

end

end CuckooPageCache

/-! ## The sub-filters in turn -/

section
variable {m : CuckooChainMeta} {op : UInt16 → UInt32 → CuckooPages → Bool × CuckooPages}
  {pages : CuckooPages} {P : CuckooPages → Prop} {Hit : UInt16 → CuckooPages → Prop}
  {Miss : UInt16 → Prop}

/-- An operation that hits or misses in each sub-filter does so in the chain,
where it missed in every newer sub-filter than the one it hit in. -/
theorem anyFilter_spec {n : ℕ} (hn : n < 2 ^ 16)
    (hok : ∀ f : UInt16, f.toNat < n → ∃ nb, m.subFilterNumBuckets f = .ok nb)
    (hop : ∀ f nb pages, f.toNat < n → m.subFilterNumBuckets f = .ok nb → P pages →
      (∃ pages', op f nb pages = (true, pages') ∧ Hit f pages') ∨
        ∃ pages', op f nb pages = (false, pages') ∧ P pages' ∧ Miss f) (hp : P pages) :
    (∃ f pages', f.toNat < n ∧ anyFilter m op n pages = .ok (true, pages') ∧ Hit f pages' ∧
      ∀ g, f < g → g.toNat < n → Miss g) ∨
    ∃ pages', anyFilter m op n pages = .ok (false, pages') ∧ P pages' ∧
      ∀ g : UInt16, g.toNat < n → Miss g := by
  induction n generalizing pages with
  | zero => exact Or.inr ⟨pages, rfl, hp, fun g hg => absurd hg (Nat.not_lt_zero _)⟩
  | succ n ih =>
    have hnat : (UInt16.ofNat n).toNat = n := 
      UInt16.toNat_ofNat_of_lt' (show n < 2 ^ 16 by omega)
    have hlast : ∀ g : UInt16, g.toNat < n + 1 → ¬g.toNat < n → g = UInt16.ofNat n :=
      fun g hg hge => UInt16.toNat_inj.mp (by omega)
    obtain ⟨nb, hnb⟩ := hok (UInt16.ofNat n) (by omega)
    simp only [anyFilter, hnb, bind, Except.bind]
    rcases hop _ nb pages (by omega) hnb hp with ⟨pages1, hrun, hhit⟩ | ⟨pages1, hrun, hp1, hmiss⟩
    · rw [hrun]
      refine Or.inl ⟨_, pages1, by omega, rfl, hhit, fun g hlt hg => ?_⟩
      have := UInt16.lt_iff_toNat_lt.mp hlt
      omega
    · rw [hrun]
      rcases ih (by omega) (fun f hf => hok f (by omega)) (fun f nb pages hf => hop f nb pages
        (by omega)) hp1 with ⟨f, pages', hf, hany, hhit, hnewer⟩ | ⟨pages', hany, hp', hall⟩
      · refine Or.inl ⟨f, pages', by omega, hany, hhit, fun g hlt hg => ?_⟩
        by_cases hgn : g.toNat < n
        · exact hnewer g hlt hgn
        · rw [hlast g hg hgn]
          exact hmiss
      · refine Or.inr ⟨pages', hany, hp', fun g hg => ?_⟩
        by_cases hgn : g.toNat < n
        · exact hall g hgn
        · rw [hlast g hg hgn]
          exact hmiss

end

end Wedb
