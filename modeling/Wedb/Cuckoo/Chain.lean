import Wedb.Cuckoo.Placed

/-!
# What the commands do to a chain

The pages of a filter hold the hashes of its items: each lies in some sub-filter,
and there are as many as the size says. A placed item is found, is counted no
fewer times than it is placed, and can be deleted.
-/

namespace Wedb

open CuckooFilterHelper

def filterRange (n : UInt16) : Finset UInt16 := (Finset.range n.toNat).image UInt16.ofNat

theorem mem_filterRange {n f : UInt16} : f ∈ filterRange n ↔ f < n := by
  simp only [filterRange, Finset.mem_image, Finset.mem_range, UInt16.lt_iff_toNat_lt]
  constructor
  · rintro ⟨i, hi, rfl⟩
    rwa [UInt16.toNat_ofNat_of_lt' (hi.trans n.toNat_lt)]
  · intro hf
    exact ⟨f.toNat, hf, UInt16.ofNat_toNat⟩

/-- A chain as the commands write it, with the cache opened for it. -/
structure CuckooChain (c : CuckooPageCache) (m : CuckooChainMeta) : Prop where
  rtype : m.base.rtype = .cuckooFilter
  expireAt : m.base.expireAt = 0
  cache : c = .new c.data c.kc c.key m.bucketSize m.pageSize
  valid : c.Valid
  stored : c.StoredSized m.subFilterNumBuckets
  pos : 0 < m.nFilters.toNat
  ok : ∀ f, f < m.nFilters → ∃ nb, m.subFilterNumBuckets f = .ok nb

/-- The pages hold the placed hashes. -/
structure Placed (c : CuckooPageCache) (m : CuckooChainMeta) (pages : CuckooPages)
    (A : Multiset (UInt16 × UInt64)) : Prop where
  sound : c.Sound m.subFilterNumBuckets pages
  held : m.geometry.Held (Finset.range c.bucketSize.toNat) (c.table pages) A
  within : ∀ a ∈ A, a.1 < m.nFilters
  size : m.base.size.toNat = A.card
  fresh : ∀ f, m.nFilters ≤ f → ∀ b s, c.table pages f b s = 0

def nonzeroSlots (c : CuckooPageCache) (m : CuckooChainMeta) (pages : CuckooPages) : ℕ :=
  ∑ f ∈ filterRange m.nFilters, Buckets.count (bucketRange (m.numBuckets f))
    (Finset.range c.bucketSize.toNat) (c.table pages f) fun _ v => decide (v ≠ 0)

section
variable {hash : Bytes → UInt64} {c : CuckooPageCache} {m m' : CuckooChainMeta}
  {pages pages' : CuckooPages} {A : Multiset (UInt16 × UInt64)} {f : UInt16} {h : UInt64}

theorem Placed.same (hp : Placed c m pages A) (h : c.Same m.subFilterNumBuckets pages pages') :
    Placed c m pages' A where
  sound := h.sound
  held := h.table ▸ hp.held
  within := hp.within
  size := hp.size
  fresh := by
    rw [h.table]
    exact hp.fresh

theorem CuckooChain.ok_toNat (hch : CuckooChain c m) (hf : f.toNat < m.nFilters.toNat) :
    ∃ nb, m.subFilterNumBuckets f = .ok nb := hch.ok f (UInt16.lt_iff_toNat_lt.mpr hf)

theorem Placed.nonzeroSlots (hch : CuckooChain c m) (hp : Placed c m pages A) :
    m.base.size.toNat = Wedb.nonzeroSlots c m pages := by
  have hsum := hp.held.sum_nonzero (fun f hf => hch.ok f (mem_filterRange.mp hf))
    (fun a ha => mem_filterRange.mpr (hp.within a ha)) m.print_ne_zero
  exact hp.size.trans hsum.symm

theorem Placed.card_lt (hch : CuckooChain c m) (hp : Placed c m pages A) :
    A.card + 1 < 2 ^ 64 := by
  have hsize := hp.nonzeroSlots hch
  rw [hp.size] at hsize
  have hbs : c.bucketSize.toNat ≤ 2 ^ 8 := c.bucketSize.toNat_lt.le
  have hle : Wedb.nonzeroSlots c m pages ≤ ∑ f ∈ filterRange m.nFilters, 2 ^ 31 * 2 ^ 8 := by
    refine Finset.sum_le_sum fun f hf => (Buckets.count_le _ _).trans ?_
    obtain ⟨nb, hnb⟩ := hch.ok f (mem_filterRange.mp hf)
    obtain ⟨k, hk, hpow⟩ := CuckooChainMeta.subFilterNumBuckets_pow hnb
    rw [CuckooChainMeta.numBuckets_of_ok hnb, Finset.card_range]
    refine Nat.mul_le_mul ((card_bucketRange_le nb).trans ?_) hbs
    rw [hpow]
    exact Nat.pow_le_pow_right (by decide) hk
  have hcard : (filterRange m.nFilters).card ≤ 2 ^ 16 :=
    (Finset.card_image_le.trans_eq (Finset.card_range _)).trans m.nFilters.toNat_lt.le
  rw [Finset.sum_const, smul_eq_mul] at hle
  have hbound := Nat.mul_le_mul_right (2 ^ 31 * 2 ^ 8) hcard
  omega

theorem Placed.grow (hch : CuckooChain c m) (hp : Placed c m pages A) (hf : f < m.nFilters)
    (hs : c.Sound m.subFilterNumBuckets pages')
    (hg : m.geometry.Grows (Finset.range c.bucketSize.toNat) f h (c.table pages) (c.table pages')) :
    Placed c (m.setSize (m.base.size + 1)) pages' ((f, h) ::ₘ A) where
  sound := hs
  held := hg.held hp.held
  within a ha := by
    rcases Multiset.mem_cons.mp ha with rfl | ha
    · exact hf
    · exact hp.within a ha
  size := by
    have hlt := hp.card_lt hch
    have hsize := hp.size
    rw [Multiset.card_cons, CuckooChainMeta.setSize, UInt64.toNat_add, hsize]
    exact Nat.mod_eq_of_lt hlt
  fresh g hgf b s := by
    have hne : g ≠ f := fun heq => absurd hf (heq ▸ not_lt.mpr hgf)
    rw [hg.others g hne]
    exact hp.fresh g hgf b s

theorem CuckooChain.setSize (hch : CuckooChain c m) (size : UInt64) :
    CuckooChain c (m.setSize size) :=
  ⟨hch.rtype, hch.expireAt, hch.cache, hch.valid, hch.stored, hch.pos, hch.ok⟩

theorem Placed.extend (hch : CuckooChain c m) (hp : Placed c m pages A) {nb : UInt32}
    (hn : m.nFilters < 65535) (hnb : m.subFilterNumBuckets m.nFilters = .ok nb)
    (hs : c.Sound m.subFilterNumBuckets pages')
    (hg : m.geometry.Grows (Finset.range c.bucketSize.toNat) m.nFilters h (c.table pages)
      (c.table pages')) :
    CuckooChain c ({ m with nFilters := m.nFilters + 1 }.setSize (m.base.size + 1)) ∧
      ∃ f, Placed c ({ m with nFilters := m.nFilters + 1 }.setSize (m.base.size + 1)) pages'
        ((f, h) ::ₘ A) := by
  have hnat : (m.nFilters + 1).toNat = m.nFilters.toNat + 1 := by
    have hlt := UInt16.lt_iff_toNat_lt.mp hn
    have h65535 : (65535 : UInt16).toNat = 65535 := rfl
    rw [UInt16.toNat_add]
    exact Nat.mod_eq_of_lt (by
      have h1 : (1 : UInt16).toNat = 1 := rfl
      omega)
  have hlt : ∀ f, f < m.nFilters + 1 ↔ f < m.nFilters ∨ f = m.nFilters := fun f => by
    rw [UInt16.lt_iff_toNat_lt, UInt16.lt_iff_toNat_lt, hnat, ← UInt16.toNat_inj]
    omega
  refine ⟨⟨hch.rtype, hch.expireAt, hch.cache, hch.valid, hch.stored, ?_, fun f hf => ?_⟩,
    m.nFilters, hs, hg.held hp.held, fun a ha => ?_, ?_, fun f hf b s => ?_⟩
  · rw [show (({ m with nFilters := m.nFilters + 1 } : CuckooChainMeta).setSize
      (m.base.size + 1)).nFilters = m.nFilters + 1 from rfl, hnat]
    exact Nat.succ_pos _
  · rcases (hlt f).mp hf with hf | rfl
    · exact hch.ok f hf
    · exact ⟨nb, hnb⟩
  · rcases Multiset.mem_cons.mp ha with rfl | ha
    · exact (hlt _).mpr (Or.inr rfl)
    · exact (hlt _).mpr (Or.inl (hp.within a ha))
  · have hlt := hp.card_lt hch
    have hsize := hp.size
    rw [Multiset.card_cons, CuckooChainMeta.setSize, UInt64.toNat_add, hsize]
    exact Nat.mod_eq_of_lt hlt
  · have hge : ¬f < m.nFilters + 1 := not_lt.mpr hf
    rw [hlt, not_or] at hge
    rw [hg.others f hge.2]
    exact hp.fresh f (not_lt.mp hge.1) b s

theorem cfPlaceHash_spec (hch : CuckooChain c m) (hp : Placed c m pages A) (victim : ℕ → ℕ)
    (hrun : cfPlaceHash c victim m h pages = .ok (m', pages')) :
    CuckooChain c m' ∧ ∃ f, Placed c m' pages' ((f, h) ::ₘ A) := by
  have hop : ∀ f nb pages1, f.toNat < m.nFilters.toNat → m.subFilterNumBuckets f = .ok nb →
      c.Same m.subFilterNumBuckets pages pages1 →
      (∃ pages', c.insertPair f nb h (generateFingerprint h) pages1 = (true, pages') ∧
        (c.Sound m.subFilterNumBuckets pages' ∧ m.geometry.Grows (Finset.range c.bucketSize.toNat)
          f h (c.table pages) (c.table pages'))) ∨
      ∃ pages', c.insertPair f nb h (generateFingerprint h) pages1 = (false, pages') ∧
        c.Same m.subFilterNumBuckets pages pages' ∧ True := by
    intro f nb pages1 _ hnb hsame
    rcases CuckooPageCache.insertPair_spec (h := h) hch.valid hch.stored hsame.sound hnb with
      ⟨pages2, hrun, hs, hg⟩ | ⟨pages2, hrun, hsame2, -⟩
    · exact Or.inl ⟨pages2, hrun, hs, hsame.table ▸ hg⟩
    · exact Or.inr ⟨pages2, hrun, hsame.trans hsame2, trivial⟩
  unfold cfPlaceHash at hrun
  simp only [bind, Except.bind] at hrun
  rcases anyFilter_spec m.nFilters.toNat_lt (fun f hf => hch.ok_toNat hf) hop
    (CuckooPageCache.Same.refl hp.sound) with
    ⟨f, pages1, hf, hany, ⟨hs, hg⟩, -⟩ | ⟨pages1, hany, hsame, -⟩
  · simp only [hany] at hrun
    cases hrun
    exact ⟨hch.setSize _, f, hp.grow hch (UInt16.lt_iff_toNat_lt.mpr hf) hs hg⟩
  · simp only [hany] at hrun
    have hlast : m.nFilters - 1 < m.nFilters := by
      rw [UInt16.lt_iff_toNat_lt, UInt16.toNat_sub_of_le _ _ (by
        rw [UInt16.le_iff_toNat_le]; exact hch.pos)]
      have h1 : (1 : UInt16).toNat = 1 := rfl
      have := hch.pos
      omega
    obtain ⟨nb, hnb⟩ := hch.ok _ hlast
    simp only [hnb] at hrun
    rcases CuckooPageCache.tryCuckooKickout_spec hch.valid hch.stored hnb m.maxIterations victim
      hsame.sound h with ⟨pages2, hkick, hs, hg⟩ | ⟨pages2, hkick, hs, htable⟩
    · simp only [hkick] at hrun
      cases hrun
      exact ⟨hch.setSize _, _, hp.grow hch hlast hs (hsame.table ▸ hg)⟩
    · simp only [hkick] at hrun
      rw [hsame.table] at htable
      split_ifs at hrun with hscale
      · simp only [Bool.and_eq_true, decide_eq_true_eq] at hscale
        cases hnew : m.subFilterNumBuckets m.nFilters with
        | error err => simp [hnew] at hrun
        | ok newBuckets =>
          simp only [hnew] at hrun
          rcases CuckooPageCache.insertPair_spec (h := h) hch.valid hch.stored hs hnew with
            ⟨pages3, hins, hs3, hg⟩ | ⟨pages3, hins, -, hfull⟩
          · simp only [hins] at hrun
            cases hrun
            exact hp.extend hch hscale.2 hnew hs3 (htable ▸ hg)
          · have hzero := hp.fresh m.nFilters le_rfl (firstBucket h newBuckets) 0
            rw [← htable] at hzero
            exact absurd hzero (hfull _ ((CuckooPageCache.paired_iff hnew).mpr (Or.inl rfl)) 0
              hch.valid.bucketSize)

theorem cfInsertItem_spec (hch : CuckooChain c m) (hp : Placed c m pages A) {nx r : Bool}
    {victim : ℕ → ℕ} {item : Bytes}
    (hrun : cfInsertItem hash c nx victim m pages item = .ok (r, m', pages')) :
    CuckooChain c m' ∧ ∃ A', Placed c m' pages' A' ∧ A'.map Prod.snd =
      if r then hash item ::ₘ A.map Prod.snd else A.map Prod.snd := by
  have hplace : ∀ pages1, Placed c m pages1 A →
      (cfPlaceHash c victim m (hash item) pages1).map (fun x => (true, x)) = .ok (r, m', pages') →
      CuckooChain c m' ∧ ∃ A', Placed c m' pages' A' ∧ A'.map Prod.snd =
        if r then hash item ::ₘ A.map Prod.snd else A.map Prod.snd := by
    intro pages1 hp1 hmap
    obtain ⟨x, hpl, hx⟩ := map_eq_ok hmap
    cases hx
    obtain ⟨hch', f, hp'⟩ := cfPlaceHash_spec hch hp1 victim hpl
    exact ⟨hch', _, hp', by simp⟩
  have hop : ∀ f nb pages1, f.toNat < m.nFilters.toNat → m.subFilterNumBuckets f = .ok nb →
      c.Same m.subFilterNumBuckets pages pages1 →
      (∃ pages', c.containsPair f nb (hash item) (generateFingerprint (hash item)) pages1 =
        (true, pages') ∧ c.Same m.subFilterNumBuckets pages pages') ∨
      ∃ pages', c.containsPair f nb (hash item) (generateFingerprint (hash item)) pages1 =
        (false, pages') ∧ c.Same m.subFilterNumBuckets pages pages' ∧ True := by
    intro f nb pages1 _ hnb hsame
    rcases CuckooPageCache.containsPair_spec (h := hash item) hch.valid hch.stored hsame.sound hnb
      with ⟨pages2, hrun, hsame2, -⟩ | ⟨pages2, hrun, hsame2, -⟩
    · exact Or.inl ⟨pages2, hrun, hsame.trans hsame2⟩
    · exact Or.inr ⟨pages2, hrun, hsame.trans hsame2, trivial⟩
  unfold cfInsertItem at hrun
  simp only [bind, Except.bind] at hrun
  cases nx with
  | false =>
    refine hplace pages hp ?_
    rw [← hrun]
    cases cfPlaceHash c victim m (hash item) pages <;> rfl
  | true =>
    rcases anyFilter_spec m.nFilters.toNat_lt (fun f hf => hch.ok_toNat hf) hop
      (CuckooPageCache.Same.refl hp.sound) with
      ⟨f, pages1, -, hany, hsame, -⟩ | ⟨pages1, hany, hsame, -⟩
    · simp only [hany, if_true] at hrun
      cases hrun
      exact ⟨hch, A, hp.same hsame, by simp⟩
    · simp only [hany, if_true] at hrun
      refine hplace pages1 (hp.same hsame) ?_
      rw [← hrun]
      cases cfPlaceHash c victim m (hash item) pages1 <;> rfl

def insertedItems (items : List Bytes) (results : List Bool) : Multiset Bytes :=
  ↑(((items.zip results).filter Prod.snd).map Prod.fst)

theorem cfInsertItems_spec (hch : CuckooChain c m) (hp : Placed c m pages A) {nx : Bool}
    {victim : ℕ → ℕ → ℕ} {i : ℕ} {items : List Bytes} {results : List Bool}
    (hrun : cfInsertItems hash c nx victim i items m pages = .ok (results, m', pages')) :
    CuckooChain c m' ∧ ∃ A', Placed c m' pages' A' ∧
      A'.map Prod.snd = A.map Prod.snd + (insertedItems items results).map hash := by
  induction items generalizing i m pages A results with
  | nil =>
    cases hrun
    exact ⟨hch, A, hp, by simp [insertedItems]⟩
  | cons item items ih =>
    simp only [cfInsertItems, bind, Except.bind] at hrun
    cases hitem : cfInsertItem hash c nx (victim i) m pages item with
    | error err => simp [hitem] at hrun
    | ok x =>
      obtain ⟨r, m1, pages1⟩ := x
      obtain ⟨hch1, A1, hp1, hA1⟩ := cfInsertItem_spec hch hp hitem
      simp only [hitem] at hrun
      cases hrest : cfInsertItems hash c nx victim (i + 1) items m1 pages1 with
      | error err => simp [hrest] at hrun
      | ok y =>
        obtain ⟨rs, m2, pages2⟩ := y
        simp only [hrest] at hrun
        cases hrun
        obtain ⟨hch2, A2, hp2, hA2⟩ := ih hch1 hp1 hrest
        refine ⟨hch2, A2, hp2, ?_⟩
        rw [hA2, hA1]
        cases r with
        | false => simp [insertedItems]
        | true =>
          simp only [insertedItems, if_true, List.zip_cons_cons, List.filter_cons_of_pos,
            List.map_cons, ← Multiset.cons_coe, Multiset.map_cons]
          rw [Multiset.cons_add, Multiset.add_cons]

/-! ## Reading and deleting placed items -/

theorem Placed.found (hch : CuckooChain c m) (hp : Placed c m pages A) (ha : (f, h) ∈ A) :
    ∃ b, m.geometry.Paired f h b ∧ ∃ s < c.bucketSize.toNat,
      c.table pages f b s = generateFingerprint h := by
  obtain ⟨b, hb, s, hs, hv⟩ := hp.held.found (hch.ok f (hp.within _ ha)) (m.print_ne_zero h) ha
  exact ⟨b, hb, s, Finset.mem_range.mp hs, hv⟩

theorem Placed.contains (hch : CuckooChain c m) (hp : Placed c m pages A) (h : UInt64) :
    ∃ r pages', anyFilter m (fun f nb pages => c.containsPair f nb h (generateFingerprint h) pages)
        m.nFilters.toNat pages = .ok (r, pages') ∧ Placed c m pages' A ∧
      (h ∈ A.map Prod.snd → r = true) := by
  have hop : ∀ f nb pages1, f.toNat < m.nFilters.toNat → m.subFilterNumBuckets f = .ok nb →
      c.Same m.subFilterNumBuckets pages pages1 →
      (∃ pages', c.containsPair f nb h (generateFingerprint h) pages1 = (true, pages') ∧
        c.Same m.subFilterNumBuckets pages pages') ∨
      ∃ pages', c.containsPair f nb h (generateFingerprint h) pages1 = (false, pages') ∧
        c.Same m.subFilterNumBuckets pages pages' ∧ ∀ b, m.geometry.Paired f h b →
          ∀ s < c.bucketSize.toNat, c.table pages f b s ≠ generateFingerprint h := by
    intro f nb pages1 _ hnb hsame
    rcases CuckooPageCache.containsPair_spec (h := h) hch.valid hch.stored hsame.sound hnb
      with ⟨pages2, hrun, hsame2, -⟩ | ⟨pages2, hrun, hsame2, hmiss⟩
    · exact Or.inl ⟨pages2, hrun, hsame.trans hsame2⟩
    · exact Or.inr ⟨pages2, hrun, hsame.trans hsame2, hsame.table ▸ hmiss⟩
  rcases anyFilter_spec m.nFilters.toNat_lt (fun f hf => hch.ok_toNat hf) hop
    (CuckooPageCache.Same.refl hp.sound) with
    ⟨f, pages1, -, hany, hsame, -⟩ | ⟨pages1, hany, hsame, hmiss⟩
  · exact ⟨true, pages1, hany, hp.same hsame, fun _ => rfl⟩
  · refine ⟨false, pages1, hany, hp.same hsame, fun hmem => ?_⟩
    obtain ⟨⟨f, x⟩, ha, rfl⟩ := Multiset.mem_map.mp hmem
    obtain ⟨b, hb, s, hs, hv⟩ := hp.found hch ha
    exact absurd hv (hmiss f (UInt16.lt_iff_toNat_lt.mp (hp.within _ ha)) b hb s hs)

theorem Placed.delete (hch : CuckooChain c m) (hp : Placed c m pages A)
    (hmem : h ∈ A.map Prod.snd) :
    ∃ pages' A', anyFilter m
        (fun f nb pages => c.deletePair f nb h (generateFingerprint h) pages) m.nFilters.toNat pages =
        .ok (true, pages') ∧ A'.map Prod.snd = (A.map Prod.snd).erase h ∧
      Placed c { m.setSize (m.base.size.satSub 1) with
        numDeletedItems := m.numDeletedItems.satAdd 1 } pages' A' := by
  have hop : ∀ f nb pages1, f.toNat < m.nFilters.toNat → m.subFilterNumBuckets f = .ok nb →
      c.Same m.subFilterNumBuckets pages pages1 →
      (∃ pages', c.deletePair f nb h (generateFingerprint h) pages1 = (true, pages') ∧
        ∃ b pos, m.geometry.Paired f h b ∧ c.table pages f b pos = generateFingerprint h ∧
          pos < c.bucketSize.toNat ∧ c.Sound m.subFilterNumBuckets pages' ∧
          c.table pages' f = Buckets.set (c.table pages f) b pos 0 ∧
          ∀ g, g ≠ f → c.table pages' g = c.table pages g) ∨
      ∃ pages', c.deletePair f nb h (generateFingerprint h) pages1 = (false, pages') ∧
        c.Same m.subFilterNumBuckets pages pages' ∧ ∀ b, m.geometry.Paired f h b →
          ∀ s < c.bucketSize.toNat, c.table pages f b s ≠ generateFingerprint h := by
    intro f nb pages1 _ hnb hsame
    rcases CuckooPageCache.deletePair_spec (h := h) hch.valid hch.stored hsame.sound hnb
      with ⟨b, pos, pages2, hb, hrun, hhit⟩ | ⟨pages2, hrun, hsame2, hmiss⟩
    · rw [hsame.table] at hhit
      exact Or.inl ⟨pages2, hrun, b, pos, hb, hhit⟩
    · exact Or.inr ⟨pages2, hrun, hsame.trans hsame2, hsame.table ▸ hmiss⟩
  obtain ⟨⟨g, x⟩, ha, rfl⟩ := Multiset.mem_map.mp hmem
  obtain ⟨b0, hb0, s0, hs0, hv0⟩ := hp.found hch ha
  have hg := hp.within _ ha
  rcases anyFilter_spec m.nFilters.toNat_lt (fun f hf => hch.ok_toNat hf) hop
    (CuckooPageCache.Same.refl hp.sound) with
    ⟨f, pages1, hf, hany, ⟨b, pos, hb, hv, hpos, hs, htable, hothers⟩, hnewer⟩ |
    ⟨pages1, hany, -, hmiss⟩
  · have hgf : g ≤ f := not_lt.mp fun hlt =>
      hnewer g hlt (UInt16.lt_iff_toNat_lt.mp hg) b0 hb0 s0 hs0 hv0
    obtain ⟨A', hheld, hA', hplaces⟩ := hp.held.remove (fun a ha => hch.ok _ (hp.within a ha))
      (hch.ok_toNat hf) (m.print_ne_zero x) ha hgf (Finset.mem_range.mpr hpos) hb hv hothers htable
    refine ⟨pages1, A', hany, hA', hs, hheld, fun a ha' => ?_, ?_, fun k hk b' s' => ?_⟩
    · obtain ⟨d, hd, heq⟩ := hplaces a ha'
      rw [heq]
      exact hp.within d hd
    · have hcard := congrArg Multiset.card hA'
      rw [Multiset.card_erase_of_mem hmem, Multiset.card_map, Multiset.card_map] at hcard
      have hsize := hp.size
      rw [hcard, ← hsize]
      exact UInt64.toNat_satSub _ _
    · have hne : k ≠ f := by
        rintro rfl
        exact absurd (UInt16.lt_iff_toNat_lt.mpr hf) (not_lt.mpr hk)
      rw [hothers k hne]
      exact hp.fresh k hk b' s'
  · exact absurd hv0 (hmiss g (UInt16.lt_iff_toNat_lt.mp hg) b0 hb0 s0 hs0)

theorem countFilters_eq (hch : CuckooChain c m) (hs : c.Sound m.subFilterNumBuckets pages)
    (h : UInt64) {n : ℕ} (hn : n ≤ m.nFilters.toNat) (total : ℕ) :
    countFilters m (fun f nb pages => c.countPair f nb h (generateFingerprint h) pages) n total
      pages = .ok (total + ∑ i ∈ Finset.range n, Buckets.count
        (m.geometry.buckets (UInt16.ofNat i)) (Finset.range c.bucketSize.toNat)
        (c.table pages (UInt16.ofNat i)) (m.geometry.pairWeight (UInt16.ofNat i) h)) := by
  induction n generalizing total pages with
  | zero => rfl
  | succ n ih =>
    have hnat : (UInt16.ofNat n).toNat = n :=
      UInt16.toNat_ofNat_of_lt' (show n < 2 ^ 16 by have := m.nFilters.toNat_lt; omega)
    obtain ⟨nb, hnb⟩ := hch.ok_toNat (f := UInt16.ofNat n) (by omega)
    obtain ⟨hcount, hsame⟩ := CuckooPageCache.countPair_spec (h := h) hch.valid hch.stored hs hnb
    simp only [countFilters, hnb, bind, Except.bind]
    rw [ih hsame.sound (by omega), hcount, hsame.table, Finset.sum_range_succ]
    congr 1
    omega

theorem Placed.countFilters (hch : CuckooChain c m) (hp : Placed c m pages A) (h : UInt64) :
    ∃ n, Wedb.countFilters m (fun f nb pages => c.countPair f nb h (generateFingerprint h) pages)
        m.nFilters.toNat 0 pages = .ok n ∧ (A.map Prod.snd).count h ≤ n := by
  refine ⟨_, countFilters_eq hch hp.sound h le_rfl 0, ?_⟩
  have hle := hp.held.count_le_sum (fun f hf => hch.ok f (mem_filterRange.mp hf))
    (fun a ha => mem_filterRange.mpr (hp.within a ha)) (m.print_ne_zero h)
  rw [filterRange, Finset.sum_image] at hle
  · omega
  · intro i hi j hj heq
    have hi' := Finset.mem_range.mp hi
    have hj' := Finset.mem_range.mp hj
    have hlt := m.nFilters.toNat_lt
    have hnat := congrArg UInt16.toNat heq
    rwa [UInt16.toNat_ofNat_of_lt' (show i < 2 ^ 16 by omega),
      UInt16.toNat_ofNat_of_lt' (show j < 2 ^ 16 by omega)] at hnat

end

end Wedb
