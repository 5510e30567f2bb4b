import Wedb.Bloom.Impl

/-!
# What insertions do to a chain

Each block has the size of its sub-filter, every item that was reported is found in some
block, and the size counts the items that were new. An insertion writes the last block or a
new one, so the blocks before the last stay as they are.
-/

namespace Wedb

open BlockSplitBloomFilter

/-- A chain as the commands write it, with the items reported and the number of new ones. -/
structure BloomChain (hash : Bytes → UInt64) (estimate : UInt32 → F64 → Option ℕ) (w : BloomWork)
    (L : List Bytes) (n : ℕ) : Prop where
  rtype : w.chain.base.rtype = .bloom
  expireAt : w.chain.base.expireAt = 0
  length : w.blocks.length = w.chain.nFilters.toNat
  pos : 0 < w.chain.nFilters.toNat
  sized : ∀ i b, w.blocks[i]? = some b → b.length =
    optimalNumOfBytes estimate (w.chain.subFilterCapacity (UInt16.ofNat i)) w.chain.errorRate
  found : ∀ item ∈ L, ∃ b ∈ w.blocks, findHash b (hash item) = true
  size : w.chain.base.size.toNat = n
  bound : n ≤ 2 ^ 32 + w.chain.nFilters.toNat
  fixed : w.chain.expansion = 0 → n ≤ w.chain.baseCapacity.toNat

/-- The blocks before the last one are those of another chain of the same shape. -/
structure BloomGrows (w w' : BloomWork) : Prop where
  expansion : w'.chain.expansion = w.chain.expansion
  baseCapacity : w'.chain.baseCapacity = w.chain.baseCapacity
  errorRate : w'.chain.errorRate = w.chain.errorRate
  le : w.blocks.length ≤ w'.blocks.length
  kept : ∀ i, i + 1 < w.blocks.length → w'.blocks[i]? = w.blocks[i]?

namespace BloomGrows

variable {w w' w'' : BloomWork}

theorem refl (w : BloomWork) : BloomGrows w w := ⟨rfl, rfl, rfl, le_rfl, fun _ _ => rfl⟩

theorem trans (h : BloomGrows w w') (h' : BloomGrows w' w'') : BloomGrows w w'' where
  expansion := h'.expansion.trans h.expansion
  baseCapacity := h'.baseCapacity.trans h.baseCapacity
  errorRate := h'.errorRate.trans h.errorRate
  le := h.le.trans h'.le
  kept i hi := (h'.kept i (hi.trans_le h.le)).trans (h.kept i hi)

end BloomGrows

def reportedItems : List Bytes → List BloomFilterAddResult → List Bytes
  | item :: items, result :: results =>
      if result = .full then reportedItems items results else item :: reportedItems items results
  | _, _ => []

theorem getCapacity_fixed {m : BloomChainMeta} (h : m.expansion = 0) :
    m.getCapacity.toNat = m.baseCapacity.toNat := by
  have hlt := m.baseCapacity.toNat_lt
  have hsize : UInt32.size = 2 ^ 32 := rfl
  rw [BloomChainMeta.getCapacity, calculateGeometricCapacity, if_pos (.inl h),
    UInt32.toNat_ofNat_of_lt' (by omega)]
  omega

variable {hash : Bytes → UInt64} {estimate : UInt32 → F64 → Option ℕ} {w w' : BloomWork}
  {L : List Bytes} {n : ℕ}

namespace BloomChain

theorem nFilters_lt (w : BloomWork) : w.chain.nFilters.toNat < 2 ^ 16 := w.chain.nFilters.toNat_lt

theorem opened (h : BloomChain hash estimate w L n) (hlt : w.chain.nFilters < 65535) :
    BloomChain hash estimate (w.opened estimate) L n ∧ BloomGrows w (w.opened estimate) ∧
      (w.opened estimate).chain.nFilters.toNat = w.chain.nFilters.toNat + 1 := by
  have hnat : (w.chain.nFilters + 1).toNat = w.chain.nFilters.toNat + 1 := by
    have hlt' := UInt16.lt_iff_toNat_lt.mp hlt
    have h65535 : (65535 : UInt16).toNat = 65535 := rfl
    have hone : (1 : UInt16).toNat = 1 := rfl
    rw [UInt16.toNat_add, hone]
    exact Nat.mod_eq_of_lt (by omega)
  refine ⟨⟨h.rtype, h.expireAt, ?_, ?_, fun i b hi => ?_, fun item hitem => ?_, h.size, ?_, h.fixed⟩,
    ⟨rfl, rfl, rfl, ?_, fun i hi => ?_⟩, hnat⟩
  · rw [BloomWork.opened, List.length_append, h.length]
    exact hnat.symm
  · rw [BloomWork.opened]
    exact hnat ▸ Nat.succ_pos _
  · rw [BloomWork.opened] at hi
    by_cases hold : i < w.blocks.length
    · rw [List.getElem?_append_left hold] at hi
      exact h.sized i b hi
    · rw [List.getElem?_append_right (not_lt.mp hold)] at hi
      obtain ⟨hin, hb⟩ := List.getElem?_eq_some_iff.mp hi
      rw [List.length_singleton] at hin
      have hlast : i = w.chain.nFilters.toNat := by
        rw [← h.length]
        omega
      simp only [List.getElem_singleton] at hb
      rw [← hb, List.length_replicate, hlast, UInt16.ofNat_toNat]
      rfl
  · obtain ⟨b, hb, hfound⟩ := h.found item hitem
    exact ⟨b, List.mem_append_left _ hb, hfound⟩
  · have hbound := h.bound
    rw [BloomWork.opened]
    dsimp only
    omega
  · rw [BloomWork.opened, List.length_append]
    exact Nat.le_add_right _ _
  · rw [BloomWork.opened, List.getElem?_append_left (by omega)]

theorem put (h : BloomChain hash estimate w L n) (item : Bytes)
    (hbound : n + 1 ≤ 2 ^ 32 + w.chain.nFilters.toNat)
    (hfixed : w.chain.expansion = 0 → n + 1 ≤ w.chain.baseCapacity.toNat) :
    BloomChain hash estimate (w.put (hash item)) (item :: L) (n + 1) ∧
      BloomGrows w (w.put (hash item)) := by
  have hlast : (w.chain.nFilters - 1).toNat = w.blocks.length - 1 := by
    have hone : (1 : UInt16).toNat = 1 := rfl
    rw [h.length, UInt16.toNat_sub_of_le _ _ (UInt16.le_iff_toNat_le.mpr (hone ▸ h.pos)), hone]
  have hlen : 0 < w.blocks.length := h.length ▸ h.pos
  have hblocks : (w.put (hash item)).blocks =
      w.blocks.modify (w.blocks.length - 1) fun b => (insertHash b (hash item)).1 := by
    rw [BloomWork.put, hlast]
  have hmodify : ∀ i, (w.put (hash item)).blocks[i]? =
      if w.blocks.length - 1 = i then w.blocks[i]?.map fun b => (insertHash b (hash item)).1
      else w.blocks[i]? := by
    intro i
    rw [hblocks, List.getElem?_modify]
    split_ifs
    · rfl
    · cases w.blocks[i]? <;> rfl
  have hsize : (w.chain.base.size + 1).toNat = n + 1 := by
    have hn := nFilters_lt w
    have hone : (1 : UInt64).toNat = 1 := rfl
    rw [UInt64.toNat_add, h.size, hone]
    exact Nat.mod_eq_of_lt (by omega)
  refine ⟨⟨h.rtype, h.expireAt, ?_, h.pos, fun i b hi => ?_, fun x hx => ?_, hsize, hbound, hfixed⟩,
    ⟨rfl, rfl, rfl, ?_, fun i hi => ?_⟩⟩
  · rw [hblocks, List.length_modify]
    exact h.length
  · rw [hmodify] at hi
    split_ifs at hi
    · obtain ⟨b', hb', rfl⟩ := Option.map_eq_some_iff.mp hi
      rw [insertHash_length]
      exact h.sized i b' hb'
    · exact h.sized i b hi
  · rcases List.mem_cons.mp hx with rfl | hx
    · obtain ⟨b, hb⟩ : ∃ b, w.blocks[w.blocks.length - 1]? = some b :=
        ⟨_, List.getElem?_eq_getElem (by omega)⟩
      have hrange := optimalNumOfBytes_range estimate
        (w.chain.subFilterCapacity (UInt16.ofNat (w.blocks.length - 1))) w.chain.errorRate
      rw [← h.sized _ b hb] at hrange
      have hget := hmodify (w.blocks.length - 1)
      rw [if_pos rfl, hb] at hget
      exact ⟨_, List.mem_of_getElem? hget, findHash_insertHash_self hrange.1 hrange.2⟩
    · obtain ⟨b, hb, hfound⟩ := h.found x hx
      obtain ⟨i, hi⟩ := List.mem_iff_getElem?.mp hb
      have hget := hmodify i
      rw [hi] at hget
      split_ifs at hget
      · exact ⟨_, List.mem_of_getElem? hget, findHash_insertHash hfound⟩
      · exact ⟨b, List.mem_of_getElem? hget, hfound⟩
  · rw [hblocks, List.length_modify]
  · rw [hmodify, if_neg (by omega)]

theorem add (h : BloomChain hash estimate w L n) (item : Bytes) {r : BloomFilterAddResult}
    (hadd : w.add estimate (hash item) = (r, w')) :
    (r = .exist ∧ w' = w ∧ BloomChain hash estimate w (item :: L) n) ∨
    (r = .full ∧ w' = w ∧ w.chain.getCapacity.toNat ≤ n) ∨
    (r = .ok ∧ BloomChain hash estimate w' (item :: L) (n + 1) ∧ BloomGrows w w' ∧
      (w.chain.expansion = 0 → n < w.chain.baseCapacity.toNat)) := by
  have hn := nFilters_lt w
  have hbound := h.bound
  have hcap := w.chain.getCapacity.toNat_lt
  have hfull : w.chain.base.size + 1 > w.chain.getCapacity.toUInt64 ↔
      w.chain.getCapacity.toNat ≤ n := by
    have hone : (1 : UInt64).toNat = 1 := rfl
    rw [gt_iff_lt, UInt64.lt_iff_toNat_lt, UInt64.toNat_add, h.size, hone, UInt32.toNat_toUInt64,
      Nat.mod_eq_of_lt (by omega)]
    omega
  unfold BloomWork.add at hadd
  split_ifs at hadd with hexists hover hscaling
  · obtain ⟨rfl, rfl⟩ := Prod.mk.inj hadd
    refine .inl ⟨rfl, rfl, { h with found := fun x hx => ?_ }⟩
    rcases List.mem_cons.mp hx with rfl | hx
    · obtain ⟨b, hb, hfound⟩ := List.any_eq_true.mp hexists
      exact ⟨b, List.mem_reverse.mp hb, hfound⟩
    · exact h.found x hx
  · obtain ⟨rfl, rfl⟩ := Prod.mk.inj hadd
    have hne : w.chain.expansion ≠ 0 := of_decide_eq_true hscaling.1
    obtain ⟨hopened, hgrows, hcount⟩ := h.opened hscaling.2
    obtain ⟨hput, hgrows'⟩ := hopened.put item (by omega) (fun h0 => absurd h0 hne)
    exact .inr (.inr ⟨rfl, hput, hgrows.trans hgrows', fun h0 => absurd h0 hne⟩)
  · obtain ⟨rfl, rfl⟩ := Prod.mk.inj hadd
    exact .inr (.inl ⟨rfl, rfl, hfull.mp hover⟩)
  · obtain ⟨rfl, rfl⟩ := Prod.mk.inj hadd
    have hroom := mt hfull.mpr hover
    have hbase : w.chain.expansion = 0 → n < w.chain.baseCapacity.toNat := fun h0 => by
      rw [getCapacity_fixed h0] at hroom
      omega
    obtain ⟨hput, hgrows⟩ := h.put item (by omega) hbase
    exact .inr (.inr ⟨rfl, hput, hgrows, hbase⟩)

theorem of_subset (h : BloomChain hash estimate w L n) {L' : List Bytes} (hsub : L' ⊆ L) :
    BloomChain hash estimate w L' n :=
  { h with found := fun item hitem => h.found item (hsub hitem) }

theorem addAll (h : BloomChain hash estimate w L n) (items : List Bytes)
    {results : List BloomFilterAddResult}
    (hadd : w.addAll estimate hash items = (results, w')) :
    BloomChain hash estimate w' (reportedItems items results ++ L) (n + results.count .ok) ∧
      BloomGrows w w' ∧ results.length = items.length ∧ (results.contains .ok = false → w' = w) := by
  induction items generalizing w L n results with
  | nil =>
    obtain ⟨rfl, rfl⟩ := Prod.mk.inj hadd
    exact ⟨h, .refl _, rfl, fun _ => rfl⟩
  | cons item items ih =>
    obtain ⟨r, w₁, hfirst⟩ : ∃ r w₁, w.add estimate (hash item) = (r, w₁) := ⟨_, _, rfl⟩
    obtain ⟨rest, w₂, hrest⟩ : ∃ rest w₂, w₁.addAll estimate hash items = (rest, w₂) := ⟨_, _, rfl⟩
    rw [BloomWork.addAll, hfirst] at hadd
    simp only [hrest] at hadd
    obtain ⟨rfl, rfl⟩ := Prod.mk.inj hadd
    rcases h.add item hfirst with ⟨rfl, rfl, hchain⟩ | ⟨rfl, rfl, -⟩ | ⟨rfl, hchain, hgrows, -⟩
    · obtain ⟨hall, hgrows', hlen, hsame⟩ := ih hchain hrest
      refine ⟨?_, hgrows', by simp [hlen], fun hno => hsame (by simpa using hno)⟩
      rw [List.count_cons_of_ne (by decide), reportedItems, if_neg (by decide)]
      refine hall.of_subset fun x hx => ?_
      simpa [or_left_comm, or_assoc] using hx
    · obtain ⟨hall, hgrows', hlen, hsame⟩ := ih h hrest
      refine ⟨?_, hgrows', by simp [hlen], fun hno => hsame (by simpa using hno)⟩
      rw [List.count_cons_of_ne (by decide), reportedItems, if_pos rfl]
      exact hall
    · obtain ⟨hall, hgrows', hlen, -⟩ := ih hchain hrest
      refine ⟨?_, hgrows.trans hgrows', by simp [hlen], fun hno => by simp at hno⟩
      have hcount : n + (.ok :: rest).count .ok = n + 1 + rest.count BloomFilterAddResult.ok := by
        rw [List.count_cons_self]
        omega
      rw [hcount, reportedItems, if_neg (by decide)]
      refine hall.of_subset fun x hx => ?_
      simpa [or_left_comm, or_assoc] using hx

end BloomChain

/-! ## New filters -/

def BloomWork.fresh (estimate : UInt32 → F64 → Option ℕ) (capacity : UInt32) (errorRate : F64)
    (expansion : UInt16) (version : UInt64) : BloomWork where
  chain := .new capacity errorRate expansion version 0
    (UInt32.ofNat (optimalNumOfBytes estimate capacity errorRate))
  blocks := [List.replicate (optimalNumOfBytes estimate capacity errorRate) 0]

section fresh

variable (capacity : UInt32) (errorRate : F64) (expansion : UInt16) (version : UInt64)

theorem bloomChain_fresh :
    BloomChain hash estimate (.fresh estimate capacity errorRate expansion version) [] 0 := by
  refine ⟨rfl, rfl, rfl, Nat.one_pos, fun i b hi => ?_, fun x hx => absurd hx List.not_mem_nil, rfl,
    Nat.zero_le _, fun _ => Nat.zero_le _⟩
  obtain ⟨hin, rfl⟩ := List.getElem?_eq_some_iff.mp hi
  have hzero : i = 0 := by simpa [BloomWork.fresh] using hin
  subst hzero
  simp [BloomWork.fresh, BloomChainMeta.new, BloomChainMeta.subFilterCapacity]

theorem getCapacity_fresh :
    (BloomWork.fresh estimate capacity errorRate expansion version).chain.getCapacity.toNat =
      capacity.toNat := by
  have hlt := capacity.toNat_lt
  have hsize : UInt32.size = 2 ^ 32 := rfl
  have hone : (1 : UInt16) ≤ 1 := le_refl _
  have hgeometric : ∀ base : ℕ, calculateGeometricCapacity base expansion 1 = base := fun base => by
    rw [calculateGeometricCapacity, if_pos (.inr hone)]
  rw [BloomWork.fresh, BloomChainMeta.getCapacity, BloomChainMeta.new, hgeometric,
    UInt32.toNat_ofNat_of_lt' (by dsimp only; omega)]
  dsimp only
  omega

variable {capacity}

theorem add_fresh (hcap : capacity ≠ 0) (h : UInt64) :
    ((BloomWork.fresh estimate capacity errorRate expansion version).add estimate h).1 = .ok := by
  have hpos : capacity.toNat ≠ 0 := fun hzero => hcap (UInt32.toNat_inj.mp hzero)
  have hroom : ¬(BloomWork.fresh estimate capacity errorRate expansion version).chain.base.size + 1 >
      (BloomWork.fresh estimate capacity errorRate expansion version).chain.getCapacity.toUInt64 := by
    have hone : ((BloomWork.fresh estimate capacity errorRate expansion version).chain.base.size +
        1).toNat = 1 := rfl
    rw [gt_iff_lt, UInt64.lt_iff_toNat_lt, hone, UInt32.toNat_toUInt64, getCapacity_fresh]
    omega
  have hno : ¬((BloomWork.fresh estimate capacity errorRate expansion version).blocks.reverse.any
      fun blk => findHash blk h) = true := by
    simp [BloomWork.fresh, findHash_zeros]
  rw [BloomWork.add, if_neg hno, if_neg hroom]

end fresh

end Wedb
