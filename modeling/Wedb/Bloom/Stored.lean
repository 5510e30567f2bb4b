import Wedb.Bloom.Chain

/-!
# Stored bloom filters

A command loads the chain that the last one wrote. Writing back the blocks from the one that
was last at the start leaves the store as writing all of them would, so a store is the one
before with the chain put into it.
-/

namespace Wedb

open BlockSplitBloomFilter

theorem Store.apply_congr {s t : Store} {b : Batch}
    (h : ∀ p k, (s.part p).get k = (t.part p).get k ∨ ∃ o ∈ b, o.partition = p ∧ o.key = k) :
    s.apply b = t.apply b := by
  induction b generalizing s t with
  | nil =>
    have hget : ∀ p k, (s.part p).get k = (t.part p).get k := fun p k =>
      (h p k).resolve_right fun ⟨o, ho, _⟩ => List.not_mem_nil ho
    exact Store.ext (SortedMap.ext_get (hget .data)) (SortedMap.ext_get (hget .metadata))
  | cons o b ih =>
    refine ih fun p k => ?_
    rw [Store.part_applyOp_get, Store.part_applyOp_get]
    by_cases ho : o.partition = p ∧ o.key = k
    · rw [if_pos ho, if_pos ho]
      exact .inl rfl
    · rw [if_neg ho, if_neg ho]
      rcases h p k with hget | ⟨o', ho', hmatch⟩
      · exact .inl hget
      · rcases List.mem_cons.mp ho' with rfl | hmem
        · exact absurd hmatch ho
        · exact .inr ⟨o', hmem, hmatch⟩

theorem Store.apply_of_get {s : Store} {b : Batch}
    (h : ∀ o ∈ b, (s.part o.partition).get o.key = o.value ∧ o.value ≠ none) : s.apply b = s := by
  induction b with
  | nil => rfl
  | cons o b ih =>
    have hsame : s.applyOp o = s := by
      have hget : ∀ p k, ((s.applyOp o).part p).get k = (s.part p).get k := fun p k => by
        rw [Store.part_applyOp_get]
        split_ifs with hmatch
        · rw [← hmatch.1, ← hmatch.2]
          exact (h o (by simp)).1.symm
        · rfl
      exact Store.ext (SortedMap.ext_get (hget .data)) (SortedMap.ext_get (hget .metadata))
    rw [Store.apply_cons, hsame, ih fun x hx => h x (List.mem_cons_of_mem _ hx)]

theorem Store.part_apply_get_of_forall {s : Store} {b : Batch} {p : Partition} {k : Bytes}
    {v : Option Bytes} (hmem : ∃ o ∈ b, o.partition = p ∧ o.key = k)
    (h : ∀ o ∈ b, o.partition = p ∧ o.key = k → o.value = v) :
    ((s.apply b).part p).get k = v := by
  induction b generalizing s with
  | nil =>
    obtain ⟨o, ho, -⟩ := hmem
    exact absurd ho List.not_mem_nil
  | cons o b ih =>
    rw [Store.apply_cons]
    by_cases hrest : ∃ o' ∈ b, o'.partition = p ∧ o'.key = k
    · exact ih hrest fun x hx => h x (List.mem_cons_of_mem _ hx)
    · rw [Store.part_apply_get_of_forall_ne fun x hx hmatch => hrest ⟨x, hx, hmatch⟩,
        Store.part_applyOp_get]
      obtain ⟨o', ho', hmatch⟩ := hmem
      rcases List.mem_cons.mp ho' with rfl | hin
      · rw [if_pos hmatch]
        exact h o' (by simp) hmatch
      · exact absurd ⟨o', hin, hmatch⟩ hrest

/-- The store holds a chain under a key. -/
structure BloomStored (s : Store) (kc : KeyComposer) (key : Key) (w : BloomWork) : Prop where
  metadata : s.metadata.get (bloomMetaKey kc key) = some w.chain.encode
  data : ∀ i < 2 ^ 16, s.data.get (bloomItem kc key (UInt16.ofNat i)) = w.blocks[i]?

def Store.putChain (s : Store) (kc : KeyComposer) (key : Key) (w : BloomWork) : Store :=
  s.apply (bloomBatch kc key w 0)

section

variable {s : Store} {kc : KeyComposer} {key : Key} {w w' : BloomWork}

theorem bloomItem_inj {i j : ℕ} (hi : i < 2 ^ 16) (hj : j < 2 ^ 16)
    (h : bloomItem kc key (UInt16.ofNat i) = bloomItem kc key (UInt16.ofNat j)) : i = j := by
  rw [bloomItem, bloomItem, KeyComposer.composeSubkeyStack_eq, KeyComposer.composeSubkeyStack_eq] at h
  have hidx := congrArg UInt16.toNat (UInt16.toBeBytes_injective (List.append_cancel_left h))
  rwa [UInt16.toNat_ofNat_of_lt' hi, UInt16.toNat_ofNat_of_lt' hj] at hidx

theorem mem_bloomBatch {o : WriteOp} {start : ℕ} :
    o ∈ bloomBatch kc key w start ↔ o = .insertMeta (bloomMetaKey kc key) w.chain.encode ∨
      ∃ i b, start ≤ i ∧ w.blocks[i]? = some b ∧
        o = .insertData (bloomItem kc key (UInt16.ofNat i)) b := by
  rw [bloomBatch, List.mem_cons, List.mem_map]
  refine or_congr_right ⟨?_, ?_⟩
  · rintro ⟨x, hx, rfl⟩
    obtain ⟨j, hj⟩ := List.mem_iff_getElem?.mp hx
    rw [List.getElem?_drop, List.getElem?_zipIdx] at hj
    obtain ⟨b, hb, rfl⟩ := Option.map_eq_some_iff.mp hj
    rw [Nat.zero_add]
    exact ⟨start + j, b, Nat.le_add_right _ _, hb, rfl⟩
  · rintro ⟨i, b, hle, hb, rfl⟩
    refine ⟨(b, i), List.mem_iff_getElem?.mpr ⟨i - start, ?_⟩, rfl⟩
    rw [List.getElem?_drop, List.getElem?_zipIdx, Nat.add_sub_cancel' hle, hb, Nat.zero_add]
    rfl

theorem bloomBatch_owned {start : ℕ} : ∀ o ∈ bloomBatch kc key w start,
    ∃ slot : Slot, slot.Valid ∧ slot.partition = o.partition ∧ Addr.phys ⟨kc, key, slot⟩ = o.key ∧
      slot ≠ .str ∧ ∀ u, slot = .metadata u → u = .bloomMeta := by
  intro o ho
  rcases mem_bloomBatch.mp ho with rfl | ⟨i, b, -, -, rfl⟩
  · exact ⟨.metadata .bloomMeta, rfl, rfl, rfl, by simp, fun u hu => by cases hu; rfl⟩
  · exact ⟨.sub .bloomData (UInt16.ofNat i).toBeBytes, rfl, rfl, rfl, by simp, fun u hu => by cases hu⟩

theorem get_bloomBatch_data (hlen : w.blocks.length < 2 ^ 16) (start : ℕ) {i : ℕ} (hi : i < 2 ^ 16) :
    (s.apply (bloomBatch kc key w start)).data.get (bloomItem kc key (UInt16.ofNat i)) =
      if start ≤ i ∧ i < w.blocks.length then w.blocks[i]?
      else s.data.get (bloomItem kc key (UInt16.ofNat i)) := by
  split_ifs with hin
  · have hget := List.getElem?_eq_getElem hin.2
    rw [hget]
    refine @Store.part_apply_get_of_forall _ _ .data _ _ ⟨_, mem_bloomBatch.mpr
      (.inr ⟨i, _, hin.1, hget, rfl⟩), rfl, rfl⟩ fun o ho hmatch => ?_
    rcases mem_bloomBatch.mp ho with rfl | ⟨j, b, -, hb, rfl⟩
    · exact absurd hmatch.1 (by simp [WriteOp.partition])
    · obtain ⟨hj, -⟩ := List.getElem?_eq_some_iff.mp hb
      obtain rfl := bloomItem_inj (hj.trans hlen) hi hmatch.2
      rw [WriteOp.value, ← hb, hget]
  · refine @Store.part_apply_get_of_forall_ne _ _ .data _ fun o ho hmatch => ?_
    rcases mem_bloomBatch.mp ho with rfl | ⟨j, b, hle, hb, rfl⟩
    · exact absurd hmatch.1 (by simp [WriteOp.partition])
    · obtain ⟨hj, -⟩ := List.getElem?_eq_some_iff.mp hb
      obtain rfl := bloomItem_inj (hj.trans hlen) hi hmatch.2
      exact hin ⟨hle, hj⟩

theorem get_bloomBatch_metadata (start : ℕ) :
    (s.apply (bloomBatch kc key w start)).metadata.get (bloomMetaKey kc key) =
      some w.chain.encode := by
  refine @Store.part_apply_get_of_forall _ _ .metadata _ _ ⟨_, mem_bloomBatch.mpr (.inl rfl), rfl, rfl⟩
    fun o ho hmatch => ?_
  rcases mem_bloomBatch.mp ho with rfl | ⟨j, b, -, -, rfl⟩
  · rfl
  · exact absurd hmatch.1 (by simp [WriteOp.partition])

theorem BloomStored.putChain_self (h : BloomStored s kc key w) (hlen : w.blocks.length < 2 ^ 16) :
    s.putChain kc key w = s := by
  refine Store.apply_of_get fun o ho => ?_
  rcases mem_bloomBatch.mp ho with rfl | ⟨i, b, -, hb, rfl⟩
  · exact ⟨h.metadata, by simp [WriteOp.value]⟩
  · obtain ⟨hi, -⟩ := List.getElem?_eq_some_iff.mp hb
    exact ⟨(h.data i (hi.trans hlen)).trans hb, by simp [WriteOp.value]⟩

theorem putChain_absorb (hle : w.blocks.length ≤ w'.blocks.length) (start : ℕ) :
    (s.apply (bloomBatch kc key w start)).putChain kc key w' = s.putChain kc key w' := by
  refine Store.apply_congr fun p k => ?_
  by_cases hmem : ∃ o ∈ bloomBatch kc key w start, o.partition = p ∧ o.key = k
  · obtain ⟨o, ho, hmatch⟩ := hmem
    refine .inr ?_
    rcases mem_bloomBatch.mp ho with rfl | ⟨i, b, -, hb, rfl⟩
    · exact ⟨_, mem_bloomBatch.mpr (.inl rfl), hmatch⟩
    · obtain ⟨hi, -⟩ := List.getElem?_eq_some_iff.mp hb
      have hget := List.getElem?_eq_getElem (hi.trans_le hle)
      exact ⟨_, mem_bloomBatch.mpr (.inr ⟨i, _, Nat.zero_le _, hget, rfl⟩), hmatch⟩
  · exact .inl (Store.part_apply_get_of_forall_ne fun o ho hmatch => hmem ⟨o, ho, hmatch⟩)

theorem BloomStored.apply_suffix (h : BloomStored s kc key w) (hgrows : BloomGrows w w')
    (hlen : w'.blocks.length < 2 ^ 16) :
    BloomStored (s.apply (bloomBatch kc key w' (w.blocks.length - 1))) kc key w' ∧
      s.apply (bloomBatch kc key w' (w.blocks.length - 1)) = s.putChain kc key w' := by
  have hstored : BloomStored (s.apply (bloomBatch kc key w' (w.blocks.length - 1))) kc key w' := by
    refine ⟨get_bloomBatch_metadata _, fun i hi => ?_⟩
    rw [get_bloomBatch_data hlen _ hi]
    split_ifs with hin
    · rfl
    · rw [h.data i hi]
      by_cases hlow : i + 1 < w.blocks.length
      · exact (hgrows.kept i hlow).symm
      · have hle := hgrows.le
        rw [List.getElem?_eq_none (by omega), List.getElem?_eq_none (by omega)]
  exact ⟨hstored, (hstored.putChain_self hlen).symm.trans (putChain_absorb le_rfl _)⟩

theorem bloomStored_putChain (hlen : w.blocks.length < 2 ^ 16)
    (hnone : ∀ i < 2 ^ 16, s.data.get (bloomItem kc key (UInt16.ofNat i)) = none) :
    BloomStored (s.putChain kc key w) kc key w := by
  refine ⟨get_bloomBatch_metadata _, fun i hi => ?_⟩
  rw [Store.putChain, get_bloomBatch_data hlen _ hi]
  split_ifs with hin
  · rfl
  · rw [hnone i hi, List.getElem?_eq_none (by omega)]

end

end Wedb
