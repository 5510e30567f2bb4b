import Wedb.SortedInt.Stored

/-!
# What the writes of a set do

Each command queues the ids it adds or removes once, counts them, and commits
metadata that counts the ids the set is left with. What it answers and leaves is
what the same operation on the finite set does.
-/

namespace Wedb

/-- Metadata that differs in the size. -/
structure SiResized (m m' : SortedintMeta) (n : ℕ) : Prop where
  rtype : m'.base.rtype = m.base.rtype
  expireAt : m'.base.expireAt = m.base.expireAt
  size : m'.base.size.toNat = n

variable {s : Store} {kc : KeyComposer} {key : Key} {S : IdSet} {X : Finset UInt64}
  {ids xs : List UInt64} {m m' : SortedintMeta} {now version : UInt64} {ops : Batch} {n : ℕ}

theorem SiResized.layout (h : SiResized m m' n) (hl : SiLayout m S) (hn : n = X.card) :
    SiLayout m' ⟨X, S.expireAt⟩ :=
  ⟨h.rtype.trans hl.rtype, h.expireAt.trans hl.expireAt, h.size.trans hn⟩

theorem SiHolds.leaves_nil (h : SiHolds s kc key S) : SiLeaves s kc key [] S :=
  ⟨fun _ ho => (List.not_mem_nil ho).elim, fun _ => h⟩

theorem mem_items_owned {f : UInt64 → WriteOp} (hp : ∀ id, (f id).partition = .data)
    (hk : ∀ id, (f id).key = composeSiItemKey (composeSiPrefixStack kc key) id) :
    ∀ o ∈ xs.map f, o.OwnedBy kc key .sortedIntMeta := by
  intro o ho
  obtain ⟨id, -, rfl⟩ := List.mem_map.mp ho
  exact ownedBy_item (hp id) (hk id)

theorem owned_append {ops' : Batch} (h : ∀ o ∈ ops, o.OwnedBy kc key .sortedIntMeta)
    (h' : ∀ o ∈ ops', o.OwnedBy kc key .sortedIntMeta) :
    ∀ o ∈ ops ++ ops', o.OwnedBy kc key .sortedIntMeta := fun o ho =>
  (List.mem_append.mp ho).elim (h o) (h' o)

theorem distinctIds_nodup (ids : List UInt64) : (distinctIds ids).Nodup :=
  (keepFirst_nodup _ []).1

theorem mem_distinctIds {id : UInt64} : id ∈ distinctIds ids ↔ id ∈ ids := by
  rw [distinctIds, mem_keepFirst_fst, List.map_map]
  simp

theorem toFinset_filter_distinctIds (p : UInt64 → Bool) :
    ((distinctIds ids).filter p).toFinset = ids.toFinset.filter fun id => p id = true := by
  ext id
  rw [List.mem_toFinset, List.mem_filter, mem_distinctIds, Finset.mem_filter, List.mem_toFinset]

theorem length_filter_distinctIds (p : UInt64 → Bool) :
    ((distinctIds ids).filter p).length = (ids.toFinset.filter fun id => p id = true).card := by
  rw [← toFinset_filter_distinctIds, List.toFinset_card_of_nodup ((distinctIds_nodup ids).filter p)]

def isStored (s : Store) (kc : KeyComposer) (key : Key) (id : UInt64) : Bool :=
  s.data.contains (composeSiItemKey (composeSiPrefixStack kc key) id)

theorem isStored_iff (h : SiRep s kc key X) (id : UInt64) : isStored s kc key id = true ↔ id ∈ X := by
  rw [isStored, contains_itemKey h, decide_eq_true_eq]

/-! ## Adding -/

def isNew (s : Store) (kc : KeyComposer) (key : Key) (isFresh : Bool) (id : UInt64) : Bool :=
  isFresh || !isStored s kc key id

variable (s kc key) in
theorem foldl_siAddStep (isFresh : Bool) (w : SiWork) (xs : List UInt64) :
    ∃ m', xs.foldl (siAddStep s kc key isFresh) w =
        ⟨m', w.ops ++ (xs.filter (isNew s kc key isFresh)).map (insertItem kc key),
          w.count + (xs.filter (isNew s kc key isFresh)).length⟩ ∧
      SiResized w.m m' (min (w.m.base.size.toNat + (xs.filter (isNew s kc key isFresh)).length)
        (2 ^ 64 - 1)) := by
  induction xs generalizing w with
  | nil =>
    refine ⟨w.m, by simp, rfl, rfl, ?_⟩
    have hlt := w.m.base.size.toNat_lt
    rw [List.filter_nil, List.length_nil]
    omega
  | cons id xs ih =>
    rw [List.foldl_cons]
    by_cases hnew : isNew s kc key isFresh id = true
    · have hstep : siAddStep s kc key isFresh w id =
          ⟨w.m.setSize (w.m.base.size.satAdd 1), w.ops ++ [insertItem kc key id], w.count + 1⟩ :=
        if_pos hnew
      obtain ⟨m', hfold, hm'⟩ := ih ⟨w.m.setSize (w.m.base.size.satAdd 1),
        w.ops ++ [insertItem kc key id], w.count + 1⟩
      refine ⟨m', ?_, hm'.rtype, hm'.expireAt, ?_⟩
      · rw [hstep, hfold, List.filter_cons_of_pos hnew, List.map_cons, List.length_cons,
          List.append_assoc, List.singleton_append, Nat.add_right_comm, Nat.add_assoc]
      · rw [hm'.size, SimpleMeta.setSize_base, UInt64.toNat_satAdd_eq_min, List.filter_cons_of_pos hnew,
          List.length_cons, UInt64.toNat_one]
        omega
    · have hstep : siAddStep s kc key isFresh w id = w := if_neg hnew
      rw [hstep, List.filter_cons_of_neg hnew]
      exact ih w

theorem siAddIds_eq (isFresh : Bool) (w : SiWork) (ids : List UInt64) :
    siAddIds s kc key isFresh w ids = (distinctIds ids).foldl (siAddStep s kc key isFresh) w := by
  rcases ids with _ | ⟨id, _ | ⟨id', rest⟩⟩ <;> rfl

theorem siAddIds_spec (isFresh : Bool) (hrep : SiRep (s.apply ops) kc key X)
    (hops : ∀ o ∈ ops, o.OwnedBy kc key .sortedIntMeta)
    (hnew : ∀ id, isNew s kc key isFresh id = true ↔ id ∉ X) (hsize : m.base.size.toNat = X.card)
    (ids : List UInt64) :
    ∃ m' ops', siAddIds s kc key isFresh ⟨m, ops, 0⟩ ids = ⟨m', ops', (ids.toFinset \ X).card⟩ ∧
      (∀ o ∈ ops', o.OwnedBy kc key .sortedIntMeta) ∧
      SiRep (s.apply ops') kc key (X ∪ ids.toFinset) ∧
      SiResized m m' (min (X ∪ ids.toFinset).card (2 ^ 64 - 1)) := by
  have hset : ids.toFinset.filter (fun id => isNew s kc key isFresh id = true) = ids.toFinset \ X := by
    rw [← Finset.filter_notMem_eq_sdiff]
    exact Finset.filter_congr fun id _ => hnew id
  obtain ⟨m', hfold, hm'⟩ := foldl_siAddStep s kc key isFresh ⟨m, ops, 0⟩
    (distinctIds ids)
  rw [length_filter_distinctIds, hset] at hfold hm'
  refine ⟨m', ops ++ ((distinctIds ids).filter (isNew s kc key isFresh)).map (insertItem kc key),
    ?_, ?_, ?_, ?_⟩
  · rw [siAddIds_eq, hfold, Nat.zero_add]
  · exact owned_append hops (mem_items_owned (fun _ => rfl) fun _ => rfl)
  · have hitems := hrep.insertItems ((distinctIds ids).filter (isNew s kc key isFresh))
    rw [toFinset_filter_distinctIds, hset, Finset.union_sdiff_self_eq_union] at hitems
    rw [Store.apply_append]
    exact hitems
  · rw [hsize, ← Finset.card_union_of_disjoint Finset.disjoint_sdiff,
      Finset.union_sdiff_self_eq_union] at hm'
    exact hm'

theorem SiRep.card_lt (h : SiRep (s.apply ops) kc key X) {o : WriteOp} (ho : o.partition = .metadata)
    (hfits : (s.apply (ops ++ [o])).Fits) : X.card < 2 ^ 63 := by
  have hrep : SiRep (s.apply (ops ++ [o])) kc key X := by
    rw [Store.apply_append]
    exact h.applyMeta ho
  rw [← hrep.length_family]
  exact hfits.length_family_lt_signed kc key .sortedIntData

theorem siAdd_spec (h : SiHolds s kc key S) (now version : UInt64) (ids : List UInt64) :
    ∃ ops, siAdd s kc key now version ids = .ok ((ids.toFinset \ S.live now).card, ops) ∧
      SiLeaves s kc key ops (S.withIds now ids.toFinset) := by
  rw [siAdd]
  by_cases hnil : ids = []
  · rw [if_pos hnil, hnil]
    refine ⟨[], by simp [pure, Except.pure], ?_⟩
    rw [IdSet.withIds, if_pos (by simp)]
    exact h.leaves_nil
  have hids : ids.toFinset ≠ ∅ := by simpa using hnil
  rw [if_neg hnil, IdSet.withIds, if_neg hids, prepareSiMetaForWrite]
  rcases h.getSiMeta now with ⟨hdead, hget⟩ | ⟨hlive, hne, m, hget, hl⟩
  · rw [hget, hdead, if_pos rfl]
    have hrep : SiRep (s.apply (clearPrefixInBatch s .data (composeSiPrefixStack kc key))) kc key ∅ := by
      rw [SiRep, sortedIntData_clear]
      exact SetIn.empty _
    obtain ⟨m', ops', hw, howned, hrep', hm'⟩ := siAddIds_spec (m := .newWithVersion version 0 0)
      true hrep (fun o ho => ownedBy_clearPrefix .sortedIntData rfl ho)
      (fun id => iff_of_true rfl (Finset.notMem_empty id)) rfl ids
    simp only [bind, Except.bind, Except.map, hw, or_true, if_true]
    refine ⟨_, rfl, ownedBy_append howned (ownedBy_siMeta rfl rfl), fun hfits => ?_⟩
    refine .commit_insert h.only howned hrep' ⟨hm'.rtype, hm'.expireAt, ?_⟩ (by simpa using hnil)
    have hlt := hrep'.card_lt rfl hfits
    rw [hm'.size]
    exact min_eq_left (by omega)
  · have hX : S.live now ≠ ∅ := hlive ▸ hne
    rw [hget, if_neg hX, hlive]
    have hrep : SiRep (s.apply []) kc key S.ids := h.rep
    obtain ⟨m', ops', hw, howned, hrep', hm'⟩ := siAddIds_spec false hrep
      (fun _ ho => (List.not_mem_nil ho).elim) (fun id => by
        rw [isNew, Bool.false_or, Bool.not_eq_true', ← Bool.not_eq_true, isStored_iff h.rep]) hl.size ids
    simp only [bind, Except.bind, Except.map, hw, Bool.false_eq_true, or_false]
    by_cases hcount : (ids.toFinset \ S.ids).card > 0
    · rw [if_pos hcount]
      refine ⟨_, rfl, ownedBy_append howned (ownedBy_siMeta rfl rfl), fun hfits => ?_⟩
      have hlt := hrep'.card_lt rfl hfits
      refine .commit_insert h.only howned hrep' (hm'.layout hl (min_eq_left (by omega))) ?_
      exact Finset.Nonempty.ne_empty ((Finset.nonempty_iff_ne_empty.mpr hne).mono
        Finset.subset_union_left)
    · rw [if_neg hcount]
      have hsub : ids.toFinset ⊆ S.ids := Finset.sdiff_eq_empty_iff_subset.mp
        (Finset.card_eq_zero.mp (by omega))
      refine ⟨[], rfl, ?_⟩
      rw [Finset.union_eq_left.mpr hsub]
      exact h.leaves_nil

/-! ## Removing -/

theorem SiHolds.removed (h : SiHolds s kc key S) (hlive : S.live now = S.ids) (hl : SiLayout m S)
    (hm : SiResized m m' (S.ids.card - xs.length)) (hnodup : xs.Nodup) (hsub : xs.toFinset ⊆ S.ids)
    (hne : xs ≠ []) : SiLeaves s kc key (xs.map (removeItem kc key) ++ [siMetaOp kc key m'])
      (S.without now xs.toFinset) := by
  have howned : ∀ o ∈ xs.map (removeItem kc key), o.OwnedBy kc key .sortedIntMeta :=
    mem_items_owned (fun _ => rfl) fun _ => rfl
  have hrep := h.rep.removeItems xs
  have hcard : (S.ids \ xs.toFinset).card = S.ids.card - xs.length := by
    rw [Finset.card_sdiff_of_subset hsub, List.toFinset_card_of_nodup hnodup]
  have hinter : S.live now ∩ xs.toFinset ≠ ∅ := by
    rw [hlive, Finset.inter_eq_right.mpr hsub]
    simpa using hne
  rw [IdSet.without, if_neg hinter, hlive, siMetaOp]
  by_cases hempty : S.ids \ xs.toFinset = ∅
  · have hzero : m'.base.size = 0 := by
      refine UInt64.toNat_inj.mp ?_
      rw [hm.size, ← hcard, hempty]
      rfl
    rw [if_pos hempty, if_pos hzero]
    rw [hempty] at hrep
    exact ⟨ownedBy_append howned (ownedBy_siMeta rfl rfl), fun _ => .commit_rm h.only howned hrep⟩
  · have hpos : m'.base.size ≠ 0 := by
      intro h0
      have hsize := hm.size
      rw [h0, ← hcard] at hsize
      exact hempty (Finset.card_eq_zero.mp hsize.symm)
    rw [if_neg hempty, if_neg hpos]
    exact ⟨ownedBy_append howned (ownedBy_siMeta rfl rfl),
      fun _ => .commit_insert h.only howned hrep (hm.layout hl hcard.symm) hempty⟩

variable (s kc key) in
theorem foldl_siRemStep (w : SiWork) (xs : List UInt64) :
    ∃ m', xs.foldl (siRemStep s kc key) w =
        ⟨m', w.ops ++ (xs.filter (isStored s kc key)).map (removeItem kc key),
          w.count + (xs.filter (isStored s kc key)).length⟩ ∧
      SiResized w.m m' (w.m.base.size.toNat - (xs.filter (isStored s kc key)).length) := by
  induction xs generalizing w with
  | nil => exact ⟨w.m, by simp, rfl, rfl, rfl⟩
  | cons id xs ih =>
    rw [List.foldl_cons]
    by_cases hstored : isStored s kc key id = true
    · have hstep : siRemStep s kc key w id =
          ⟨w.m.setSize (w.m.base.size.satSub 1), w.ops ++ [removeItem kc key id], w.count + 1⟩ :=
        if_pos hstored
      obtain ⟨m', hfold, hm'⟩ := ih ⟨w.m.setSize (w.m.base.size.satSub 1),
        w.ops ++ [removeItem kc key id], w.count + 1⟩
      refine ⟨m', ?_, hm'.rtype, hm'.expireAt, ?_⟩
      · rw [hstep, hfold, List.filter_cons_of_pos hstored, List.map_cons, List.length_cons,
          List.append_assoc, List.singleton_append, Nat.add_right_comm, Nat.add_assoc]
      · rw [hm'.size, SimpleMeta.setSize_base, UInt64.toNat_satSub, List.filter_cons_of_pos hstored,
          List.length_cons, UInt64.toNat_one]
        omega
    · have hstep : siRemStep s kc key w id = w := if_neg hstored
      rw [hstep, List.filter_cons_of_neg hstored]
      exact ih w

theorem siRemIds_eq (w : SiWork) (ids : List UInt64) :
    siRemIds s kc key w ids = (distinctIds ids).foldl (siRemStep s kc key) w := by
  rcases ids with _ | ⟨id, _ | ⟨id', rest⟩⟩ <;> rfl

theorem IdSet.without_of_inter {gone : Finset UInt64} (h : S.live now ∩ gone = ∅) :
    S.without now gone = S := if_pos h

theorem IdSet.without_inter (S : IdSet) (now : UInt64) (gone : Finset UInt64) :
    S.without now (S.live now ∩ gone) = S.without now gone := by
  rw [without, without, ← Finset.inter_assoc, Finset.inter_self, Finset.sdiff_inter_self_left]

theorem siRem_spec (h : SiHolds s kc key S) (now : UInt64) (ids : List UInt64) :
    ∃ ops, siRem s kc key now ids = .ok ((S.live now ∩ ids.toFinset).card, ops) ∧
      SiLeaves s kc key ops (S.without now ids.toFinset) := by
  rw [siRem]
  by_cases hnil : ids = []
  · rw [if_pos hnil, hnil]
    refine ⟨[], by simp [pure, Except.pure], ?_⟩
    rw [IdSet.without_of_inter (by simp)]
    exact h.leaves_nil
  rw [if_neg hnil]
  rcases h.getSiMeta now with ⟨hdead, hget⟩ | ⟨hlive, hne, m, hget, hl⟩
  · rw [hget, hdead, Finset.empty_inter, IdSet.without_of_inter (by rw [hdead, Finset.empty_inter])]
    exact ⟨[], rfl, h.leaves_nil⟩
  · obtain ⟨m', hfold, hm'⟩ := foldl_siRemStep s kc key ⟨m, [], 0⟩
      (distinctIds ids)
    set gone := (distinctIds ids).filter (isStored s kc key) with hgone
    have hset : gone.toFinset = S.live now ∩ ids.toFinset := by
      rw [hgone, toFinset_filter_distinctIds, hlive, Finset.inter_comm, ← Finset.filter_mem_eq_inter]
      exact Finset.filter_congr fun id _ => isStored_iff h.rep id
    have hnodup : gone.Nodup := (distinctIds_nodup ids).filter _
    have hcard : gone.length = (S.live now ∩ ids.toFinset).card := by
      rw [← hset, List.toFinset_card_of_nodup hnodup]
    rw [hget]
    simp only [bind, Except.bind]
    rw [siRemIds_eq, hfold]
    simp only [Nat.zero_add, List.nil_append]
    by_cases hcount : gone.length > 0
    · rw [if_pos hcount, hcard, ← IdSet.without_inter, ← hset]
      rw [hl.size] at hm'
      refine ⟨_, rfl, h.removed hlive hl hm' hnodup ?_ (List.ne_nil_of_length_pos hcount)⟩
      rw [hset, hlive]
      exact Finset.inter_subset_left
    · rw [if_neg hcount, hcard]
      refine ⟨[], rfl, ?_⟩
      rw [IdSet.without_of_inter (Finset.card_eq_zero.mp (by omega))]
      exact h.leaves_nil

end Wedb
