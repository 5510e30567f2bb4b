import Wedb.ZSet.Ranges

/-!
# What reads see and what fresh writes leave

A read sees the members of a sorted set while its metadata is live. Adding members where no live
value is in the way leaves exactly these members, each with its last score.
-/

universe u

namespace Wedb

/-- What a read of a sorted set sees: its members while its metadata is live. -/
structure ZSetReads (s : Store) (kc : KeyComposer) (key : Key) (now : UInt64) (M : ZMembers) :
    Prop where
  absent : M.length = 0 → getZsetMeta s kc key now = .ok none
  present : M.length ≠ 0 → ZSetRep s kc key M ∧ ∃ m : ZSetMeta,
    getZsetMeta s kc key now = .ok (some m) ∧ m.base.size ≠ 0

section

variable {s : Store} {kc : KeyComposer} {key : Key} {now : UInt64} {M : ZMembers}

theorem ZSetReads.numbers (h : ZSetReads s kc key now M) {x : ZSetMemberScore}
    (hx : x ∈ M.ranked) : x.2.isNan = false := by
  by_cases h0 : M.length = 0
  · rw [ZMembers.ranked_of_length h0] at hx
    cases hx
  · exact (h.present h0).1.numbers_ranked hx

theorem ZSetReads.zcard (h : ZSetReads s kc key now M) :
    ∃ card, zcard s kc key now = .ok card ∧ (card = 0 ↔ M.length = 0) := by
  rw [Wedb.zcard]
  by_cases h0 : M.length = 0
  · rw [h.absent h0]
    exact ⟨0, rfl, iff_of_true rfl h0⟩
  · obtain ⟨-, m, hget, hsize⟩ := h.present h0
    rw [hget]
    exact ⟨m.base.size, rfl, iff_of_false hsize h0⟩

theorem ZSetReads.zscore (h : ZSetReads s kc key now M) (member : Bytes) :
    zscore s kc key now member = .ok (M.get member) := by
  rw [Wedb.zscore]
  by_cases h0 : M.length = 0
  · rw [h.absent h0, SortedMap.eq_empty_of_length h0]
    rfl
  · obtain ⟨hrep, m, hget, -⟩ := h.present h0
    rw [hget]
    simp only [Except.map, get_composeZsetKey, hrep.members]
    cases M.get member with
    | none => rfl
    | some score =>
      rw [Option.map_some, Option.bind_some, decodeSortableF64Slice_encode]

theorem ZSetReads.congr {s' : Store} (h : ZSetReads s kc key now M)
    (hat : ∀ slot : Slot, slot.Valid → s'.at ⟨kc, key, slot⟩ = s.at ⟨kc, key, slot⟩) :
    ZSetReads s' kc key now M := by
  have hmeta : s'.metadata.get (composeZsetMetaKey kc key) =
      s.metadata.get (composeZsetMetaKey kc key) := hat (.metadata .zSetMeta) rfl
  have hother : ∀ u ∈ allCompositeMetaTags, u ≠ MetaOps.tag ZSetMeta →
      s'.at ⟨kc, key, .metadata u⟩ = s.at ⟨kc, key, .metadata u⟩ := by
    intro u hu _
    exact hat (.metadata u) (allCompositeMetaTags_isMeta hu)
  have hget : getZsetMeta s' kc key now = getZsetMeta s kc key now := by
    rw [getZsetMeta, getZsetMeta, getMetaChecked_congr (hat .str trivial) hother hmeta]
  have hfamily : ∀ tag : KeyTag, tag.isFramed = true →
      s'.family kc key tag = s.family kc key tag := by
    intro tag htag
    exact Store.family_congr fun suffix => hat (.sub tag suffix) htag
  refine ⟨fun h0 => hget.trans (h.absent h0), fun h0 => ?_⟩
  obtain ⟨hrep, m, hm, hsize⟩ := h.present h0
  refine ⟨⟨?_, ?_, hrep.numbers⟩, m, hget.trans hm, hsize⟩
  · rw [hfamily .zSetData rfl]
    exact hrep.members
  · rw [hfamily .zSetScore rfl]
    exact hrep.index

/-! ## Fresh writes -/

theorem ZMembers.get_with {M : ZMembers} {xs : List (Bytes × F64)}
    (hnodup : (xs.map Prod.fst).Nodup) (member : Bytes) (score : F64) :
    (M.with xs).get member = some score ↔ (member, score) ∈ xs ∨
      member ∉ xs.map Prod.fst ∧ M.get member = some score := by
  obtain ⟨hin, hout⟩ := SortedMap.get_foldl_merge (fun _ score => score) hnodup M member
  by_cases hmem : member ∈ xs.map Prod.fst
  · obtain ⟨x, hx, rfl⟩ := List.mem_map.mp hmem
    have hget : (M.with xs).get x.1 = some x.2 := hin x.2 hx
    rw [or_iff_left fun h => h.1 hmem, hget, Option.some.injEq]
    constructor
    · rintro rfl
      exact hx
    · intro hscore
      exact Option.some.inj (hget.symm.trans (hin score hscore))
  · have hget : (M.with xs).get member = M.get member := hout hmem
    rw [hget, or_iff_right fun h => hmem (List.mem_map_of_mem h), and_iff_right hmem]

theorem ZMembers.length_with {M : ZMembers} {xs : List (Bytes × F64)}
    (hM : ∀ x ∈ xs, M.get x.1 = none) (hnodup : (xs.map Prod.fst).Nodup) :
    (M.with xs).length = M.length + xs.length := by
  induction xs generalizing M with
  | nil => rfl
  | cons x xs ih =>
    rw [List.map_cons, List.nodup_cons] at hnodup
    have hcons : M.with (x :: xs) = ZMembers.with (M.insert x.1 x.2) xs := rfl
    have hlen := SortedMap.length_insert_of_get_none x.2 (hM x List.mem_cons_self)
    rw [hcons, ih (fun y hy => ?_) hnodup.2, hlen, List.length_cons]
    · omega
    · have hne : x.1 ≠ y.1 := fun he => hnodup.1 (he ▸ List.mem_map_of_mem hy)
      rw [SortedMap.get_insert_of_ne _ _ hne]
      exact hM y (List.mem_cons_of_mem _ hy)

variable {version : UInt64} {flags : ZAddFlags} {w : ZAddWork}

theorem zaddLoop_fresh {xs : List (Bytes × F64)} (hxx : flags.xx = false)
    (h : ZAddReached s kc key w M) (hM : ∀ x ∈ xs, M.get x.1 = none)
    (hnan : ∀ x ∈ xs, x.2.isNan = false) (hnodup : (xs.map Prod.fst).Nodup) :
    ∃ w', xs.foldlM (zaddStep s kc key flags false) w = .ok w' ∧
      ZAddReached s kc key w' (M.with xs) ∧ w'.added = w.added + xs.length := by
  induction xs generalizing w M with
  | nil => exact ⟨w, rfl, h, rfl⟩
  | cons x xs ih =>
    rw [List.map_cons, List.nodup_cons] at hnodup
    have hstep : zaddStep s kc key flags false w x = .ok (w.add kc key x.2 x.1) := by
      rw [zaddStep, oldScoreBytes, if_neg Bool.false_ne_true]
      simp only [hxx, Bool.false_eq_true, if_false]
    obtain ⟨w', hrun, hreached, hadded⟩ :=
      ih (h.add (hM x List.mem_cons_self) (hnan x List.mem_cons_self))
        (fun y hy => by
          have hne : x.1 ≠ y.1 := fun he => hnodup.1 (he ▸ List.mem_map_of_mem hy)
          rw [SortedMap.get_insert_of_ne _ _ hne]
          exact hM y (List.mem_cons_of_mem _ hy))
        (fun y hy => hnan y (List.mem_cons_of_mem _ hy)) hnodup.2
    refine ⟨w', ?_, hreached, ?_⟩
    · rw [List.foldlM_cons, hstep]
      exact hrun
    · rw [hadded, ZAddWork.add, List.length_cons]
      dsimp only
      omega

def lastScores (scoreMembers : List (F64 × Bytes)) : List (Bytes × F64) :=
  keepFirst (scoreMembers.reverse.map Prod.swap) []

theorem zaddMembers_fresh {scoreMembers : List (F64 × Bytes)} (hxx : flags.xx = false)
    (h : ZAddReached s kc key w ∅) (hnan : ∀ x ∈ scoreMembers, x.1.isNan = false) :
    ∃ w', zaddMembers s kc key flags false w scoreMembers = .ok (some w') ∧
      ZAddReached s kc key w' (ZMembers.with ∅ (lastScores scoreMembers)) ∧
      w'.added = w.added + (lastScores scoreMembers).length := by
  have hlast : ∀ x ∈ lastScores scoreMembers, x.2.isNan = false := by
    intro x hx
    obtain ⟨y, hy, rfl⟩ := List.mem_map.mp (keepFirst_subset hx)
    exact hnan y (List.mem_reverse.mp hy)
  obtain ⟨w', hrun, hreached, hadded⟩ :=
    zaddLoop_fresh hxx h (fun x _ => rfl) hlast (keepFirst_nodup _ _).1
  refine ⟨w', ?_, hreached, hadded⟩
  rcases scoreMembers with _ | ⟨⟨score, member⟩, _ | ⟨y, ys⟩⟩
  · rw [zaddMembers]
    · exact congrArg (Except.map some) hrun
    · simp
  · have hone : lastScores [(score, member)] = [(member, score)] := rfl
    rw [hone, List.foldlM_cons, zaddStep, oldScoreBytes, if_neg Bool.false_ne_true] at hrun
    simp only [hxx, Bool.false_eq_true, if_false] at hrun
    cases hrun
    rw [zaddMembers, zaddSingle, oldScoreBytes, if_neg Bool.false_ne_true]
    simp only [hxx, Bool.false_eq_true, if_false]
  · rw [zaddMembers]
    · exact congrArg (Except.map some) hrun
    · simp

/-- What is queued for fresh members belongs to the key, and a read sees these members. -/
structure ZSetFresh (s : Store) (kc : KeyComposer) (key : Key) (now : UInt64)
    (xs : List (Bytes × F64)) (ops : Batch) : Prop where
  owned : ∀ o ∈ ops, o.OwnedBy kc key .zSetMeta
  reads : (s.apply ops).Fits → ZSetReads (s.apply ops) kc key now (ZMembers.with ∅ xs)

theorem zadd_fresh (hcheck : checkKeyNotOtherType s kc key now .zSetMeta = .ok ())
    (hnone : getMetaChecked ZSetMeta s kc key (composeZsetMetaKey kc key) now = .ok none)
    {scoreMembers : List (F64 × Bytes)} (hne : scoreMembers ≠ [])
    (hnan : ∀ x ∈ scoreMembers, x.1.isNan = false) :
    ∃ ops, zadd s kc key now version scoreMembers [] =
      .ok ((lastScores scoreMembers).length, ops) ∧
      ZSetFresh s kc key now (lastScores scoreMembers) ops := by
  set clear := clearPrefixInBatch s .data (composeZsetPrefix kc key) ++
    clearPrefixInBatch s .data (composeZsetScorePrefix kc key) with hclear
  have hprep : prepareZsetMetaForWrite s kc key now version =
      .ok (.new 0 version 0, false, clear) := by
    rw [prepareZsetMetaForWrite, hnone]
    rfl
  have hstart : ZAddReached s kc key ⟨.new 0 version 0, clear, 0, 0⟩ ∅ :=
    ⟨fun o ho => mem_clearZset ho, zsetRep_clear s kc key, rfl, rfl, rfl, fun h0 => by simp at h0⟩
  obtain ⟨w', hrun, hreached, hadded⟩ :=
    @zaddMembers_fresh s kc key (.fromOptions []) _ scoreMembers rfl hstart hnan
  have hpos : 0 < (lastScores scoreMembers).length := by
    refine List.length_pos_iff.mpr (keepFirst_ne_nil fun hnil => hne ?_)
    rwa [List.map_eq_nil_iff, List.reverse_eq_nil_iff] at hnil
  rw [zero_add] at hadded
  have hany : (scoreMembers.any fun x => x.1.isNan) = false := by
    rw [List.any_eq_false]
    intro x hx
    rw [hnan x hx]
    exact Bool.false_ne_true
  have howned : ∀ o ∈ w'.ops ++ [.insertMeta (composeZsetMetaKey kc key) w'.m.encode],
      o.OwnedBy kc key .zSetMeta := by
    refine mem_append_owned hreached.owned fun o ho => ?_
    rw [List.mem_singleton.mp ho]
    exact ownedBy_zsetMeta rfl rfl
  refine ⟨w'.ops ++ [.insertMeta (composeZsetMetaKey kc key) w'.m.encode], ?_, howned,
    fun hfits => ?_⟩
  · unfold zadd
    dsimp only
    rw [if_neg hne, hany, hprep]
    simp only [ZAddFlags.fromOptions, List.contains_nil, Bool.and_self, Bool.or_self,
      Bool.false_and, Bool.false_eq_true, if_false, bind, Except.bind]
    rw [ZAddFlags.fromOptions] at hrun
    simp only [List.contains_nil] at hrun
    rw [hrun]
    simp only [zaddCommit, Bool.false_eq_true, if_false]
    rw [if_pos (Or.inl (by omega)), hadded]
    rfl
  · have hlen : (ZMembers.with ∅ (lastScores scoreMembers)).length =
        (lastScores scoreMembers).length := by
      have h := @ZMembers.length_with ∅ (lastScores scoreMembers) (fun x _ => rfl)
        (keepFirst_nodup _ _).1
      exact h.trans (Nat.zero_add _)
    have hrep : ZSetRep
        (s.apply (w'.ops ++ [.insertMeta (composeZsetMetaKey kc key) w'.m.encode])) kc key
        (ZMembers.with ∅ (lastScores scoreMembers)) := by
      rw [Store.apply_append]
      exact hreached.rep.applyMeta (o := .insertMeta (composeZsetMetaKey kc key) w'.m.encode) rfl
    have hlt := hfits.length_family_lt kc key .zSetData
    rw [hrep.length_data] at hlt
    have hsize : w'.m.base.size ≠ 0 := by
      intro hzero
      have hmin := hreached.size
      rw [hzero, hlen] at hmin
      have hzeroNat : (0 : UInt64).toNat = 0 := rfl
      omega
    have hstored : (s.apply (w'.ops ++
        [.insertMeta (composeZsetMetaKey kc key) w'.m.encode])).metadata.get
          (composeZsetMetaKey kc key) = some w'.m.encode := by
      rw [Store.apply_append, Store.apply_cons, Store.apply_nil, Store.applyOp_insertMeta]
      exact SortedMap.get_insert_self _ _ _
    have hlive : w'.m.isExpired now = false :=
      SimpleMeta.isExpired_eq_false hsize (.inl hreached.expireAt)
    have hcheck' := (checkKeyNotOtherType_apply_of_owned howned now).trans hcheck
    have hget : getZsetMeta (s.apply (w'.ops ++
        [.insertMeta (composeZsetMetaKey kc key) w'.m.encode])) kc key now = .ok (some w'.m) := by
      have hdecode : MetaOps.decode (M := ZSetMeta) w'.m.encode = some w'.m :=
        SimpleMeta.decode_encode hreached.rtype
      have hexpired : MetaOps.isExpired w'.m now = false := hlive
      have hempty : w'.m.isEmpty = false := by
        rw [SimpleMeta.isEmpty, beq_eq_false_iff_ne]
        exact hsize
      rw [getZsetMeta, getMetaChecked_of_check hcheck', hstored, Option.bind_some, hdecode]
      simp only [Except.map, Option.filter, hexpired, hempty, Bool.not_false, if_true]
    refine ⟨fun h0 => ?_, fun _ => ⟨hrep, w'.m, hget, hsize⟩⟩
    omega

end

end Wedb
