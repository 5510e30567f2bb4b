import Wedb.ZSet.Stored

/-!
# Adding members keeps the indexes

A call visits a member once, so the score it loads for a member is the score the
queue has for it. Each pair adds a member, changes its score or is left out.
-/

namespace Wedb

variable {s : Store} {kc : KeyComposer} {key : Key} {M M₀ : ZMembers} {m : ZSetMeta}
  {now version : UInt64} {ops : Batch} {existed : Bool} {flags : ZAddFlags} {w w' : ZAddWork}
  {score : F64} {member : Bytes}

/-- The queue belongs to the sorted set and leaves one behind. -/
def ZSetKept (s : Store) (kc : KeyComposer) (key : Key) (ops : Batch) : Prop :=
  (∀ o ∈ ops, o.OwnedBy kc key .zSetMeta) ∧ ∃ M, ZSetHolds (s.apply ops) kc key M

theorem ZSetHolds.kept_nil (h : ZSetHolds s kc key M) : ZSetKept s kc key [] :=
  ⟨fun _ ho => (List.not_mem_nil ho).elim, M, h⟩

/-- What a write starts from: the members as stored, with metadata that counts them. -/
structure ZSetPrepared (s : Store) (kc : KeyComposer) (key : Key) (M : ZMembers) (m : ZSetMeta)
    (existed : Bool) (ops : Batch) : Prop where
  owned : ∀ o ∈ ops, o.OwnedBy kc key .zSetMeta
  rep : ZSetRep (s.apply ops) kc key M
  layout : ZSetLayout m M
  loaded : ∀ a, oldScoreBytes s kc key existed a = (M.get a).map encodeSortableF64

theorem prepareZsetMetaForWrite_spec (h : ZSetHolds s kc key M)
    (hrun : prepareZsetMetaForWrite s kc key now version = .ok (m, existed, ops)) :
    ZSetPrepared s kc key M m existed ops := by
  rw [prepareZsetMetaForWrite] at hrun
  rcases h.getMetaChecked now with ⟨h0, hget⟩ | ⟨hne, m', hget, hl⟩
  · rw [hget] at hrun
    cases hrun
    rw [SortedMap.eq_empty_of_length h0]
    exact ⟨fun o ho => mem_clearZset ho, zsetRep_clear s kc key, ⟨rfl, rfl, rfl⟩, fun a => rfl⟩
  · rw [hget] at hrun
    cases hrun
    refine ⟨fun o ho => (List.not_mem_nil ho).elim, h.rep, hl, fun a => ?_⟩
    rw [oldScoreBytes, if_pos rfl, get_composeZsetKey, h.rep.members]

theorem oldScore_decoded (old : F64) :
    (decodeSortableF64Slice (encodeSortableF64 old)).getD .zero = old := by
  rw [decodeSortableF64Slice_encode, Option.getD_some]

/-- The queue holds the members the work has reached. -/
structure ZAddReached (s : Store) (kc : KeyComposer) (key : Key) (w : ZAddWork) (M : ZMembers) :
    Prop where
  owned : ∀ o ∈ w.ops, o.OwnedBy kc key .zSetMeta
  rep : ZSetRep (s.apply w.ops) kc key M
  rtype : w.m.base.rtype = .zSet
  expireAt : w.m.base.expireAt = 0
  size : w.m.base.size.toNat = min M.length (2 ^ 64 - 1)
  written : w.added > 0 ∨ w.changed > 0 → M.length ≠ 0

theorem ZSetPrepared.reached (h : ZSetPrepared s kc key M m existed ops) :
    ZAddReached s kc key ⟨m, ops, 0, 0⟩ M := by
  refine ⟨h.owned, h.rep, h.layout.rtype, h.layout.expireAt, ?_, fun h0 => by simp at h0⟩
  have hlt := m.base.size.toNat_lt
  have hsize := h.layout.size
  show m.base.size.toNat = _
  omega

theorem mem_append_owned {ops ops' : Batch} (h : ∀ o ∈ ops, o.OwnedBy kc key .zSetMeta)
    (h' : ∀ o ∈ ops', o.OwnedBy kc key .zSetMeta) (o : WriteOp) (ho : o ∈ ops ++ ops') :
    o.OwnedBy kc key .zSetMeta := (List.mem_append.mp ho).elim (h o) (h' o)

theorem ZAddReached.add (h : ZAddReached s kc key w M) (hM : M.get member = none)
    (hscore : score.isNan = false) :
    ZAddReached s kc key (w.add kc key score member) (M.insert member score) := by
  have hlen := SortedMap.length_insert_of_get_none score hM
  refine ⟨mem_append_owned h.owned fun o => mem_insertMemberOps, ?_, h.rtype, h.expireAt, ?_, fun _ => ?_⟩
  · rw [ZAddWork.add, Store.apply_append]
    exact h.rep.add hM hscore
  · rw [ZAddWork.add, SimpleMeta.setSize_base, UInt64.toNat_satAdd_eq_min, h.size, hlen]
    have hone : (1 : UInt64).toNat = 1 := rfl
    omega
  · omega

theorem ZAddReached.change {old : F64} (h : ZAddReached s kc key w M) (hM : M.get member = some old)
    (hscore : score.isNan = false) :
    ZAddReached s kc key (w.change kc key (composeZsetScoreKey kc key old member) score member)
      (M.insert member score) := by
  have hlen := SortedMap.length_insert_of_get_some (b := score) hM
  have hpos := SortedMap.length_pos hM
  refine ⟨mem_append_owned h.owned fun o ho => ?_, ?_, h.rtype, h.expireAt, ?_, fun _ => ?_⟩
  · rcases List.mem_cons.mp ho with rfl | ho
    · exact ownedBy_sub .zSetScore rfl rfl (composeZsetScoreKey_eq_phys kc key old member)
    · exact mem_insertMemberOps ho
  · rw [ZAddWork.change, Store.apply_append]
    exact h.rep.change hM hscore
  · rw [hlen]
    exact h.size
  · omega

theorem zaddStep_spec (h : ZAddReached s kc key w M) {x : Bytes × F64}
    (hload : oldScoreBytes s kc key existed x.1 = (M.get x.1).map encodeSortableF64)
    (hx : x.2.isNan = false) (hrun : zaddStep s kc key flags existed w x = .ok w') :
    ∃ M', ZAddReached s kc key w' M' ∧ ∀ a, a ≠ x.1 → M'.get a = M.get a := by
  rw [zaddStep, hload] at hrun
  cases hget : M.get x.1 with
  | none =>
    rw [hget] at hrun
    simp only [Option.map_none] at hrun
    split_ifs at hrun
    · cases hrun
      exact ⟨M, h, fun _ _ => rfl⟩
    · cases hrun
      exact ⟨_, h.add hget hx, fun a ha => SortedMap.get_insert_of_ne _ _ ha.symm⟩
  | some old =>
    have htake : (encodeSortableF64 old).take 8 = encodeSortableF64 old :=
      List.take_of_length_le (by simp)
    rw [hget] at hrun
    simp only [Option.map_some, oldScore_decoded, htake, ← composeZsetScoreKey_eq] at hrun
    split_ifs at hrun
    all_goals cases hrun
    · exact ⟨M, h, fun _ _ => rfl⟩
    · exact ⟨M, h, fun _ _ => rfl⟩
    · exact ⟨_, h.change hget hx, fun a ha => SortedMap.get_insert_of_ne _ _ ha.symm⟩
    · exact ⟨M, h, fun _ _ => rfl⟩

theorem zaddSingle_spec (h : ZAddReached s kc key w M)
    (hload : oldScoreBytes s kc key existed member = (M.get member).map encodeSortableF64)
    (hscore : score.isNan = false)
    (hrun : zaddSingle s kc key flags existed w score member = .ok (some w')) :
    ∃ M', ZAddReached s kc key w' M' := by
  rw [zaddSingle, hload] at hrun
  cases hget : M.get member with
  | none =>
    rw [hget] at hrun
    simp only [Option.map_none] at hrun
    split_ifs at hrun
    · cases hrun
      exact ⟨M, h⟩
    · cases hrun
      exact ⟨_, h.add hget hscore⟩
  | some old =>
    rw [hget] at hrun
    simp only [Option.map_some, oldScore_decoded] at hrun
    generalize hfinal : (if flags.incr = true then old.add score else score) = final at hrun
    by_cases hnx : flags.nx = true
    · rw [if_pos hnx] at hrun
      cases hrun
      exact ⟨M, h⟩
    · rw [if_neg hnx] at hrun
      split_ifs at hrun with hearly hnan
      all_goals cases hrun
      · exact ⟨_, h.change hget (by simpa using hnan)⟩
      · exact ⟨M, h⟩

theorem zaddLoop_spec {xs : List (Bytes × F64)} (h : ZAddReached s kc key w M)
    (hload : ∀ x ∈ xs, oldScoreBytes s kc key existed x.1 = (M.get x.1).map encodeSortableF64)
    (hnan : ∀ x ∈ xs, x.2.isNan = false) (hnodup : (xs.map Prod.fst).Nodup)
    (hrun : xs.foldlM (zaddStep s kc key flags existed) w = .ok w') :
    ∃ M', ZAddReached s kc key w' M' := by
  induction xs generalizing w M with
  | nil =>
    cases hrun
    exact ⟨M, h⟩
  | cons x xs ih =>
    rw [List.map_cons, List.nodup_cons] at hnodup
    rw [List.foldlM_cons] at hrun
    obtain ⟨w1, hstep, hrun⟩ := bind_eq_ok hrun
    obtain ⟨M1, hreached, hother⟩ := zaddStep_spec h (hload x (by simp)) (hnan x (by simp)) hstep
    refine ih hreached (fun y hy => ?_) (fun y hy => hnan y (by simp [hy])) hnodup.2 hrun
    have hne : y.1 ≠ x.1 := fun he => hnodup.1 (he ▸ List.mem_map_of_mem hy)
    rw [hother y.1 hne]
    exact hload y (by simp [hy])

theorem ZAddReached.kept (h : ZAddReached s kc key w M) (honly : HoldsOnly s kc key .zSetMeta)
    (hw : w.added > 0 ∨ w.changed > 0)
    (hfits : (s.apply (w.ops ++ [.insertMeta (composeZsetMetaKey kc key) w.m.encode])).Fits) :
    ZSetKept s kc key (w.ops ++ [.insertMeta (composeZsetMetaKey kc key) w.m.encode]) := by
  have hlt : M.length < 2 ^ 64 := by
    have hrep : ZSetRep (s.apply (w.ops ++ [.insertMeta (composeZsetMetaKey kc key) w.m.encode])) kc
        key M := by
      rw [Store.apply_append]
      exact h.rep.applyMeta (o := .insertMeta (composeZsetMetaKey kc key) w.m.encode) rfl
    rw [← hrep.length_data]
    exact hfits.length_family_lt kc key .zSetData
  have hsize := h.size
  refine ⟨mem_append_owned h.owned fun o ho => ?_, M,
    .commit_insert honly h.owned h.rep ⟨h.rtype, h.expireAt, by omega⟩ (h.written hw)⟩
  rw [List.mem_singleton.mp ho]
  exact ownedBy_zsetMeta rfl rfl

theorem zaddSeveral_spec (h : ZAddReached s kc key w M)
    (hload : ∀ a, oldScoreBytes s kc key existed a = (M.get a).map encodeSortableF64)
    {scoreMembers : List (F64 × Bytes)} (hnan : ∀ x ∈ scoreMembers, x.1.isNan = false)
    (hrun : ((keepFirst (scoreMembers.reverse.map Prod.swap) []).foldlM
      (zaddStep s kc key flags existed) w).map some = .ok (some w')) :
    ∃ M', ZAddReached s kc key w' M' := by
  obtain ⟨w1, hloop, hrun⟩ := bind_eq_ok hrun
  cases hrun
  refine zaddLoop_spec h (fun x _ => hload x.1) (fun x hx => ?_) (keepFirst_nodup _ _).1 hloop
  obtain ⟨y, hy, rfl⟩ := List.mem_map.mp (keepFirst_subset hx)
  exact hnan y (List.mem_reverse.mp hy)

theorem zaddMembers_spec (h : ZAddReached s kc key w M)
    (hload : ∀ a, oldScoreBytes s kc key existed a = (M.get a).map encodeSortableF64)
    {scoreMembers : List (F64 × Bytes)} (hnan : ∀ x ∈ scoreMembers, x.1.isNan = false)
    (hrun : zaddMembers s kc key flags existed w scoreMembers = .ok (some w')) :
    ∃ M', ZAddReached s kc key w' M' := by
  rcases scoreMembers with _ | ⟨⟨score, member⟩, _ | ⟨y, ys⟩⟩
  · cases hrun
    exact ⟨M, h⟩
  · exact zaddSingle_spec h (hload member) (hnan (score, member) List.mem_cons_self) hrun
  · exact zaddSeveral_spec h hload hnan hrun

theorem zadd_kept (h : ZSetHolds s kc key M) {scoreMembers : List (F64 × Bytes)} {options : List ZAdd}
    {n : ℕ} (hrun : zadd s kc key now version scoreMembers options = .ok (n, ops))
    (hfits : (s.apply ops).Fits) : ZSetKept s kc key ops := by
  unfold zadd at hrun
  dsimp only at hrun
  split_ifs at hrun with hnil hnan hxx hgt hincr
  · cases hrun
    exact h.kept_nil
  · have hnumbers : ∀ x ∈ scoreMembers, x.1.isNan = false := fun x hx => by
      simpa using fun hx' => hnan (List.any_eq_true.mpr ⟨x, hx, hx'⟩)
    obtain ⟨⟨m, existed, ops0⟩, hprep, hrun⟩ := bind_eq_ok hrun
    have hp := prepareZsetMetaForWrite_spec h hprep
    obtain ⟨done, hdone, hrun⟩ := bind_eq_ok hrun
    simp only [pure, Except.pure, Except.ok.injEq] at hrun
    cases done with
    | none =>
      cases hrun
      exact h.kept_nil
    | some w =>
      obtain ⟨M', hreached⟩ := zaddMembers_spec hp.reached hp.loaded hnumbers hdone
      obtain ⟨-, rfl⟩ := Prod.mk.inj hrun
      by_cases hw : w.added > 0 ∨ w.changed > 0
      · rw [if_pos hw] at hfits ⊢
        exact hreached.kept h.only hw hfits
      · rw [if_neg hw]
        exact h.kept_nil

theorem zincrby_kept (h : ZSetHolds s kc key M) {increment result : F64}
    (hrun : zincrby s kc key now version increment member = .ok (result, ops))
    (hfits : (s.apply ops).Fits) : ZSetKept s kc key ops := by
  unfold zincrby at hrun
  by_cases hinc : increment.isNan = true
  · rw [if_pos hinc] at hrun
    cases hrun
  · rw [if_neg hinc] at hrun
    cases hprep : prepareZsetMetaForWrite s kc key now version with
    | error err =>
      rw [hprep] at hrun
      cases hrun
    | ok r =>
      obtain ⟨m, existed, ops0⟩ := r
      have hp := prepareZsetMetaForWrite_spec h hprep
      rw [hprep] at hrun
      simp only [bind, Except.bind, hp.loaded] at hrun
      cases hget : M.get member with
      | none =>
        rw [hget] at hrun
        simp only [Option.map_none] at hrun
        cases hrun
        exact (hp.reached.add hget (by simpa using hinc)).kept h.only (Or.inl (Nat.succ_pos 0)) hfits
      | some old =>
        rw [hget] at hrun
        simp only [Option.map_some, oldScore_decoded] at hrun
        split_ifs at hrun with hnan heq
        all_goals cases hrun
        · have hchange := hp.reached.change hget (show (old.add increment).isNan = false by simpa using hnan)
          have hops : ops0 ++ .rmWeakData (composeZsetScoreKey kc key old member) ::
              insertMemberOps kc key (old.add increment) member =
              (ZAddWork.change kc key ⟨m, ops0, 0, 0⟩ (composeZsetScoreKey kc key old member)
                (old.add increment) member).ops := rfl
          rw [hops] at hfits ⊢
          exact hchange.kept h.only (Or.inr (Nat.succ_pos 0)) hfits
        · exact h.kept_nil

/-! ## Overwriting -/

def ZMembers.with (M : ZMembers) (xs : List (Bytes × F64)) : ZMembers :=
  xs.foldl (fun M x => M.insert x.1 x.2) M

theorem ZSetRep.addAll {xs : List (Bytes × F64)} (h : ZSetRep s kc key M)
    (hxs : ∀ x ∈ xs, M.get x.1 = none ∧ x.2.isNan = false) (hnodup : (xs.map Prod.fst).Nodup) :
    ZSetRep (s.apply (xs.flatMap fun x => insertMemberOps kc key x.2 x.1)) kc key (M.with xs) ∧
      (M.with xs).length = M.length + xs.length := by
  induction xs generalizing s M with
  | nil => exact ⟨h, rfl⟩
  | cons x xs ih =>
    rw [List.map_cons, List.nodup_cons] at hnodup
    obtain ⟨hnone, hnan⟩ := hxs x (by simp)
    have hxs' : ∀ y ∈ xs, (M.insert x.1 x.2).get y.1 = none ∧ y.2.isNan = false := fun y hy => by
      have hne : x.1 ≠ y.1 := fun he => hnodup.1 (he ▸ List.mem_map_of_mem hy)
      rw [SortedMap.get_insert_of_ne _ _ hne]
      exact hxs y (by simp [hy])
    obtain ⟨hrep, hlen⟩ := ih (h.add hnone hnan) hxs' hnodup.2
    rw [List.flatMap_cons, Store.apply_append]
    refine ⟨hrep, ?_⟩
    rw [ZMembers.with, List.foldl_cons]
    rw [ZMembers.with] at hlen
    rw [hlen, SortedMap.length_insert_of_get_none _ hnone, List.length_cons]
    omega

theorem mem_insertions {xs : List (Bytes × F64)} {o : WriteOp}
    (ho : o ∈ xs.flatMap fun x => insertMemberOps kc key x.2 x.1) : o.OwnedBy kc key .zSetMeta := by
  obtain ⟨x, -, hx⟩ := List.mem_flatMap.mp ho
  exact mem_insertMemberOps hx

theorem overwriteZset_kept (h : ZSetHolds s kc key M) {scoreMembers : List (Bytes × F64)} {n : ℕ}
    (hnan : ∀ x ∈ scoreMembers, x.2.isNan = false)
    (hrun : overwriteZset s kc key now version scoreMembers = .ok (n, ops))
    (hfits : (s.apply ops).Fits) : ZSetKept s kc key ops := by
  unfold overwriteZset at hrun
  obtain ⟨u, -, hrun⟩ := bind_eq_ok hrun
  simp only [bind, Except.bind] at hrun
  set distinct := keepFirst scoreMembers [] with hdistinct
  set clear := clearPrefixInBatch s .data (composeZsetPrefix kc key) ++
    clearPrefixInBatch s .data (composeZsetScorePrefix kc key) ++
    [.rmMeta (composeZsetMetaKey kc key)] with hclear
  have hcleared : ZSetHolds (s.apply clear) kc key ∅ :=
    .commit_rm h.only (fun o ho => mem_clearZset ho) (zsetRep_clear s kc key) rfl
  have howned : ∀ o ∈ clear, o.OwnedBy kc key .zSetMeta := by
    refine mem_append_owned (fun o ho => mem_clearZset ho) fun o ho => ?_
    rw [List.mem_singleton.mp ho]
    exact ownedBy_zsetMeta rfl rfl
  have hxs : ∀ x ∈ distinct, (∅ : ZMembers).get x.1 = none ∧ x.2.isNan = false :=
    fun x hx => ⟨rfl, hnan x (keepFirst_subset hx)⟩
  obtain ⟨hrep, hlen⟩ := hcleared.rep.addAll hxs (keepFirst_nodup _ _).1
  by_cases hcount : distinct.length > 0
  · rw [if_pos hcount] at hrun
    cases hrun
    have hops : ∀ o ∈ clear ++ distinct.flatMap (fun x => insertMemberOps kc key x.2 x.1),
        o.OwnedBy kc key .zSetMeta := mem_append_owned howned fun o ho => mem_insertions ho
    have hlt : (ZMembers.with ∅ distinct).length < 2 ^ 64 := by
      have hall : ZSetRep (s.apply (clear ++ distinct.flatMap (fun x => insertMemberOps kc key x.2 x.1) ++
          [.insertMeta (composeZsetMetaKey kc key) (SimpleMeta.encode (.newWithVersion version 0
            (UInt64.ofNat distinct.length) : ZSetMeta))])) kc key (ZMembers.with ∅ distinct) := by
        rw [Store.apply_append, Store.apply_append]
        exact hrep.applyMeta (o := .insertMeta _ _) rfl
      rw [← hall.length_data]
      exact hfits.length_family_lt kc key .zSetData
    have hempty : (∅ : ZMembers).length = 0 := rfl
    rw [← Store.apply_append] at hrep
    refine ⟨mem_append_owned hops fun o ho => ?_, ZMembers.with ∅ distinct,
      .commit_insert h.only hops hrep ⟨rfl, rfl, ?_⟩ (by omega)⟩
    · rw [List.mem_singleton.mp ho]
      exact ownedBy_zsetMeta rfl rfl
    · show (UInt64.ofNat distinct.length).toNat = _
      rw [UInt64.toNat_ofNat_of_lt' (by rw [UInt64.size]; omega)]
      omega
  · rw [if_neg hcount] at hrun
    cases hrun
    have hnil : distinct = [] := List.length_eq_zero_iff.mp (by omega)
    rw [hnil, List.flatMap_nil, List.append_nil]
    exact ⟨howned, ∅, hcleared⟩

end Wedb
