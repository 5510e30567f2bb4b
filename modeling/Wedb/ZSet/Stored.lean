import Wedb.Ordered.Index
import Wedb.ZSet.Queries

/-!
# The members a sorted set stores

A stored sorted set is a map from members to scores: one index holds the encoded
score of each member, the other is the index of the map by encoded score, and the
metadata counts the members. A set without members leaves nothing behind.
-/

namespace Wedb

abbrev ZMembers := SortedMap Bytes F64

/-- The two indexes hold the members. -/
structure ZSetRep (s : Store) (kc : KeyComposer) (key : Key) (M : ZMembers) : Prop where
  members : ∀ a, (s.family kc key .zSetData).get a = (M.get a).map encodeSortableF64
  index : IndexOf encodeSortableF64 M (s.family kc key .zSetScore)
  numbers : ∀ a score, M.get a = some score → score.isNan = false

/-- The metadata counts the members. -/
structure ZSetLayout (m : ZSetMeta) (M : ZMembers) : Prop where
  rtype : m.base.rtype = .zSet
  expireAt : m.base.expireAt = 0
  size : m.base.size.toNat = M.length

/-- The key holds the members of a sorted set, or nothing. -/
structure ZSetHolds (s : Store) (kc : KeyComposer) (key : Key) (M : ZMembers) : Prop where
  only : HoldsOnly s kc key .zSetMeta
  rep : ZSetRep s kc key M
  absent : M.length = 0 → s.metadata.get (composeZsetMetaKey kc key) = none
  present : M.length ≠ 0 → ∃ m : ZSetMeta,
    s.metadata.get (composeZsetMetaKey kc key) = some m.encode ∧ ZSetLayout m M

variable {s t : Store} {kc : KeyComposer} {key : Key} {M : ZMembers} {member : Bytes} {score old : F64}
  {m : ZSetMeta} {now : UInt64} {ops : Batch}

/-! ## Keys of the two indexes -/

theorem composeZsetKey_eq_phys (kc : KeyComposer) (key : Key) (member : Bytes) :
    composeZsetKey kc key member = Addr.phys ⟨kc, key, .sub .zSetData member⟩ := rfl

theorem composeZsetScoreFromBytesKey_eq_phys (kc : KeyComposer) (key : Key) (scoreBytes member : Bytes) :
    composeZsetScoreFromBytesKey kc key scoreBytes member =
      Addr.phys ⟨kc, key, .sub .zSetScore (scoreBytes ++ member)⟩ := by
  rw [composeZsetScoreFromBytesKey, KeyComposer.composeSubkey2Stack_eq, Addr.phys_sub]

theorem composeZsetScoreKey_eq (kc : KeyComposer) (key : Key) (score : F64) (member : Bytes) :
    composeZsetScoreKey kc key score member =
      composeZsetScoreFromBytesKey kc key (encodeSortableF64 score) member := rfl

theorem composeZsetScoreKey_eq_phys (kc : KeyComposer) (key : Key) (score : F64) (member : Bytes) :
    composeZsetScoreKey kc key score member =
      Addr.phys ⟨kc, key, .sub .zSetScore (indexKey encodeSortableF64 (member, score))⟩ :=
  composeZsetScoreFromBytesKey_eq_phys kc key (encodeSortableF64 score) member

theorem composeZsetScoreKey_eq_append (kc : KeyComposer) (key : Key) (score : F64) (member : Bytes) :
    composeZsetScoreKey kc key score member =
      composeZsetScorePrefix kc key ++ indexKey encodeSortableF64 (member, score) := by
  rw [composeZsetScoreKey_eq_phys, Addr.phys_sub]
  rfl

theorem composeZsetKey_eq_append (kc : KeyComposer) (key : Key) (member : Bytes) :
    composeZsetKey kc key member = composeZsetPrefix kc key ++ member := by
  rw [composeZsetKey_eq_phys, Addr.phys_sub]
  rfl

theorem get_composeZsetKey (s : Store) (kc : KeyComposer) (key : Key) (member : Bytes) :
    s.data.get (composeZsetKey kc key member) = (s.family kc key .zSetData).get member := by
  rw [Store.get_family]
  rfl

theorem parseScoreSub_indexKey (member : Bytes) (score : F64) :
    parseScoreSub (indexKey encodeSortableF64 (member, score)) = some (score, member) := by
  have hdrop : (encodeSortableF64 score ++ member).drop scoreLen = member := by
    rw [scoreLen, ← encodeSortableF64_length score, List.drop_left]
  rw [parseScoreSub, indexKey, decodeSortableF64Slice_append, Option.map_some, hdrop]

theorem ZSetRep.data_entries (h : ZSetRep s kc key M) :
    (s.family kc key .zSetData).entries = M.entries.map fun x => (x.1, encodeSortableF64 x.2) := by
  refine SortedMap.eq_of_mem_iff (s.family kc key .zSetData).sorted ?_ fun y => ?_
  · rw [List.pairwise_map]
    exact M.sorted
  · rw [← SortedMap.get_eq_some, h.members, Option.map_eq_some_iff, List.mem_map]
    constructor
    · rintro ⟨c, hc, hy⟩
      exact ⟨(y.1, c), SortedMap.get_eq_some.mp hc, Prod.ext rfl hy⟩
    · rintro ⟨x, hx, rfl⟩
      exact ⟨x.2, SortedMap.get_of_mem hx, rfl⟩

theorem ZSetRep.length_data (h : ZSetRep s kc key M) :
    (s.family kc key .zSetData).length = M.length := by
  rw [SortedMap.length, h.data_entries, List.length_map]
  rfl

/-! ## Writes to one member -/

theorem mem_insertMemberOps {o : WriteOp} (ho : o ∈ insertMemberOps kc key score member) :
    o.OwnedBy kc key .zSetMeta := by
  rw [insertMemberOps, List.mem_pair] at ho
  rcases ho with rfl | rfl
  · exact ownedBy_sub .zSetScore rfl rfl (composeZsetScoreKey_eq_phys kc key score member)
  · exact ownedBy_sub .zSetData rfl rfl rfl

theorem mem_removeMemberOps {o : WriteOp}
    (ho : o ∈ removeMemberOps (some (composeZsetScoreKey kc key score member))
      (composeZsetKey kc key member)) : o.OwnedBy kc key .zSetMeta := by
  simp only [removeMemberOps, Option.map_some, Option.toList_some, List.singleton_append,
    List.mem_pair] at ho
  rcases ho with rfl | rfl
  · exact ownedBy_sub .zSetScore rfl rfl (composeZsetScoreKey_eq_phys kc key score member)
  · exact ownedBy_sub .zSetData rfl rfl rfl

theorem zSetData_applyOp_score {o : WriteOp} {suffix : Bytes} (hp : o.partition = .data)
    (hk : o.key = Addr.phys ⟨kc, key, .sub .zSetScore suffix⟩) :
    (s.applyOp o).family kc key .zSetData = s.family kc key .zSetData :=
  Store.family_applyOp_of_slot (.sub .zSetScore suffix) rfl hp.symm hk.symm rfl
    fun _ h => by cases h

theorem zSetScore_applyOp_member {o : WriteOp} {suffix : Bytes} (hp : o.partition = .data)
    (hk : o.key = Addr.phys ⟨kc, key, .sub .zSetData suffix⟩) :
    (s.applyOp o).family kc key .zSetScore = s.family kc key .zSetScore :=
  Store.family_applyOp_of_slot (.sub .zSetData suffix) rfl hp.symm hk.symm rfl
    fun _ h => by cases h

theorem zSetData_insertMember (s : Store) (kc : KeyComposer) (key : Key) (score : F64) (member : Bytes) :
    (s.apply (insertMemberOps kc key score member)).family kc key .zSetData =
      (s.family kc key .zSetData).insert member (encodeSortableF64 score) := by
  rw [insertMemberOps, Store.apply_cons, Store.apply_cons, Store.apply_nil, composeZsetKey_eq_phys,
    Store.family_insert, zSetData_applyOp_score (o := .insertData (composeZsetScoreKey kc key score member) []) rfl
      (composeZsetScoreKey_eq_phys kc key score member)]

theorem zSetScore_insertMember (s : Store) (kc : KeyComposer) (key : Key) (score : F64) (member : Bytes) :
    (s.apply (insertMemberOps kc key score member)).family kc key .zSetScore =
      (s.family kc key .zSetScore).insert (indexKey encodeSortableF64 (member, score)) [] := by
  rw [insertMemberOps, Store.apply_cons, Store.apply_cons, Store.apply_nil,
    zSetScore_applyOp_member
      (o := .insertData (composeZsetKey kc key member) (encodeSortableF64 score)) rfl
      (composeZsetKey_eq_phys kc key member),
    composeZsetScoreKey_eq_phys, Store.family_insert]

theorem ZSetRep.set_numbers (h : ZSetRep s kc key M) (hscore : score.isNan = false) (a : Bytes) (c : F64)
    (hc : (M.insert member score).get a = some c) : c.isNan = false := by
  rw [SortedMap.get_insert] at hc
  split_ifs at hc
  · cases hc
    exact hscore
  · exact h.numbers a c hc

theorem ZSetRep.set_members (h : ZSetRep s kc key M) (score : F64) (member a : Bytes) :
    ((s.family kc key .zSetData).insert member (encodeSortableF64 score)).get a =
      ((M.insert member score).get a).map encodeSortableF64 := by
  rw [SortedMap.get_insert, SortedMap.get_insert, h.members]
  split_ifs <;> rfl

theorem ZSetRep.add (h : ZSetRep s kc key M) (hM : M.get member = none) (hscore : score.isNan = false) :
    ZSetRep (s.apply (insertMemberOps kc key score member)) kc key (M.insert member score) := by
  refine ⟨fun a => ?_, ?_, h.set_numbers hscore⟩
  · rw [zSetData_insertMember, h.set_members]
  · rw [zSetScore_insertMember]
    exact h.index.insert hM score

theorem ZSetRep.change (h : ZSetRep s kc key M) (hM : M.get member = some old)
    (hscore : score.isNan = false) :
    ZSetRep (s.apply (.rmWeakData (composeZsetScoreKey kc key old member) ::
      insertMemberOps kc key score member)) kc key (M.insert member score) := by
  refine ⟨fun a => ?_, ?_, h.set_numbers hscore⟩
  · rw [Store.apply_cons, zSetData_insertMember,
      zSetData_applyOp_score
        (o := .rmWeakData (composeZsetScoreKey kc key old member)) rfl
        (composeZsetScoreKey_eq_phys kc key old member), h.set_members]
  · rw [Store.apply_cons, zSetScore_insertMember, composeZsetScoreKey_eq_phys, Store.family_rmWeak]
    exact h.index.replace encodeSortableF64_delimited hM score

theorem ZSetRep.remove (h : ZSetRep s kc key M) (hM : M.get member = some old) :
    ZSetRep (s.apply (removeMemberOps (some (composeZsetScoreKey kc key old member))
      (composeZsetKey kc key member))) kc key (M.erase member) := by
  have hops : s.apply (removeMemberOps (some (composeZsetScoreKey kc key old member))
      (composeZsetKey kc key member)) =
      (s.applyOp (.rmWeakData (composeZsetScoreKey kc key old member))).applyOp
        (.rmWeakData (composeZsetKey kc key member)) := rfl
  refine ⟨fun a => ?_, ?_, fun a c hc => ?_⟩
  · rw [hops, composeZsetKey_eq_phys, Store.family_rmWeak,
      zSetData_applyOp_score
        (o := .rmWeakData (composeZsetScoreKey kc key old member)) rfl
        (composeZsetScoreKey_eq_phys kc key old member), SortedMap.get_erase,
      SortedMap.get_erase, h.members]
    split_ifs <;> rfl
  · rw [hops, zSetScore_applyOp_member (o := .rmWeakData (composeZsetKey kc key member)) rfl
      (composeZsetKey_eq_phys kc key member),
      composeZsetScoreKey_eq_phys, Store.family_rmWeak]
    exact h.index.erase encodeSortableF64_delimited hM
  · rw [SortedMap.get_erase] at hc
    split_ifs at hc
    exact h.numbers a c hc

/-! ## Writes to several members -/

def removalOps (kc : KeyComposer) (key : Key) (x : ZSetMemberScore) : Batch :=
  removeMemberOps (some (composeZsetScoreKey kc key x.2 x.1)) (composeZsetKey kc key x.1)

def ZMembers.without (M : ZMembers) (xs : List ZSetMemberScore) : ZMembers :=
  xs.foldl (fun M x => M.erase x.1) M

theorem ZMembers.get_without (M : ZMembers) (xs : List ZSetMemberScore) (a : Bytes) :
    (M.without xs).get a = if a ∈ xs.map Prod.fst then none else M.get a := by
  induction xs generalizing M with
  | nil => rfl
  | cons x xs ih =>
    have hcons : M.without (x :: xs) = ZMembers.without (M.erase x.1) xs := rfl
    rw [hcons, ih, SortedMap.get_erase, List.map_cons]
    by_cases ha : a ∈ xs.map Prod.fst
    · rw [if_pos ha, if_pos (List.mem_cons_of_mem _ ha)]
    · by_cases hx : x.1 = a
      · rw [if_neg ha, if_pos hx, if_pos (hx ▸ List.mem_cons_self)]
      · rw [if_neg ha, if_neg hx, if_neg]
        exact fun hmem => (List.mem_cons.mp hmem).elim (fun he => hx he.symm) ha

theorem ZMembers.length_without {xs : List ZSetMemberScore} (hxs : ∀ x ∈ xs, M.get x.1 = some x.2)
    (hnodup : (xs.map Prod.fst).Nodup) : (M.without xs).length = M.length - xs.length := by
  induction xs generalizing M with
  | nil => rfl
  | cons x xs ih =>
    rw [List.map_cons, List.nodup_cons] at hnodup
    have hcons : M.without (x :: xs) = ZMembers.without (M.erase x.1) xs := rfl
    have hlen := SortedMap.length_erase_of_get_some (hxs x (by simp))
    rw [hcons, ih (fun y hy => ?_) hnodup.2, List.length_cons]
    · omega
    · have hne : x.1 ≠ y.1 := fun he => hnodup.1 (he ▸ List.mem_map_of_mem hy)
      rw [SortedMap.get_erase, if_neg hne]
      exact hxs y (by simp [hy])

theorem ZSetRep.removeAll {xs : List ZSetMemberScore} (h : ZSetRep s kc key M)
    (hxs : ∀ x ∈ xs, M.get x.1 = some x.2) (hnodup : (xs.map Prod.fst).Nodup) :
    ZSetRep (s.apply (xs.flatMap (removalOps kc key))) kc key (M.without xs) := by
  induction xs generalizing s M with
  | nil => exact h
  | cons x xs ih =>
    rw [List.map_cons, List.nodup_cons] at hnodup
    rw [List.flatMap_cons, Store.apply_append]
    refine ih (h.remove (hxs x (by simp))) (fun y hy => ?_) hnodup.2
    have hne : x.1 ≠ y.1 := fun he => hnodup.1 (he ▸ List.mem_map_of_mem hy)
    rw [SortedMap.get_erase, if_neg hne]
    exact hxs y (by simp [hy])

theorem mem_removals {xs : List ZSetMemberScore} {o : WriteOp}
    (ho : o ∈ xs.flatMap (removalOps kc key)) : o.OwnedBy kc key .zSetMeta := by
  obtain ⟨x, -, hx⟩ := List.mem_flatMap.mp ho
  exact mem_removeMemberOps hx

theorem zSetData_clear (s : Store) (kc : KeyComposer) (key : Key) :
    (s.apply (clearPrefixInBatch s .data (composeZsetPrefix kc key))).family kc key .zSetData = ∅ :=
  Store.family_apply_clear rfl fun _ h => h

theorem mem_clearZset {o : WriteOp} (ho : o ∈ clearPrefixInBatch s .data (composeZsetPrefix kc key) ++
    clearPrefixInBatch s .data (composeZsetScorePrefix kc key)) : o.OwnedBy kc key .zSetMeta := by
  rcases List.mem_append.mp ho with ho | ho
  · exact ownedBy_clearPrefix .zSetData rfl ho
  · exact ownedBy_clearPrefix .zSetScore rfl ho

theorem zsetRep_empty (hdata : s.family kc key .zSetData = ∅) (hscore : s.family kc key .zSetScore = ∅) :
    ZSetRep s kc key ∅ := by
  refine ⟨fun a => ?_, ?_, fun a c hc => by cases hc⟩
  · rw [hdata]
    rfl
  · rw [hscore]
    exact .empty _

theorem zsetRep_clear (s : Store) (kc : KeyComposer) (key : Key) :
    ZSetRep (s.apply (clearPrefixInBatch s .data (composeZsetPrefix kc key) ++
      clearPrefixInBatch s .data (composeZsetScorePrefix kc key))) kc key ∅ := by
  rw [Store.apply_append]
  refine zsetRep_empty (SortedMap.ext_get fun suffix => ?_) ?_
  · have hget : (s.apply (clearPrefixInBatch s .data (composeZsetPrefix kc key))).at
        ⟨kc, key, .sub .zSetData suffix⟩ = none := by
      rw [← Store.get_family, zSetData_clear]
      rfl
    rw [Store.get_family]
    exact Store.part_apply_get_none (fun o ho => Store.rmPrefixed_value ho) hget
  · refine Store.family_apply_clear rfl fun suffix h => ?_
    exact Store.part_apply_get_none (fun o ho => Store.rmPrefixed_value ho) h

/-! ## Committing and looking up -/

theorem ZSetRep.of_family (h : ZSetRep s kc key M)
    (hdata : t.family kc key .zSetData = s.family kc key .zSetData)
    (hscore : t.family kc key .zSetScore = s.family kc key .zSetScore) : ZSetRep t kc key M :=
  ⟨fun a => hdata ▸ h.members a, hscore ▸ h.index, h.numbers⟩

theorem ZSetRep.applyMeta {o : WriteOp} (h : ZSetRep s kc key M) (ho : o.partition = .metadata) :
    ZSetRep (s.applyOp o) kc key M :=
  h.of_family (Store.family_applyOp_of_metadata ho) (Store.family_applyOp_of_metadata ho)

theorem HoldsOnly.apply_owned {tag : KeyTag} (h : HoldsOnly s kc key tag)
    (hops : ∀ o ∈ ops, o.OwnedBy kc key tag) : HoldsOnly (s.apply ops) kc key tag := h.apply hops

theorem ownedBy_zsetMeta {o : WriteOp} (hp : o.partition = .metadata)
    (hk : o.key = composeZsetMetaKey kc key) : o.OwnedBy kc key .zSetMeta :=
  ownedBy_metadata rfl hp hk

theorem ZSetHolds.commit_insert (honly : HoldsOnly s kc key .zSetMeta)
    (hops : ∀ o ∈ ops, o.OwnedBy kc key .zSetMeta) (hrep : ZSetRep (s.apply ops) kc key M)
    (hl : ZSetLayout m M) (hne : M.length ≠ 0) :
    ZSetHolds (s.apply (ops ++ [.insertMeta (composeZsetMetaKey kc key) m.encode])) kc key M := by
  refine ⟨honly.apply_owned ?_, ?_, fun h0 => absurd h0 hne, fun _ => ⟨m, ?_, hl⟩⟩
  · exact ownedBy_append hops (ownedBy_zsetMeta rfl rfl)
  · rw [Store.apply_append]
    exact hrep.applyMeta (o := .insertMeta (composeZsetMetaKey kc key) m.encode) rfl
  · rw [Store.apply_append]
    exact SortedMap.get_insert_self _ _ _

theorem ZSetHolds.commit_rm (honly : HoldsOnly s kc key .zSetMeta)
    (hops : ∀ o ∈ ops, o.OwnedBy kc key .zSetMeta) (hrep : ZSetRep (s.apply ops) kc key M)
    (h0 : M.length = 0) :
    ZSetHolds (s.apply (ops ++ [.rmMeta (composeZsetMetaKey kc key)])) kc key M := by
  refine ⟨honly.apply_owned ?_, ?_, fun _ => ?_, fun hne => absurd h0 hne⟩
  · exact ownedBy_append hops (ownedBy_zsetMeta rfl rfl)
  · rw [Store.apply_append]
    exact hrep.applyMeta (o := .rmMeta (composeZsetMetaKey kc key)) rfl
  · rw [Store.apply_append, Store.apply_cons, Store.apply_nil, Store.applyOp_rmMeta,
      SortedMap.get_erase, if_pos rfl]

theorem ZSetHolds.commit (honly : HoldsOnly s kc key .zSetMeta)
    (hops : ∀ o ∈ ops, o.OwnedBy kc key .zSetMeta) (hrep : ZSetRep (s.apply ops) kc key M)
    (hl : ZSetLayout m M) :
    ZSetHolds (s.apply (ops ++ commitZsetBatch (composeZsetMetaKey kc key) m)) kc key M := by
  rw [commitZsetBatch]
  by_cases h0 : m.base.size = 0
  · rw [if_pos h0]
    refine .commit_rm honly hops hrep ?_
    rw [← hl.size, h0]
    rfl
  · rw [if_neg h0]
    refine .commit_insert honly hops hrep hl fun hlen => h0 ?_
    rw [← hl.size] at hlen
    exact UInt64.toNat_inj.mp hlen

theorem ZSetHolds.getMetaChecked (h : ZSetHolds s kc key M) (now : UInt64) :
    (M.length = 0 ∧ Wedb.getMetaChecked ZSetMeta s kc key (composeZsetMetaKey kc key) now = .ok none) ∨
    (M.length ≠ 0 ∧ ∃ m : ZSetMeta,
      Wedb.getMetaChecked ZSetMeta s kc key (composeZsetMetaKey kc key) now = .ok (some m) ∧
        ZSetLayout m M) := by
  by_cases h0 : M.length = 0
  · exact Or.inl ⟨h0, HoldsOnly.getMetaChecked_absent (M := ZSetMeta) h.only (h.absent h0) now⟩
  · obtain ⟨m, hget, hl⟩ := h.present h0
    refine Or.inr ⟨h0, m, ?_, hl⟩
    refine HoldsOnly.getMetaChecked_present (M := ZSetMeta) h.only hget
      (SimpleMeta.decode_encode hl.rtype) (SimpleMeta.isExpired_eq_false ?_ (Or.inl hl.expireAt))
    intro hsize
    rw [← hl.size, hsize] at h0
    exact h0 rfl

theorem ZSetLayout.isEmpty (hl : ZSetLayout m M) (hne : M.length ≠ 0) : m.isEmpty = false := by
  rw [SimpleMeta.isEmpty, beq_eq_false_iff_ne]
  intro hsize
  rw [← hl.size, hsize] at hne
  exact hne rfl

theorem ZSetHolds.getZsetMeta (h : ZSetHolds s kc key M) (now : UInt64) :
    (M.length = 0 ∧ Wedb.getZsetMeta s kc key now = .ok none) ∨
    (M.length ≠ 0 ∧ ∃ m : ZSetMeta, Wedb.getZsetMeta s kc key now = .ok (some m) ∧ ZSetLayout m M) := by
  rcases h.getMetaChecked now with ⟨h0, hget⟩ | ⟨hne, m, hget, hl⟩
  · refine Or.inl ⟨h0, ?_⟩
    rw [Wedb.getZsetMeta, hget]
    rfl
  · refine Or.inr ⟨hne, m, ?_, hl⟩
    rw [Wedb.getZsetMeta, hget]
    simp only [Except.map, Option.filter, hl.isEmpty hne, Bool.not_false, if_true]

theorem ZSetHolds.of_local {kc' : KeyComposer} {key' : Key} (h : ZSetHolds s kc' key' M)
    (hops : ∀ o ∈ ops, o.LocalTo kc key) (hne : ¬(kc' = kc ∧ key' = key)) :
    ZSetHolds (s.apply ops) kc' key' M := by
  have hmeta : (s.apply ops).metadata.get (composeZsetMetaKey kc' key') =
      s.metadata.get (composeZsetMetaKey kc' key') :=
    at_apply_of_local (b := ⟨kc', key', .metadata .zSetMeta⟩) hops rfl hne
  refine ⟨h.only.of_local hops hne, ?_, fun h0 => ?_, fun h0 => ?_⟩
  · exact h.rep.of_family (family_apply_of_local hops rfl hne) (family_apply_of_local hops rfl hne)
  · exact hmeta.trans (h.absent h0)
  · obtain ⟨m, hget, hl⟩ := h.present h0
    exact ⟨m, hmeta.trans hget, hl⟩

theorem zsetHolds_empty (kc : KeyComposer) (key : Key) : ZSetHolds ∅ kc key ∅ :=
  ⟨⟨rfl, fun _ _ _ => rfl⟩, zsetRep_empty rfl rfl, fun _ => rfl, fun h => absurd rfl h⟩

end Wedb
