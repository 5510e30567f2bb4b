import Wedb.List.Queries

/-!
# What reads see and what fresh writes leave

A read sees the elements of a list while its metadata is live. Elements pushed where no live
value is in the way are the list afterwards; pushed onto a list they make it longer.
-/

namespace Wedb

open UInt64 (word)

/-- What a read of a list sees: its elements, or a key where nothing is live. -/
structure ListReads (s : Store) (kc : KeyComposer) (key : Key) (now : UInt64) (xs : List Bytes) :
    Prop where
  absent : xs = [] → existsOne s kc key now = false
  present : xs ≠ [] → checkKeyNotOtherType s kc key now .listMeta = .ok () ∧ ∃ m : ListMeta,
    getListMeta s kc key now = .ok (some m) ∧ m.base.size.toNat = xs.length ∧
      StoredWindow m.head xs (s.family kc key .listData)

/-- The metadata stored for a list is an encoding of list metadata. -/
def ListMetaEncoded (s : Store) (kc : KeyComposer) (key : Key) : Prop :=
  ∀ v, s.at ⟨kc, key, .metadata .listMeta⟩ = some v →
    ∃ m : ListMeta, v = m.encode ∧ m.base.rtype = .list ∧ m.base.flags = 0

section

variable {s : Store} {kc : KeyComposer} {key : Key} {now version : UInt64} {xs values : List Bytes}
  {m : ListMeta} {w : ListMeta × Batch} {left create : Bool}

theorem liveMeta_encode (hget : s.at ⟨kc, key, .metadata .listMeta⟩ = some m.encode) :
    liveMeta s kc key now .listMeta =
      if m.isExpired now = true then none else some (m.base, m.encode) := by
  have hdecode : KeyMeta.decode m.encode = some m.base := KeyMeta.decode_encode_append m.base _
  rw [liveMeta_eq_at, hget, Option.bind_some, hdecode, Option.map_some, ListMeta.isExpired,
    Option.filter_some]
  cases m.base.isExpired now <;> rfl

theorem checkKeyNotOtherType_of_absent (tag : KeyTag) (h : existsOne s kc key now = false) :
    checkKeyNotOtherType s kc key now tag = .ok () := by
  obtain ⟨hstr, hmeta⟩ := existsOne_eq_false.mp h
  rw [checkKeyNotOtherType, hstr, checkCompositeMetaNotOtherType_eq]
  simp only [Option.isSome_none, Bool.false_eq_true, if_false]
  rw [if_neg]
  rw [Bool.not_eq_true, List.any_eq_false]
  intro u hu
  rw [hmeta u (List.mem_of_mem_filter hu)]
  exact Bool.false_ne_true

theorem getListMeta_of_absent (henc : ListMetaEncoded s kc key)
    (h : existsOne s kc key now = false) : getListMeta s kc key now = .ok none := by
  have hcheck := checkKeyNotOtherType_of_absent .listMeta h
  have hlive := (existsOne_eq_false.mp h).2 .listMeta (by decide)
  have hat : s.metadata.get (composeListMetaKey kc key) = s.at ⟨kc, key, .metadata .listMeta⟩ := rfl
  rw [getListMeta, getMetaChecked_of_check (M := ListMeta) hcheck, hat]
  cases hget : s.at ⟨kc, key, .metadata .listMeta⟩ with
  | none => rfl
  | some v =>
    obtain ⟨m, rfl, -, hflags⟩ := henc v hget
    have hdecode : MetaOps.decode (M := ListMeta) m.encode = some m := ListMeta.decode_encode hflags
    have hexp : m.isExpired now = true := by
      by_contra hnot
      rw [liveMeta_encode hget, if_neg hnot] at hlive
      cases hlive
    have hops : MetaOps.isExpired m now = true := hexp
    rw [Option.bind_some, hdecode, Option.filter_some, hops]
    rfl

/-! ## Pushing -/

theorem listPushInternal_eq (hne : values ≠ []) :
    listPushInternal s kc key now version values create left =
      (prepareListMetaForWrite s kc key now version).map fun p =>
        if !create && (!p.2.1 || p.1.base.size == 0) then (0, [])
        else
          let w := values.foldl (listPushStep kc key left) (p.1, p.2.2)
          (w.1.base.size, w.2 ++ [.insertMeta (composeListMetaKey kc key) w.1.encode]) := by
  rcases values with _ | ⟨v, _ | ⟨u, vs⟩⟩
  · exact absurd rfl hne
  · rw [listPushInternal, listPushOneInternal]
    cases prepareListMetaForWrite s kc key now version with
    | error err => rfl
    | ok p =>
      simp only [bind, Except.bind, Except.map, List.foldl_cons, List.foldl_nil]
      split_ifs <;> rfl
  · rw [listPushInternal]
    cases prepareListMetaForWrite s kc key now version with
    | error err => rfl
    | ok p =>
      simp only [bind, Except.bind, Except.map]
      split_ifs <;> rfl
    all_goals simp

theorem rpush_eq (hne : values ≠ []) : rpush s kc key now version values =
    (prepareListMetaForWrite s kc key now version).map fun p =>
      let w := values.foldl (listPushStep kc key false) (p.1, p.2.2)
      (w.1.base.size, w.2 ++ [.insertMeta (composeListMetaKey kc key) w.1.encode]) :=
  listPushInternal_eq hne

theorem listPushStep_size (w : ListMeta × Batch) (v : Bytes) :
    (listPushStep kc key false w v).1.base.size = w.1.base.size + 1 := rfl

theorem foldl_listPushStep_size (values : List Bytes) (w : ListMeta × Batch) :
    (values.foldl (listPushStep kc key false) w).1.base.size =
      w.1.base.size + UInt64.ofNat values.length := by
  induction values generalizing w with
  | nil => exact (UInt64.add_zero _).symm
  | cons v vs ih =>
    rw [List.foldl_cons, ih, listPushStep_size, List.length_cons, UInt64.add_assoc,
      UInt64.ofNat_add, UInt64.add_comm 1]
    rfl

theorem foldl_listPushStep_kept (values : List Bytes) (w : ListMeta × Batch) :
    (values.foldl (listPushStep kc key false) w).1.base.rtype = w.1.base.rtype ∧
      (values.foldl (listPushStep kc key false) w).1.base.flags = w.1.base.flags ∧
        (values.foldl (listPushStep kc key false) w).1.base.expireAt = w.1.base.expireAt := by
  induction values generalizing w with
  | nil => exact ⟨rfl, rfl, rfl⟩
  | cons v vs ih => exact ih (listPushStep kc key false w v)

theorem foldl_listPushStep_owned (values : List Bytes)
    (h : ∀ o ∈ w.2, o.OwnedBy kc key .listMeta) :
    ∀ o ∈ (values.foldl (listPushStep kc key false) w).2, o.OwnedBy kc key .listMeta := by
  induction values generalizing w with
  | nil => exact h
  | cons v vs ih =>
    exact ih (ownedBy_append h
      (ownedBy_sub .listData rfl rfl (composeListItem_eq_phys kc key _)))

/-- What pushes from nothing have reached. -/
structure PushReached (s : Store) (kc : KeyComposer) (key : Key) (w : ListMeta × Batch)
    (xs : List Bytes) : Prop where
  owned : ∀ o ∈ w.2, o.OwnedBy kc key .listMeta
  layout : ListLayout w.1 xs ((s.apply w.2).family kc key .listData)

theorem PushReached.step (h : PushReached s kc key w xs) (hlen : xs.length + 1 < 2 ^ 64)
    (left : Bool) (v : Bytes) :
    PushReached s kc key (listPushStep kc key left w v) (Seq.push left [v] xs) where
  owned := ownedBy_append h.owned
    (ownedBy_sub .listData rfl rfl (composeListItem_eq_phys kc key _))
  layout := by
    have hl := h.layout
    have hsize : (w.1.base.size + 1).toNat = xs.length + 1 := by
      rw [UInt64.toNat_add, hl.size]
      exact Nat.mod_eq_of_lt hlen
    have hfamily : ∀ idx : UInt64, (s.apply (w.2 ++
        [.insertData (composeListItem kc key idx) v])).family kc key .listData =
          ((s.apply w.2).family kc key .listData).insert idx.toBeBytes v := by
      intro idx
      rw [Store.apply_append, composeListItem_eq_phys]
      exact Store.family_insert _ kc key .listData _ v
    cases left with
    | true =>
      refine ⟨hl.rtype, hl.flags, hl.expireAt, hsize, ?_, ?_⟩
      · exact hl.tail.trans (UInt64.word_sub_one _ _).symm
      · exact (hfamily (w.1.head - 1)).symm ▸ hl.stored.pushHead v
    | false =>
      refine ⟨hl.rtype, hl.flags, hl.expireAt, ?_, ?_, ?_⟩
      · exact hsize.trans (by simp [Seq.push])
      · have htail : w.1.tail + 1 = word w.1.head (xs ++ [v]).length := by
          rw [hl.tail, UInt64.word_succ, List.length_append, List.length_singleton]
        exact htail
      · exact (hfamily w.1.tail).symm ▸ hl.tail.symm ▸ hl.stored.pushTail (by omega) v

theorem Seq.length_push (left : Bool) (values xs : List Bytes) :
    (push left values xs).length = xs.length + values.length := by
  cases left <;> simp [push, Nat.add_comm]

theorem PushReached.steps (h : PushReached s kc key w xs)
    (hlen : xs.length + values.length < 2 ^ 64) (left : Bool) :
    PushReached s kc key (values.foldl (listPushStep kc key left) w) (Seq.push left values xs) := by
  induction values generalizing w xs with
  | nil => cases left <;> simpa [Seq.push] using h
  | cons v vs ih =>
    rw [List.length_cons] at hlen
    have hpush : Seq.push left (v :: vs) xs = Seq.push left vs (Seq.push left [v] xs) := by
      cases left <;> simp [Seq.push]
    rw [hpush]
    refine ih (h.step (by omega) left v) ?_
    rw [Seq.length_push, List.length_singleton]
    omega

theorem ownedBy_listMeta (v : Bytes) :
    (WriteOp.insertMeta (composeListMetaKey kc key) v).OwnedBy kc key .listMeta :=
  ownedBy_metadata rfl rfl rfl

theorem rpush_fresh (hcheck : checkKeyNotOtherType s kc key now .listMeta = .ok ())
    (hnone : getListMeta s kc key now = .ok none) (hne : values ≠ [])
    (hlen : values.length < 2 ^ 63) : ∃ n ops, rpush s kc key now version values = .ok (n, ops) ∧
      (∀ o ∈ ops, o.OwnedBy kc key .listMeta) ∧ ListReads (s.apply ops) kc key now values := by
  have hstart : PushReached s kc key (.newWithVersion 0 version,
      clearPrefixInBatch s .data (composeListPrefix kc key)) [] := by
    refine ⟨fun o ho => ownedBy_clearPrefix .listData rfl ho, rfl, rfl, rfl, rfl, ?_, ?_⟩
    · exact (UInt64.word_zero _).symm
    · have hclear : (s.apply (clearPrefixInBatch s .data (composeListPrefix kc key))).family kc key
          .listData = ∅ := Store.family_apply_clear rfl fun _ h => h
      rw [hclear]
      exact .empty _
  have hreached := @PushReached.steps _ _ _ _ values _ hstart (by simp; omega) false
  rw [Seq.push, if_neg Bool.false_ne_true, List.nil_append] at hreached
  set w := values.foldl (listPushStep kc key false) (.newWithVersion 0 version,
    clearPrefixInBatch s .data (composeListPrefix kc key)) with hw
  have howned : ∀ o ∈ w.2 ++ [.insertMeta (composeListMetaKey kc key) w.1.encode],
      o.OwnedBy kc key .listMeta := ownedBy_append hreached.owned (ownedBy_listMeta _)
  refine ⟨w.1.base.size, _, ?_, howned, fun hnil => absurd hnil hne, fun _ => ?_⟩
  · rw [rpush_eq hne, prepareListMetaForWrite, hnone]
    rfl
  · have hcheck' := (checkKeyNotOtherType_apply_of_owned howned now).trans hcheck
    have hstored : (s.apply
        (w.2 ++ [.insertMeta (composeListMetaKey kc key) w.1.encode])).metadata.get
        (composeListMetaKey kc key) = some w.1.encode := by
      rw [Store.apply_append, Store.apply_cons, Store.apply_nil, Store.applyOp_insertMeta]
      exact SortedMap.get_insert_self _ _ _
    have hdecode : MetaOps.decode (M := ListMeta) w.1.encode = some w.1 :=
      ListMeta.decode_encode hreached.layout.flags
    have hlive : MetaOps.isExpired w.1 now = false := hreached.layout.not_expired hne now
    refine ⟨hcheck', w.1, ?_, hreached.layout.size, ?_⟩
    · rw [getListMeta, getMetaChecked_of_check (M := ListMeta) hcheck', hstored, Option.bind_some,
        hdecode, Option.filter_some, hlive]
      rfl
    · rw [Store.apply_append, Store.apply_cons, Store.apply_nil,
        Store.family_applyOp_of_metadata rfl]
      exact hreached.layout.stored

theorem rpush_owned {n : UInt64} {ops : Batch} (hne : values ≠ [])
    (hpush : rpush s kc key now version values = .ok (n, ops)) :
    ∀ o ∈ ops, o.OwnedBy kc key .listMeta := by
  rw [rpush_eq hne, prepareListMetaForWrite] at hpush
  have hpushed : ∀ w : ListMeta × Batch, (∀ o ∈ w.2, o.OwnedBy kc key .listMeta) →
      ∀ o ∈ (values.foldl (listPushStep kc key false) w).2 ++ [.insertMeta
        (composeListMetaKey kc key) (values.foldl (listPushStep kc key false) w).1.encode],
        o.OwnedBy kc key .listMeta := by
    intro w hw
    exact ownedBy_append (foldl_listPushStep_owned values hw) (ownedBy_listMeta _)
  cases hget : getListMeta s kc key now with
  | error err =>
    rw [hget] at hpush
    cases hpush
  | ok found =>
    rw [hget] at hpush
    cases found with
    | none =>
      cases hpush
      exact hpushed _ fun o ho => ownedBy_clearPrefix .listData rfl ho
    | some m =>
      cases hpush
      exact hpushed _ fun o ho => by cases ho

/-- Nothing is live under a key where neither a list nor another type is found. -/
theorem existsOne_of_getListMeta_none (henc : ListMetaEncoded s kc key)
    (hcheck : checkKeyNotOtherType s kc key now .listMeta = .ok ())
    (hnone : getListMeta s kc key now = .ok none) : existsOne s kc key now = false := by
  have hfound := @getMetaChecked_of_check s kc key ListMeta _ (composeListMetaKey kc key) now hcheck
  rw [getListMeta] at hnone
  rw [hnone, Except.ok.injEq] at hfound
  rw [checkKeyNotOtherType] at hcheck
  by_cases hstr : (liveString s kc key now).isSome = true
  · rw [if_pos hstr] at hcheck
    cases hcheck
  · rw [if_neg hstr, checkCompositeMetaNotOtherType_eq] at hcheck
    refine existsOne_eq_false.mpr ⟨by simpa using hstr, fun tag htag => ?_⟩
    by_cases hlist : tag = .listMeta
    · subst hlist
      cases hget : s.at ⟨kc, key, .metadata .listMeta⟩ with
      | none => exact liveMeta_of_at_none hget
      | some v =>
        obtain ⟨m, rfl, -, hflags⟩ := henc v hget
        have hdecode : MetaOps.decode (M := ListMeta) m.encode = some m :=
          ListMeta.decode_encode hflags
        have hat : s.metadata.get (composeListMetaKey kc key) = some m.encode := hget
        rw [hat, Option.bind_some, hdecode, Option.filter_some] at hfound
        rw [liveMeta_encode hget, if_pos]
        cases hexp : m.isExpired now with
        | true => rfl
        | false =>
          have hops : MetaOps.isExpired m now = false := hexp
          rw [hops] at hfound
          cases hfound
    · by_contra hlive
      rw [if_pos] at hcheck
      · cases hcheck
      · rw [List.any_eq_true]
        exact ⟨tag, List.mem_filter.mpr ⟨htag, by simpa using hlist⟩,
          Option.isSome_iff_ne_none.mpr hlive⟩

theorem rpush_onto {n : UInt64} {ops : Batch} (hget : getListMeta s kc key now = .ok (some m))
    (hne : values ≠ []) (hpush : rpush s kc key now version values = .ok (n, ops)) :
    ∃ m' : ListMeta, (s.apply ops).metadata.get (composeListMetaKey kc key) = some m'.encode ∧
      m'.base.flags = m.base.flags ∧ m'.base.size = m.base.size + UInt64.ofNat values.length := by
  rw [rpush_eq hne, prepareListMetaForWrite, hget] at hpush
  cases hpush
  have hkept := @foldl_listPushStep_kept kc key values (m, [])
  have hsize := @foldl_listPushStep_size kc key values (m, [])
  refine ⟨(values.foldl (listPushStep kc key false) (m, [])).1, ?_, hkept.2.1, hsize⟩
  rw [Store.apply_append, Store.apply_cons, Store.apply_nil, Store.applyOp_insertMeta]
  exact SortedMap.get_insert_self _ _ _

theorem ListReads.not_onto {n : UInt64} {ops : Batch} (henc : ListMetaEncoded s kc key)
    (hget : getListMeta s kc key now = .ok (some m)) (hne : values ≠ [])
    (hpush : rpush s kc key now version values = .ok (n, ops)) :
    ¬ListReads (s.apply ops) kc key now values := by
  intro h
  obtain ⟨-, hlive, v, hv, hdecode⟩ := getMetaChecked_eq_some hget
  obtain ⟨m₀, rfl, htype, hflags⟩ := henc v hv
  have hdecode₀ : MetaOps.decode (M := ListMeta) m₀.encode = some m₀ :=
    ListMeta.decode_encode hflags
  rw [hdecode₀, Option.some.injEq] at hdecode
  subst hdecode
  obtain ⟨m', hstored, hflags', hsize⟩ := rpush_onto hget hne hpush
  obtain ⟨-, m₁, hget₁, hlen, -⟩ := h.present hne
  obtain ⟨-, -, v₁, hv₁, hdecode₁⟩ := getMetaChecked_eq_some hget₁
  have hdecode' : MetaOps.decode (M := ListMeta) m'.encode = some m' :=
    ListMeta.decode_encode (hflags'.trans hflags)
  rw [hstored, Option.some.injEq] at hv₁
  rw [← hv₁, hdecode', Option.some.injEq] at hdecode₁
  have hsum : (m₀.base.size + UInt64.ofNat values.length).toNat = values.length := by
    rw [← hsize, hdecode₁, hlen]
  rw [UInt64.toNat_add, UInt64.toNat_ofNat'] at hsum
  have hzero : m₀.base.size = 0 := by
    rw [← UInt64.toNat_inj]
    have hlt := m₀.base.size.toNat_lt
    have hnat : (0 : UInt64).toNat = 0 := rfl
    omega
  have hexp : MetaOps.isExpired m₀ now = true := by
    show m₀.base.isExpired now = true
    rw [KeyMeta.isExpired, KeyMeta.isEmptyableType, htype, hzero]
    rfl
  rw [hexp] at hlive
  cases hlive

end

end Wedb
