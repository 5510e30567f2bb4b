import Mathlib.Data.Finset.Sort
import Wedb.SortedInt.Impl
import Wedb.Ordered.SetIn

/-!
# Finite sets of 64-bit integers

What a sorted integer set is for: a finite set with the time at which it expires,
and what each command answers and leaves. Ids are counted as elements, ranks as
numbers of smaller or greater elements, and lists are in increasing order or its
reverse. A set without elements is the same as none.
-/

namespace Wedb

section

inductive SiCommand
  | siAdd (ids : List UInt64)
  | siRem (ids : List UInt64)
  | siRemRangeByValue (spec : SortedintRange)
  | siRemRangeByRank (start stop : Int64)
  | setKeyExpireAt (expireAtMs : UInt64) (cond : ExpireCondition)
  | siCard
  | siExists (id : UInt64)
  | siMexist (ids : List UInt64)
  | siMembers
  | siRank (id : UInt64)
  | siRevrank (id : UInt64)
  | siCount (spec : SortedintRange)
  | siRangeByValue (spec : SortedintRange)
  | siRevRangeByValue (spec : SortedintRange)
  | siRange (cursor : UInt64) (offset limit : ℕ) (reversed : Bool)

inductive SiReply
  | count (n : ℕ)
  | flag (b : Bool)
  | flags (bs : List Bool)
  | ids (xs : List UInt64)
  | rank (r : Option ℕ)
  deriving DecidableEq, Repr

/-- A finite set of integers and the time at which it expires. -/
structure IdSet where
  ids : Finset UInt64
  expireAt : UInt64

namespace IdSet

def empty : IdSet := ⟨∅, 0⟩

def live (S : IdSet) (now : UInt64) : Finset UInt64 :=
  if S.expireAt = 0 ∨ now < S.expireAt then S.ids else ∅

def inOrder (X : Finset UInt64) : List UInt64 := X.sort (· ≤ ·)

def rank (X : Finset UInt64) (id : UInt64) : ℕ := (X.filter (· < id)).card

def revrank (X : Finset UInt64) (id : UInt64) : ℕ := (X.filter (id < ·)).card

def rankBetween (size : ℕ) (start stop : Int64) (r : ℕ) : Prop :=
  (if start.toInt < 0 then (size : ℤ) + start.toInt else start.toInt) ≤ r ∧
    r ≤ if stop.toInt < 0 then (size : ℤ) + stop.toInt else stop.toInt

instance (size : ℕ) (start stop : Int64) (r : ℕ) : Decidable (rankBetween size start stop r) :=
  inferInstanceAs (Decidable (_ ∧ _))

def byValue (X : Finset UInt64) (spec : SortedintRange) : Finset UInt64 :=
  X.filter fun id => spec.contains id = true

def byRank (X : Finset UInt64) (start stop : Int64) : Finset UInt64 :=
  X.filter fun id => rankBetween X.card start stop (rank X id)

def without (S : IdSet) (now : UInt64) (gone : Finset UInt64) : IdSet :=
  if S.live now ∩ gone = ∅ then S
  else if S.live now \ gone = ∅ then empty
  else ⟨S.live now \ gone, S.expireAt⟩

def withIds (S : IdSet) (now : UInt64) (new : Finset UInt64) : IdSet :=
  if new = ∅ then S
  else ⟨S.live now ∪ new, if S.live now = ∅ then 0 else S.expireAt⟩

def withExpiry (S : IdSet) (now expireAtMs : UInt64) (cond : ExpireCondition) : Bool × IdSet :=
  if S.live now = ∅ ∨ expireAtMs = 0 ∧ S.expireAt = 0 ∨ cond.shouldUpdate S.expireAt expireAtMs = false
  then (false, S)
  else (true, ⟨S.ids, expireAtMs⟩)

def pastCursor (X : Finset UInt64) (cursor : UInt64) (reversed : Bool) : List UInt64 :=
  if reversed then (inOrder (X.filter fun id => cursor = 0 ∨ id < cursor)).reverse
  else inOrder (X.filter fun id => cursor = 0 ∨ cursor < id)

def run (S : IdSet) (now : UInt64) : SiCommand → SiReply × IdSet
  | .siAdd ids => (.count (ids.toFinset \ S.live now).card, S.withIds now ids.toFinset)
  | .siRem ids => (.count (S.live now ∩ ids.toFinset).card, S.without now ids.toFinset)
  | .siRemRangeByValue spec =>
    (.count (byValue (S.live now) spec).card, S.without now (byValue (S.live now) spec))
  | .siRemRangeByRank start stop =>
    (.count (byRank (S.live now) start stop).card, S.without now (byRank (S.live now) start stop))
  | .setKeyExpireAt expireAtMs cond =>
    (.flag (S.withExpiry now expireAtMs cond).1, (S.withExpiry now expireAtMs cond).2)
  | .siCard => (.count (S.live now).card, S)
  | .siExists id => (.flag (decide (id ∈ S.live now)), S)
  | .siMexist ids => (.flags (ids.map fun id => decide (id ∈ S.live now)), S)
  | .siMembers => (.ids (inOrder (S.live now)), S)
  | .siRank id => (.rank (if id ∈ S.live now then some (rank (S.live now) id) else none), S)
  | .siRevrank id => (.rank (if id ∈ S.live now then some (revrank (S.live now) id) else none), S)
  | .siCount spec => (.count (byValue (S.live now) spec).card, S)
  | .siRangeByValue spec =>
    (.ids (sliceWindow spec.offset spec.count
      (if spec.reversed then (inOrder (byValue (S.live now) spec)).reverse
        else inOrder (byValue (S.live now) spec))), S)
  | .siRevRangeByValue spec =>
    (.ids (sliceWindow spec.offset spec.count (inOrder (byValue (S.live now) spec)).reverse), S)
  | .siRange cursor offset limit reversed =>
    (.ids (sliceWindow offset (some limit) (pastCursor (S.live now) cursor reversed)), S)

/-! ## Elements in increasing order -/

variable {X : Finset UInt64} {id : UInt64}

@[simp] theorem mem_inOrder : id ∈ inOrder X ↔ id ∈ X := Finset.mem_sort _

@[simp] theorem length_inOrder (X : Finset UInt64) : (inOrder X).length = X.card :=
  Finset.length_sort _

theorem inOrder_lt (X : Finset UInt64) : (inOrder X).Pairwise (· < ·) := by
  refine ((Finset.pairwise_sort X (· ≤ ·)).and (Finset.sort_nodup X (· ≤ ·))).imp fun h => ?_
  exact UInt64.lt_of_le_of_ne h.1 h.2

theorem inOrder_nodup (X : Finset UInt64) : (inOrder X).Nodup := Finset.sort_nodup X (· ≤ ·)

theorem eq_of_lt_of_mem_iff {xs ys : List UInt64} (hx : xs.Pairwise (· < ·)) (hy : ys.Pairwise (· < ·))
    (h : ∀ a, a ∈ xs ↔ a ∈ ys) : xs = ys := by
  have hnodup : ∀ {zs : List UInt64}, zs.Pairwise (· < ·) → zs.Nodup := fun hz =>
    hz.imp fun hlt => UInt64.ne_of_lt hlt
  refine ((List.perm_ext_iff_of_nodup (hnodup hx) (hnodup hy)).mpr h).eq_of_pairwise ?_ hx hy
  intro a b _ _ hab hba
  exact absurd (UInt64.lt_trans hab hba) (UInt64.lt_irrefl a)

theorem inOrder_filter (X : Finset UInt64) (p : UInt64 → Prop) [DecidablePred p] :
    inOrder (X.filter p) = (inOrder X).filter fun id => decide (p id) := by
  refine eq_of_lt_of_mem_iff (inOrder_lt _) ((inOrder_lt X).filter _) fun a => ?_
  simp

theorem card_filter (X : Finset UInt64) (p : UInt64 → Prop) [DecidablePred p] :
    (X.filter p).card = ((inOrder X).filter fun id => decide (p id)).length := by
  rw [← length_inOrder, inOrder_filter]

theorem filter_around {xs ys : List UInt64} {a : UInt64} (h : (xs ++ a :: ys).Pairwise (· < ·)) :
    (xs ++ a :: ys).filter (fun b => decide (b < a)) = xs ∧
      (xs ++ a :: ys).filter (fun b => decide (a < b)) = ys := by
  rw [List.pairwise_append, List.pairwise_cons] at h
  obtain ⟨-, ⟨hafter, -⟩, hbefore⟩ := h
  have hxs : ∀ b ∈ xs, b < a := fun b hb => hbefore b hb a (by simp)
  have hself : ¬a < a := UInt64.lt_irrefl a
  rw [List.filter_append, List.filter_append, List.filter_cons_of_neg (by simp),
    List.filter_cons_of_neg (by simp)]
  constructor
  · rw [List.filter_eq_self.mpr fun b hb => decide_eq_true (hxs b hb), List.filter_eq_nil_iff.mpr,
      List.append_nil]
    exact fun b hb hlt => hself (UInt64.lt_trans (hafter b hb) (of_decide_eq_true hlt))
  · rw [List.filter_eq_nil_iff.mpr, List.nil_append,
      List.filter_eq_self.mpr fun b hb => decide_eq_true (hafter b hb)]
    exact fun b hb hlt => hself (UInt64.lt_trans (of_decide_eq_true hlt) (hxs b hb))

theorem rank_of_split {xs ys : List UInt64} (h : inOrder X = xs ++ id :: ys) :
    rank X id = xs.length ∧ revrank X id = ys.length := by
  have hsorted := inOrder_lt X
  rw [h] at hsorted
  obtain ⟨hbefore, hafter⟩ := filter_around hsorted
  rw [rank, revrank, card_filter, card_filter, h, hbefore, hafter]
  exact ⟨rfl, rfl⟩

theorem getElem?_inOrder {i : ℕ} : (inOrder X)[i]? = some id ↔ id ∈ X ∧ rank X id = i := by
  have hrank : ∀ j, (inOrder X)[j]? = some id → rank X id = j := by
    intro j hj
    obtain ⟨hlt, hget⟩ := List.getElem?_eq_some_iff.mp hj
    have hsplit : inOrder X = (inOrder X).take j ++ id :: (inOrder X).drop (j + 1) := by
      rw [← hget, List.getElem_cons_drop, List.take_append_drop]
    rw [(rank_of_split hsplit).1, List.length_take]
    exact min_eq_left hlt.le
  constructor
  · exact fun h => ⟨mem_inOrder.mp (List.mem_of_getElem? h), hrank i h⟩
  · intro ⟨hmem, hi⟩
    obtain ⟨j, hj⟩ := List.getElem?_of_mem (mem_inOrder.mpr hmem)
    rw [hrank j hj] at hi
    rwa [← hi]

theorem rank_add_revrank (h : id ∈ X) : rank X id + 1 + revrank X id = X.card := by
  obtain ⟨xs, ys, hsplit⟩ := List.append_of_mem (mem_inOrder.mpr h)
  obtain ⟨hrank, hrevrank⟩ := rank_of_split hsplit
  rw [hrank, hrevrank, ← length_inOrder, hsplit, List.length_append, List.length_cons]
  omega

theorem rank_lt_card (h : id ∈ X) : rank X id < X.card := by
  have hsum := rank_add_revrank h
  omega

theorem take_drop_inOrder (X : Finset UInt64) (start n : ℕ) :
    ((inOrder X).drop start).take n =
      inOrder (X.filter fun id => start ≤ rank X id ∧ rank X id < start + n) := by
  refine eq_of_lt_of_mem_iff ((inOrder_lt X).sublist ((List.take_sublist _ _).trans
    (List.drop_sublist _ _))) (inOrder_lt _) fun a => ?_
  rw [mem_inOrder, Finset.mem_filter, List.mem_iff_getElem?]
  constructor
  · intro ⟨j, hj⟩
    rw [List.getElem?_take] at hj
    split_ifs at hj with hlt
    rw [List.getElem?_drop, getElem?_inOrder] at hj
    exact ⟨hj.1, by omega, by omega⟩
  · intro ⟨hmem, hlo, hhi⟩
    refine ⟨rank X a - start, ?_⟩
    rw [List.getElem?_take, if_pos (by omega), List.getElem?_drop, getElem?_inOrder]
    exact ⟨hmem, by omega⟩

end IdSet

end

/-!
## The ids a key stores

A stored set is a finite set of ids, each under its own key, with metadata that
counts them and tells when they expire. A set without ids leaves nothing behind,
an expired one is not seen but still stored.
-/

section

/-- The metadata tells the number of ids and the time at which they expire. -/
structure SiLayout (m : SortedintMeta) (S : IdSet) : Prop where
  rtype : m.base.rtype = .sortedInt
  expireAt : m.base.expireAt = S.expireAt
  size : m.base.size.toNat = S.ids.card

/-- The data keys are those of the ids. -/
def SiRep (s : Store) (kc : KeyComposer) (key : Key) (X : Finset UInt64) : Prop :=
  SetIn encodeBeU64 X (s.family kc key .sortedIntData)

/-- The key holds a finite set, or nothing. -/
structure SiHolds (s : Store) (kc : KeyComposer) (key : Key) (S : IdSet) : Prop where
  only : HoldsOnly s kc key .sortedIntMeta
  rep : SiRep s kc key S.ids
  absent : S.ids = ∅ → s.metadata.get (composeSiMetaKey kc key) = none ∧ S = .empty
  present : S.ids ≠ ∅ → ∃ m : SortedintMeta,
    s.metadata.get (composeSiMetaKey kc key) = some m.encode ∧ SiLayout m S

/-- The writes belong to the set and leave another one, if they are within the sizes. -/
structure SiLeaves (s : Store) (kc : KeyComposer) (key : Key) (ops : Batch) (S : IdSet) : Prop where
  owned : ∀ o ∈ ops, o.OwnedBy kc key .sortedIntMeta
  holds : (s.apply ops).Fits → SiHolds (s.apply ops) kc key S

variable {s t : Store} {kc : KeyComposer} {key : Key} {S : IdSet} {X : Finset UInt64} {id : UInt64}
  {ids xs : List UInt64} {m : SortedintMeta} {now expireAt : UInt64} {ops : Batch}

/-! ## Keys of ids -/

theorem encodeBeU64_injective : Function.Injective encodeBeU64 := fun _ _ h =>
  UInt64.toBeBytes_injective h

theorem composeSiItemKey_eq_phys (kc : KeyComposer) (key : Key) (id : UInt64) :
    composeSiItemKey (composeSiPrefixStack kc key) id =
      Addr.phys ⟨kc, key, .sub .sortedIntData (encodeBeU64 id)⟩ :=
  (Addr.phys_sub kc key .sortedIntData (encodeBeU64 id)).symm

theorem composeSiKey_eq (kc : KeyComposer) (key : Key) (id : UInt64) :
    composeSiKey kc key id = composeSiItemKey (composeSiPrefixStack kc key) id :=
  (composeSiItemKey_eq_phys kc key id).symm

theorem extractId_itemKey (pre : Bytes) (id : UInt64) :
    extractId (composeSiItemKey pre id) pre.length = some id := by
  have htake : (encodeBeU64 id).take beLen = encodeBeU64 id := List.take_of_length_le (by
    simp [encodeBeU64, beLen])
  rw [extractId, if_pos (by simp [composeSiItemKey, encodeBeU64, beLen]), composeSiItemKey,
    List.drop_left, htake, decodeBeU64, if_pos (by simp [encodeBeU64, beLen]), htake, encodeBeU64,
    UInt64.fromBeBytes_toBeBytes]

theorem contains_itemKey (h : SiRep s kc key X) (id : UInt64) :
    s.data.contains (composeSiItemKey (composeSiPrefixStack kc key) id) = decide (id ∈ X) := by
  have hget : s.data.get (composeSiItemKey (composeSiPrefixStack kc key) id) =
      (s.family kc key .sortedIntData).get (encodeBeU64 id) := by
    rw [Store.get_family, composeSiItemKey_eq_phys]
    rfl
  rw [SortedMap.contains, hget]
  exact Bool.eq_iff_iff.mpr ((h.contains_iff encodeBeU64_injective id).trans decide_eq_true_iff.symm)

theorem SiRep.family_entries (h : SiRep s kc key X) :
    (s.family kc key .sortedIntData).entries = (IdSet.inOrder X).map fun id => (encodeBeU64 id, []) :=
  h.entries_eq (fun _ => IdSet.mem_inOrder)
    ((IdSet.inOrder_lt X).imp fun hlt => UInt64.toBeBytes_lt_iff.mpr hlt)

theorem SiRep.length_family (h : SiRep s kc key X) :
    (s.family kc key .sortedIntData).length = X.card := by
  rw [SortedMap.length, h.family_entries, List.length_map, IdSet.length_inOrder]

def itemEntry (kc : KeyComposer) (key : Key) (id : UInt64) : Bytes × Bytes :=
  (composeSiItemKey (composeSiPrefixStack kc key) id, [])

theorem SiRep.prefixed (h : SiRep s kc key X) :
    SortedMap.prefixed (composeSiPrefixStack kc key) s.data =
      (IdSet.inOrder X).map (itemEntry kc key) := by
  have hentries : (SortedMap.under (composeSiPrefixStack kc key) s.data).entries = _ := h.family_entries
  rw [SortedMap.prefixed_eq_map_under, hentries, List.map_map]
  rfl

theorem SiRep.range_eq (h : SiRep s kc key X) {lo hi : Bound Bytes}
    (hb : ∀ k, lo.startsAt k = true → hi.endsAt k = true → composeSiPrefixStack kc key <+: k) :
    s.data.range lo hi = ((IdSet.inOrder X).filter fun id =>
      lo.startsAt (composeSiItemKey (composeSiPrefixStack kc key) id) &&
        hi.endsAt (composeSiItemKey (composeSiPrefixStack kc key) id)).map (itemEntry kc key) := by
  have hentries : (SortedMap.under (composeSiPrefixStack kc key) s.data).entries = _ := h.family_entries
  rw [SortedMap.range_eq_map_under hb, hentries, List.filter_map, List.map_map]
  rfl

/-! ## Writes of ids -/

theorem ownedBy_item {o : WriteOp} (hp : o.partition = .data)
    (hk : o.key = composeSiItemKey (composeSiPrefixStack kc key) id) :
    o.OwnedBy kc key .sortedIntMeta :=
  ownedBy_sub .sortedIntData rfl hp (hk.trans (composeSiItemKey_eq_phys kc key id))

theorem ownedBy_siMeta {o : WriteOp} (hp : o.partition = .metadata)
    (hk : o.key = composeSiMetaKey kc key) : o.OwnedBy kc key .sortedIntMeta :=
  ownedBy_metadata rfl hp hk

def insertItem (kc : KeyComposer) (key : Key) (id : UInt64) : WriteOp :=
  .insertData (composeSiItemKey (composeSiPrefixStack kc key) id) []

def removeItem (kc : KeyComposer) (key : Key) (id : UInt64) : WriteOp :=
  .rmWeakData (composeSiItemKey (composeSiPrefixStack kc key) id)

theorem SiRep.insertItems (h : SiRep s kc key X) (xs : List UInt64) :
    SiRep (s.apply (xs.map (insertItem kc key))) kc key (X ∪ xs.toFinset) := by
  induction xs generalizing s X with
  | nil =>
    rw [List.toFinset_nil, Finset.union_empty]
    exact h
  | cons id xs ih =>
    have hone : SiRep (s.applyOp (insertItem kc key id)) kc key (Insert.insert id X) := by
      rw [SiRep, insertItem, composeSiItemKey_eq_phys, Store.family_insert]
      exact SetIn.insert h id
    rw [List.map_cons, Store.apply_cons, List.toFinset_cons, Finset.union_insert, ← Finset.insert_union]
    exact ih hone

theorem SiRep.removeItems (h : SiRep s kc key X) (xs : List UInt64) :
    SiRep (s.apply (xs.map (removeItem kc key))) kc key (X \ xs.toFinset) := by
  induction xs generalizing s X with
  | nil =>
    rw [List.toFinset_nil, Finset.sdiff_empty]
    exact h
  | cons id xs ih =>
    have hone : SiRep (s.applyOp (removeItem kc key id)) kc key (X.erase id) := by
      rw [SiRep, removeItem, composeSiItemKey_eq_phys, Store.family_rmWeak]
      exact SetIn.erase h encodeBeU64_injective id
    rw [List.map_cons, Store.apply_cons, List.toFinset_cons, Finset.sdiff_insert, ← Finset.erase_sdiff_comm]
    exact ih hone

theorem sortedIntData_clear (s : Store) (kc : KeyComposer) (key : Key) :
    (s.apply (clearPrefixInBatch s .data (composeSiPrefixStack kc key))).family kc key .sortedIntData = ∅ :=
  Store.family_apply_clear rfl fun _ h => h

/-! ## Lookups -/

theorem SiLayout.size_ne_zero (hl : SiLayout m S) (hne : S.ids ≠ ∅) : m.base.size ≠ 0 := by
  intro h0
  have hsize := hl.size
  rw [h0] at hsize
  exact hne (Finset.card_eq_zero.mp hsize.symm)

theorem SiHolds.getSiMeta (h : SiHolds s kc key S) (now : UInt64) :
    (S.live now = ∅ ∧ Wedb.getSiMeta s kc key now = .ok none) ∨
    (S.live now = S.ids ∧ S.ids ≠ ∅ ∧
      ∃ m, Wedb.getSiMeta s kc key now = .ok (some m) ∧ SiLayout m S) := by
  by_cases hids : S.ids = ∅
  · refine Or.inl ⟨?_, HoldsOnly.getMetaChecked_absent (M := SortedintMeta) h.only (h.absent hids).1 now⟩
    rw [IdSet.live, hids, ite_self]
  · obtain ⟨m, hget, hl⟩ := h.present hids
    have hdec := SimpleMeta.decode_encode hl.rtype
    by_cases hlive : S.expireAt = 0 ∨ now < S.expireAt
    · refine Or.inr ⟨if_pos hlive, hids, m, ?_, hl⟩
      refine HoldsOnly.getMetaChecked_present (M := SortedintMeta) h.only hget hdec ?_
      exact SimpleMeta.isExpired_eq_false (hl.size_ne_zero hids) (hl.expireAt ▸ hlive)
    · refine Or.inl ⟨if_neg hlive, ?_⟩
      refine HoldsOnly.getMetaChecked_expired (M := SortedintMeta) h.only hget hdec ?_
      rw [not_or, UInt64.not_lt] at hlive
      exact SimpleMeta.isExpired_eq_true (hl.expireAt ▸ hlive.1) (hl.expireAt ▸ hlive.2)

/-! ## Committing -/

theorem siHolds_empty (kc : KeyComposer) (key : Key) : SiHolds ∅ kc key .empty :=
  ⟨⟨rfl, fun _ _ _ => rfl⟩, .empty _, fun _ => ⟨rfl, rfl⟩, fun h => absurd rfl h⟩

theorem SiRep.applyMeta {o : WriteOp} (h : SiRep s kc key X)
    (ho : o.partition = .metadata) :
    SiRep (s.applyOp o) kc key X := by
  rwa [SiRep, Store.family_applyOp_of_metadata ho]

theorem SiHolds.commit_insert (honly : HoldsOnly s kc key .sortedIntMeta)
    (hops : ∀ o ∈ ops, o.OwnedBy kc key .sortedIntMeta)
    (hrep : SiRep (s.apply ops) kc key S.ids)
    (hl : SiLayout m S) (hne : S.ids ≠ ∅) :
    SiHolds (s.apply (ops ++ [.insertMeta (composeSiMetaKey kc key) m.encode])) kc key S := by
  refine ⟨honly.apply ?_, ?_, fun h0 => absurd h0 hne, fun _ => ⟨m, ?_, hl⟩⟩
  · exact ownedBy_append hops (ownedBy_siMeta rfl rfl)
  · rw [Store.apply_append]
    exact hrep.applyMeta (o := .insertMeta (composeSiMetaKey kc key) m.encode) rfl
  · rw [Store.apply_append]
    exact SortedMap.get_insert_self _ _ _

theorem SiHolds.commit_rm (honly : HoldsOnly s kc key .sortedIntMeta)
    (hops : ∀ o ∈ ops, o.OwnedBy kc key .sortedIntMeta)
    (hrep : SiRep (s.apply ops) kc key ∅) :
    SiHolds (s.apply (ops ++ [.rmMeta (composeSiMetaKey kc key)])) kc key .empty := by
  refine ⟨honly.apply ?_, ?_, fun _ => ⟨?_, rfl⟩, fun hne => absurd rfl hne⟩
  · exact ownedBy_append hops (ownedBy_siMeta rfl rfl)
  · rw [Store.apply_append]
    exact hrep.applyMeta (o := .rmMeta (composeSiMetaKey kc key)) rfl
  · rw [Store.apply_append, Store.apply_cons, Store.apply_nil, Store.applyOp_rmMeta,
      SortedMap.get_erase, if_pos rfl]

theorem SiHolds.of_local {kc' : KeyComposer} {key' : Key} (h : SiHolds s kc' key' S)
    (hops : ∀ o ∈ ops, o.LocalTo kc key) (hne : ¬(kc' = kc ∧ key' = key)) :
    SiHolds (s.apply ops) kc' key' S := by
  have hmeta : (s.apply ops).metadata.get (composeSiMetaKey kc' key') =
      s.metadata.get (composeSiMetaKey kc' key') :=
    at_apply_of_local (b := ⟨kc', key', .metadata .sortedIntMeta⟩) hops rfl hne
  refine ⟨h.only.of_local hops hne, ?_, fun h0 => ?_, fun h0 => ?_⟩
  · rw [SiRep, family_apply_of_local hops rfl hne]
    exact h.rep
  · exact ⟨hmeta.trans (h.absent h0).1, (h.absent h0).2⟩
  · obtain ⟨m, hget, hl⟩ := h.present h0
    exact ⟨m, hmeta.trans hget, hl⟩

end

end Wedb
