import Wedb.Meta.SimpleMeta
import Wedb.Ordered.Distinct
import Wedb.Ordered.Scan

/-!
# Set commands

Each member of a set is one data key with an empty value, and the metadata counts the
members. The queries iterate the keys under the prefix of the set, behind a look at
its metadata.
-/

universe u

namespace Wedb

abbrev SetMeta := SimpleMeta .set .setMeta

def composeSetMetaKey (kc : KeyComposer) (key : Key) : Bytes :=
  kc.composeMetaKeyStack KeyTag.setMeta.asSlice key.bytes

def composeSetPrefix (kc : KeyComposer) (key : Key) : Bytes :=
  kc.composePrefixStack KeyTag.setData.asSlice key.bytes

def composeSetKey (kc : KeyComposer) (key : Key) (member : Bytes) : Bytes :=
  kc.composeSubkeyStack KeyTag.setData.asSlice key.bytes member

section
variable {σ : Type u} (s : Store) (kc : KeyComposer) (key : Key) (nowMs : UInt64)

def getSetMeta : Except Error (Option SetMeta) :=
  getMetaChecked SetMeta s kc key (composeSetMetaKey kc key) nowMs

def withSet (absent : σ) (present : SetMeta → σ) : Except Error σ :=
  (getSetMeta s kc key nowMs).map fun found =>
    match found with
    | some m => if m.base.size > 0 then present m else absent
    | none => absent

def siterPrefix (pre : Bytes) (f : σ → Bytes → σ × Bool) (st : σ) : σ :=
  foldBreak (fun st x => if ¬pre <+: x.1 then (st, false) else f st (x.1.drop pre.length)) st
    (SortedMap.prefixed pre s.data)

def siter (f : σ → Bytes → σ × Bool) (st : σ) : Except Error σ :=
  withSet s kc key nowMs st fun _ => siterPrefix s (composeSetPrefix kc key) f st

def smembers : Except Error (List Bytes) :=
  withSet s kc key nowMs [] fun _ =>
    siterPrefix s (composeSetPrefix kc key) (fun results m => (results ++ [m], true)) []

def sismember (member : Bytes) : Except Error Bool :=
  withSet s kc key nowMs false fun _ => s.data.contains (composeSetKey kc key member)

def scard : Except Error UInt64 :=
  (getSetMeta s kc key nowMs).map fun found => (found.map fun m => m.base.size).getD 0

def setMembers : List Bytes := (s.family kc key .setData).entries.map Prod.fst

end

/-! ## Queries and the stored members -/

section
variable {σ : Type u} {s : Store} {kc : KeyComposer} {key : Key} {now : UInt64} {m : SetMeta}

theorem setMembers_sorted (s : Store) (kc : KeyComposer) (key : Key) :
    (setMembers s kc key).Pairwise (· < ·) :=
  List.pairwise_map.mpr (s.family kc key .setData).sorted

theorem siterPrefix_eq (s : Store) (kc : KeyComposer) (key : Key) (f : σ → Bytes → σ × Bool) (st : σ) :
    siterPrefix s (composeSetPrefix kc key) f st = foldBreak f st (setMembers s kc key) := by
  rw [siterPrefix, SortedMap.prefixed_eq_map_under, foldBreak_map, setMembers, foldBreak_map]
  refine foldBreak_congr (fun t x _ => ?_) st
  rw [if_neg (not_not.mpr (List.prefix_append _ _)), List.drop_left]

theorem contains_composeSetKey (s : Store) (kc : KeyComposer) (key : Key) (member : Bytes) :
    s.data.contains (composeSetKey kc key member) = decide (member ∈ setMembers s kc key) := by
  have hget : s.data.get (composeSetKey kc key member) = (s.family kc key .setData).get member := by
    rw [Store.get_family]
    rfl
  rw [SortedMap.contains, hget, Bool.eq_iff_iff, Option.isSome_iff_exists, decide_eq_true_iff,
    setMembers, List.mem_map]
  constructor
  · rintro ⟨v, hv⟩
    exact ⟨(member, v), SortedMap.get_eq_some.mp hv, rfl⟩
  · rintro ⟨⟨name, v⟩, hmem, rfl⟩
    exact ⟨v, SortedMap.get_eq_some.mpr hmem⟩

theorem size_ne_zero_of_getSetMeta (h : getSetMeta s kc key now = .ok (some m)) :
    m.base.size ≠ 0 := by
  obtain ⟨-, hlive, v, -, hdec⟩ := getMetaChecked_eq_some h
  intro hzero
  have htype : m.base.rtype = .set := by
    have hdec' : (SimpleMeta.decode v : Option SetMeta) = some m := hdec
    rw [SimpleMeta.decode] at hdec'
    cases hbase : KeyMeta.decode v with
    | none =>
      rw [hbase] at hdec'
      cases hdec'
    | some base =>
      rw [hbase] at hdec'
      simp only at hdec'
      split_ifs at hdec' with hset
      cases hdec'
      exact hset
  have hexp : MetaOps.isExpired m now = true := by
    show m.base.isExpired now = true
    rw [KeyMeta.isExpired, KeyMeta.isEmptyableType, htype, hzero]
    rfl
  rw [hlive] at hexp
  cases hexp

end

end Wedb
