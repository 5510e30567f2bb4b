import Wedb.Hash.Impl
import Wedb.List.Impl

/-!
# Deleting keys

`delImpl` walks the listed keys over the committed store and queues removals: a
string always, and without a live string the first composite metadata that is
physically present. It is complete exactly when no live type hides behind an
earlier one and no live key is listed twice.
-/

namespace Wedb

section
variable (s : Store) (kc : KeyComposer) (key : Key) (nowMs : UInt64)

def delFirstMeta : List KeyTag → Bool × Batch
  | [] => (false, [])
  | metaTag :: tags =>
    match s.metadata.get (kc.composeMetaKeyStack metaTag.asSlice key.bytes) with
    | some mBytes =>
      let hit :=
        match KeyMeta.decode mBytes with
        | some baseMeta => !baseMeta.isExpired nowMs
        | none => false
      (hit, rmMetaWithData s kc metaTag key)
    | none => delFirstMeta tags

def delString : Bool × Batch :=
  let rawK := composeStringKey kc key.bytes
  match s.data.get rawK with
  | some raw => (!isStringExpired (decodeStringValue raw).1 nowMs, [.rmData rawK])
  | none => (false, [])

def delOne : Bool × Batch :=
  let (hit, ops) := delString s kc key nowMs
  if !hit && !s.metadata.isEmpty then
    let (metaHit, metaOps) := delFirstMeta s kc key nowMs allCompositeMetaTags
    (metaHit, ops ++ metaOps)
  else (hit, ops)

end

def delImpl (e : Engine) (kc : KeyComposer) (nowMs : UInt64) (keys : List Key) :
    Except Error (ℕ × Engine) := do
  let ops := keys.flatMap fun k => (delOne e.store kc k nowMs).2
  let e' ← e.commit ops
  return (keys.countP fun k => (delOne e.store kc k nowMs).1, e')

/-- What a complete deletion does: the listed keys are gone at any later time,
the others keep every entry, and each live key counts once. -/
structure DelComplete (s s' : Store) (kc : KeyComposer) (now : UInt64) (keys : List Key) (n : ℕ) :
    Prop where
  gone : ∀ later, now ≤ later →
    existsImpl s' kc later keys = 0 ∧ ∀ k ∈ keys, keyTypeImpl s' kc k later = "none"
  frame : ∀ a : Addr, a.slot.Valid → ¬(a.kc = kc ∧ a.key ∈ keys) → s'.at a = s.at a
  count : n = (keys.filter fun k => existsOne s kc k now).dedup.length

def firstMeta (s : Store) (kc : KeyComposer) (key : Key) : Option KeyTag :=
  allCompositeMetaTags.find? fun tag =>
    s.metadata.contains (kc.composeMetaKeyStack tag.asSlice key.bytes)

/-- A live string has no live composite beside it, and without one every live
composite is the first stored metadata. -/
def LiveInFront (s : Store) (kc : KeyComposer) (now : UInt64) (key : Key) : Prop :=
  ∀ tag ∈ allCompositeMetaTags, (liveMeta s kc key now tag).isSome →
    liveString s kc key now = none ∧ firstMeta s kc key = some tag

section
variable {s t : Store} {kc : KeyComposer} {key : Key} {now : UInt64}

theorem delFirstMeta_eq (s : Store) (kc : KeyComposer) (key : Key) (now : UInt64)
    (tags : List KeyTag) :
    delFirstMeta s kc key now tags =
      match tags.find? fun tag =>
        s.metadata.contains (kc.composeMetaKeyStack tag.asSlice key.bytes) with
      | some tag => ((liveMeta s kc key now tag).isSome, rmMetaWithData s kc tag key)
      | none => (false, []) := by
  induction tags with
  | nil => rfl
  | cons metaTag tags ih =>
    rw [delFirstMeta, List.find?_cons]
    cases hm : s.metadata.get (kc.composeMetaKeyStack metaTag.asSlice key.bytes) with
    | none =>
      rw [SortedMap.contains_eq_false.mpr hm]
      exact ih
    | some mBytes =>
      rw [SortedMap.contains_eq_true.mpr ⟨mBytes, hm⟩]
      simp only [liveMeta, hm]
      cases KeyMeta.decode mBytes with
      | none => rfl
      | some m => by_cases h : m.isExpired now = true <;> simp [h]

theorem firstMeta_of_isEmpty (h : s.metadata.isEmpty = true) : firstMeta s kc key = none := by
  rw [firstMeta, List.find?_eq_none]
  intro tag _
  rw [SortedMap.contains_eq_false.mpr (SortedMap.get_of_isEmpty h _)]
  decide

theorem delString_eq (s : Store) (kc : KeyComposer) (key : Key) (now : UInt64) :
    delString s kc key now = ((liveString s kc key now).isSome,
      if (s.at ⟨kc, key, .str⟩).isSome then [.rmData (composeStringKey kc key.bytes)] else []) := by
  have hat : s.data.get (composeStringKey kc key.bytes) = s.at ⟨kc, key, .str⟩ := rfl
  rw [delString, liveString, hat]
  cases s.at ⟨kc, key, .str⟩ with
  | none => rfl
  | some raw => by_cases h : isStringExpired (decodeStringValue raw).1 now = true <;> simp [h]

theorem delOne_eq (s : Store) (kc : KeyComposer) (key : Key) (now : UInt64) :
    delOne s kc key now =
      if (liveString s kc key now).isSome then delString s kc key now
      else
        match firstMeta s kc key with
        | some tag => ((liveMeta s kc key now tag).isSome,
            (delString s kc key now).2 ++ rmMetaWithData s kc tag key)
        | none => (false, (delString s kc key now).2) := by
  have hhit : (delString s kc key now).1 = (liveString s kc key now).isSome := by
    rw [delString_eq]
  have hmeta := delFirstMeta_eq s kc key now allCompositeMetaTags
  rw [← firstMeta] at hmeta
  simp only [delOne, hhit, hmeta]
  by_cases hs : (liveString s kc key now).isSome = true
  · simp only [hs, Bool.not_true, Bool.false_and, Bool.false_eq_true, if_false, if_true]
    exact Prod.ext (by rw [hhit, hs]) rfl
  · by_cases he : s.metadata.isEmpty = true
    · simp [hs, he, firstMeta_of_isEmpty he]
    · cases hf : firstMeta s kc key <;> simp [hs, he]

/-- The slots a deletion clears under a listed key. -/
def DelClears (s : Store) (kc : KeyComposer) (now : UInt64) (key : Key) (slot : Slot) : Prop :=
  slot = .str ∨ liveString s kc key now = none ∧
    ∃ tag, firstMeta s kc key = some tag ∧ (slot = .metadata tag ∨ slot.ownedBy tag = true)

theorem firstMeta_mem {tag : KeyTag} (h : firstMeta s kc key = some tag) :
    tag ∈ allCompositeMetaTags := List.mem_of_find?_eq_some h

theorem delOne_value {o : WriteOp} (ho : o ∈ (delOne s kc key now).2) : o.value = none := by
  have hstr : ∀ o ∈ (delString s kc key now).2, o.value = none := by
    rw [delString_eq]
    intro o ho
    simp only at ho
    split_ifs at ho with h
    · rw [List.mem_singleton.mp ho]
      rfl
    · cases ho
  rw [delOne_eq] at ho
  split_ifs at ho with h
  · exact hstr o ho
  · split at ho
    · rcases List.mem_append.mp ho with ho | ho
      · exact hstr o ho
      · exact rmMetaWithData_value ho
    · exact hstr o ho

theorem at_apply_delString (kc : KeyComposer) (key : Key) (now : UInt64) {b : Addr} (hb : b.slot.Valid) (hst : s.at b = none → t.at b = none) :
    (t.apply (delString s kc key now).2).at b =
      if b.kc = kc ∧ b.key = key ∧ b.slot = .str then none else t.at b := by
  have heq : (⟨kc, key, .str⟩ : Addr) = b ↔ b.kc = kc ∧ b.key = key ∧ b.slot = .str := by
    obtain ⟨kc', key', slot⟩ := b
    rw [Addr.mk.injEq]
    exact ⟨fun h => ⟨h.1.symm, h.2.1.symm, h.2.2.symm⟩,
      fun h => ⟨h.1.symm, h.2.1.symm, h.2.2.symm⟩⟩
  rw [delString_eq]
  by_cases hsome : (s.at ⟨kc, key, .str⟩).isSome = true
  · rw [if_pos hsome]
    exact (Store.at_rm t (a := ⟨kc, key, .str⟩) (b := b) trivial hb).trans (if_congr heq rfl rfl)
  · rw [if_neg hsome, Store.apply_nil]
    split_ifs with h
    · rw [← heq] at h
      rw [hst]
      rw [← h]
      simpa using hsome
    · rfl

open Classical in
theorem at_apply_delOne (kc : KeyComposer) (key : Key) (now : UInt64) {b : Addr} (hb : b.slot.Valid) (hst : s.at b = none → t.at b = none) :
    (t.apply (delOne s kc key now).2).at b =
      if b.kc = kc ∧ b.key = key ∧ DelClears s kc now key b.slot then none else t.at b := by
  have hstr := at_apply_delString (t := t) kc key now hb hst
  rw [delOne_eq]
  by_cases hs : (liveString s kc key now).isSome = true
  · rw [if_pos hs, hstr]
    refine if_congr ?_ rfl rfl
    rw [DelClears, or_iff_left]
    intro h
    simp [h.1] at hs
  · have hnone : liveString s kc key now = none := by simpa using hs
    rw [if_neg hs]
    cases hf : firstMeta s kc key with
    | none =>
      simp only [hstr]
      refine if_congr ?_ rfl rfl
      simp [DelClears, hf]
    | some tag =>
      have htag := allCompositeMetaTags_isMeta (firstMeta_mem hf)
      simp only [Store.apply_append]
      rw [at_apply_rmMetaWithData kc key htag hb fun h => by rw [hstr, hst h, ite_self], hstr]
      by_cases h1 : b.kc = kc ∧ b.key = key
      · simp only [h1, true_and, DelClears, hnone, hf, Option.some.injEq, exists_eq_left']
        by_cases h2 : b.slot = .str <;> simp [h2, Slot.ownedBy]
      · rw [if_neg fun h => h1 ⟨h.1, h.2.1⟩, if_neg fun h => h1 ⟨h.1, h.2.1⟩,
          if_neg fun h => h1 ⟨h.1, h.2.1⟩]

theorem delAll_value {keys : List Key} {o : WriteOp}
    (ho : o ∈ keys.flatMap fun k => (delOne s kc k now).2) : o.value = none := by
  obtain ⟨k, -, hk⟩ := List.mem_flatMap.mp ho
  exact delOne_value hk

open Classical in
theorem at_apply_delAll {keys : List Key} {b : Addr} (hb : b.slot.Valid)
    (hst : s.at b = none → t.at b = none) :
    (t.apply (keys.flatMap fun k => (delOne s kc k now).2)).at b =
      if b.kc = kc ∧ b.key ∈ keys ∧ DelClears s kc now b.key b.slot then none else t.at b := by
  induction keys generalizing t with
  | nil => simp
  | cons k keys ih =>
    have hone := at_apply_delOne (t := t) kc k now hb hst
    rw [List.flatMap_cons, Store.apply_append, ih fun h => by rw [hone, hst h, ite_self], hone]
    by_cases h1 : b.kc = kc
    · by_cases h2 : b.key = k
      · subst h2
        by_cases h3 : DelClears s kc now b.key b.slot <;> simp [h1, h3]
      · simp [h1, h2]
    · simp [h1]

end

/-! ## When a deletion is complete -/

section
variable {s s' : Store} {kc : KeyComposer} {now : UInt64} {keys : List Key}

open Classical in
theorem delAll_gone_iff {k : Key} (hk : k ∈ keys) :
    existsOne (s.apply (keys.flatMap fun k => (delOne s kc k now).2)) kc k now = false ↔
      LiveInFront s kc now k := by
  set s' := s.apply (keys.flatMap fun k => (delOne s kc k now).2) with hs'
  have hat : ∀ slot : Slot, slot.Valid → s'.at ⟨kc, k, slot⟩ =
      if DelClears s kc now k slot then none else s.at ⟨kc, k, slot⟩ := by
    intro slot hslot
    rw [hs', at_apply_delAll (b := ⟨kc, k, slot⟩) hslot id]
    simp [hk]
  have hstr : liveString s' kc k now = none := by
    refine liveString_of_at_none ?_
    rw [hat .str trivial, if_pos (show DelClears s kc now k .str from Or.inl rfl)]
  rw [existsOne_eq_false, and_iff_right hstr]
  refine forall₂_congr fun tag htag => ?_
  have hslot := hat (.metadata tag) (allCompositeMetaTags_isMeta htag)
  have hclear : DelClears s kc now k (.metadata tag) ↔
      liveString s kc k now = none ∧ firstMeta s kc k = some tag := by
    simp only [DelClears, reduceCtorEq, false_or, Slot.ownedBy, Bool.false_eq_true, or_false,
      Slot.metadata.injEq]
    refine and_congr_right fun _ => ⟨?_, fun h => ⟨tag, h, rfl⟩⟩
    rintro ⟨u, hu, rfl⟩
    exact hu
  by_cases hc : DelClears s kc now k (.metadata tag)
  · rw [if_pos hc] at hslot
    exact iff_of_true (liveMeta_of_at_none hslot) fun _ => hclear.mp hc
  · rw [if_neg hc] at hslot
    rw [liveMeta_congr hslot, ← hclear]
    simp [hc]

theorem delOne_hit_of_liveInFront {k : Key} (h : LiveInFront s kc now k) :
    (delOne s kc k now).1 = existsOne s kc k now := by
  rw [delOne_eq]
  by_cases hs : (liveString s kc k now).isSome = true
  · rw [if_pos hs, delString_eq, existsOne, hs]
    rfl
  · have hnone : liveString s kc k now = none := by simpa using hs
    rw [if_neg hs]
    cases he : existsOne s kc k now with
    | false =>
      have hmeta := (existsOne_eq_false.mp he).2
      cases hf : firstMeta s kc k with
      | none => rfl
      | some tag => simp [hmeta tag (firstMeta_mem hf)]
    | true =>
      have hlive : ∃ tag ∈ allCompositeMetaTags, liveMeta s kc k now tag ≠ none := by
        by_contra hcon
        push Not at hcon
        rw [existsOne_eq_false.mpr ⟨hnone, hcon⟩] at he
        cases he
      obtain ⟨tag, htag, hm⟩ := hlive
      have hsome := Option.isSome_iff_ne_none.mpr hm
      rw [(h tag htag hsome).2]
      exact hsome

theorem countP_eq_dedup_filter_length {α : Type} [DecidableEq α] (p : α → Bool) (l : List α) :
    l.countP p = (l.filter p).dedup.length ↔ (l.filter p).Nodup := by
  rw [List.countP_eq_length_filter]
  constructor
  · intro h
    rw [← List.dedup_eq_self]
    exact (List.dedup_sublist _).eq_of_length h.symm
  · intro h
    rw [List.dedup_eq_self.mpr h]

end

/-- DEL is complete exactly when no live key is listed twice and every live type
of a listed key stands in front. -/
theorem delImpl_complete_iff (e : Engine) (kc : KeyComposer) (now : UInt64) (keys : List Key) :
    ∃ n e', delImpl e kc now keys = .ok (n, e') ∧
      (DelComplete e.store e'.store kc now keys n ↔
        (keys.filter fun k => existsOne e.store kc k now).Nodup ∧
          ∀ k ∈ keys, LiveInFront e.store kc now k) := by
  obtain ⟨e', he', hs⟩ := e.commit_of_forall_rm
    (b := keys.flatMap fun k => (delOne e.store kc k now).2) fun o ho => delAll_value ho
  refine ⟨_, e', by simp only [delImpl, he', bind, Except.bind]; rfl, ?_⟩
  have hgone : ∀ k ∈ keys, (existsOne e'.store kc k now = false ↔ LiveInFront e.store kc now k) :=
    fun k hk => by rw [hs, delAll_gone_iff hk]
  have hcount : (∀ k ∈ keys, LiveInFront e.store kc now k) →
      (keys.countP fun k => (delOne e.store kc k now).1) =
        keys.countP fun k => existsOne e.store kc k now := fun h =>
    List.countP_congr fun k hk => by rw [delOne_hit_of_liveInFront (h k hk)]
  constructor
  · intro h
    have hfront : ∀ k ∈ keys, LiveInFront e.store kc now k := by
      intro k hk
      rw [← hgone k hk]
      have hzero := (h.gone now le_rfl).1
      rw [existsImpl, List.countP_eq_zero] at hzero
      simpa using hzero k hk
    refine ⟨?_, hfront⟩
    rw [← countP_eq_dedup_filter_length, ← hcount hfront]
    exact h.count
  · rintro ⟨hnodup, hfront⟩
    have hnot : ∀ later, now ≤ later → ∀ k ∈ keys, existsOne e'.store kc k later = false :=
      fun later hl k hk => existsOne_mono ((hgone k hk).mpr (hfront k hk)) hl
    constructor
    · intro later hl
      refine ⟨?_, fun k hk => keyTypeImpl_of_not_exists (hnot later hl k hk)⟩
      rw [existsImpl, List.countP_eq_zero]
      intro k hk
      simp [hnot later hl k hk]
    · intro a ha hne
      classical
      rw [hs, at_apply_delAll ha id, if_neg fun h => hne ⟨h.1, h.2.1⟩]
    · rw [hcount hfront, countP_eq_dedup_filter_length]
      exact hnodup

def listOverExpiredHash : Except Error Engine := do
  let (_, ops) ← hset ∅ ⟨0, 0⟩ sampleKey 1 1 [([102], [1])]
  let e ← Engine.empty.commit ops
  let e ← e.commit (setKeyExpireAtImpl e.store ⟨0, 0⟩ sampleKey 1 10).2
  let (_, ops) ← rpush e.store ⟨0, 0⟩ sampleKey 20 2 [[7]]
  e.commit ops

/-- Only the expired hash is deleted. -/
theorem delImpl_leaves_list :
    ∃ e, listOverExpiredHash = .ok e ∧
      ∃ n e', delImpl e ⟨0, 0⟩ 20 [sampleKey] = .ok (n, e') ∧
        ¬DelComplete e.store e'.store ⟨0, 0⟩ 20 [sampleKey] n := by
  have hrun : (listOverExpiredHash.bind fun e => (delImpl e ⟨0, 0⟩ 20 [sampleKey]).map
      fun r => existsImpl r.2.store ⟨0, 0⟩ 20 [sampleKey]).toOption = some 1 := by
    decide +kernel
  obtain ⟨e, he, hrun⟩ := exists_ok_of_toOption_bind hrun
  obtain ⟨⟨n, e'⟩, hdel, hleft⟩ := exists_ok_of_toOption_map hrun
  refine ⟨e, he, n, e', hdel, fun h => ?_⟩
  rw [(h.gone 20 le_rfl).1] at hleft
  cases hleft

end Wedb
