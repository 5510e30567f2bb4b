import Wedb.List.Writes

/-!
# Runs of list commands

The keys of all databases store their sequences side by side. A command writes to
one key, or moves an element between two, and the other keys keep what they have.
Every call of every run answers what the sequences answer and leaves the sequences
that the command leaves.
-/

namespace Wedb

open UInt64 (word)

/-- Writes after which every key stores its sequence and nothing else. -/
structure ListsLeft (s : Store) (ops : Batch) (σ : ListState) : Prop where
  only : ∀ kc key, ListsOnly (s.apply ops) kc key
  rep : ∀ kc key, ListRep (s.apply ops) kc key (σ (kc, key))

/-- Every key stores its sequence, whose length fits a signed word. -/
abbrev ListsHeld (s : Store) (σ : ListState) : Prop :=
  ∀ kc key, ListHeld s kc key (σ (kc, key))

section
variable {s : Store} {kc kc' : KeyComposer} {key key' : Key} {xs ys : List Bytes} {ops ops' : Batch}
  {σ : ListState} {now version : UInt64} {m : ListMeta}

theorem ListRep.of_local (h : ListRep s kc' key' xs) (hops : ∀ o ∈ ops, o.LocalTo kc key)
    (hne : ¬(kc' = kc ∧ key' = key)) : ListRep (s.apply ops) kc' key' xs := by
  have hmeta : (s.apply ops).metadata.get (composeListMetaKey kc' key') =
      s.metadata.get (composeListMetaKey kc' key') :=
    at_apply_of_local (b := ⟨kc', key', .metadata .listMeta⟩) hops rfl hne
  have hfamily := @family_apply_of_local s _ _ _ _ .listData _ hops rfl hne
  cases h with
  | absent hget hempty => exact .absent (hmeta.trans hget) (hfamily.trans hempty)
  | present hget hne hl => exact .present (hmeta.trans hget) hne (hfamily.symm ▸ hl)

theorem ListsHeld.leftAlone (h : ListsHeld s σ) : ListsLeft s [] σ :=
  ⟨fun kc key => (h kc key).only, fun kc key => (h kc key).rep⟩

theorem ListsLeft.held (h : ListsLeft s ops σ) (hfits : (s.apply ops).Fits) :
    ListsHeld (s.apply ops) σ := fun kc key =>
  ⟨h.only kc key, h.rep kc key,
    (h.rep kc key).length_le.trans_lt (hfits.length_family_lt_signed kc key .listData)⟩

theorem ListsLeft.step (h : ListsLeft s ops σ) (hleaves : ListLeaves (s.apply ops) kc key ops' ys) :
    ListsLeft s (ops ++ ops') (Function.update σ (kc, key) ys) := by
  have hlocal : ∀ o ∈ ops', o.LocalTo kc key := fun o ho => (hleaves.owned o ho).localTo
  refine ⟨fun kc' key' => ?_, fun kc' key' => ?_⟩
  all_goals
    by_cases heq : (kc', key') = (kc, key)
  · obtain ⟨rfl, rfl⟩ := Prod.mk.inj heq
    rw [Store.apply_append]
    exact (h.only kc' key').apply hleaves.owned
  · rw [Store.apply_append]
    exact (h.only kc' key').of_local hlocal fun hand => heq (Prod.ext hand.1 hand.2)
  · rw [heq, Function.update_self, Store.apply_append]
    obtain ⟨rfl, rfl⟩ := Prod.mk.inj heq
    exact hleaves.rep
  · rw [Function.update_of_ne heq, Store.apply_append]
    exact (h.rep kc' key').of_local hlocal fun hand => heq (Prod.ext hand.1 hand.2)

theorem ListsHeld.step (h : ListsHeld s σ) (hleaves : ListLeaves s kc key ops ys) :
    ListsLeft s ops (Function.update σ (kc, key) ys) := ListsLeft.step h.leftAlone hleaves

/-! ## Moving an element -/

theorem Seq.pop_one (left : Bool) (hne : xs ≠ []) :
    ∃ elem rest, Seq.pop left 1 xs = ([elem], rest) ∧
      xs[if left then 0 else xs.length - 1]? = some elem ∧ Seq.push left [elem] rest = xs := by
  cases left with
  | true =>
    obtain ⟨x, xs, rfl⟩ := List.exists_cons_of_ne_nil hne
    exact ⟨x, xs, rfl, rfl, rfl⟩
  | false =>
    obtain ⟨xs, x, rfl⟩ := (List.eq_nil_or_concat xs).resolve_left hne
    refine ⟨x, xs, ?_, ?_, ?_⟩ <;> simp [Seq.pop, Seq.push]

theorem Seq.push_ne_nil (left : Bool) (elem : Bytes) (xs : List Bytes) :
    Seq.push left [elem] xs ≠ [] := by
  cases left <;> simp [Seq.push]

theorem ListLayout.popEnd {left : Bool} {popped rest : List Bytes}
    (hl : ListLayout m xs (s.family kc key .listData)) (hne : xs ≠ []) (hlen : xs.length < 2 ^ 63)
    (hpop : Seq.pop left 1 xs = (popped, rest)) :
    PushReached s kc key (((m.setSize (m.base.size - 1)).popIndex left).1,
      [.rmData (composeListItem kc key (endIndex m left))]) rest := by
  have hpos := List.length_pos_of_ne_nil hne
  have hsize : m.base.size - 1 = UInt64.ofNat (xs.length - 1) := by
    rw [← UInt64.toNat_inj, UInt64.toNat_sub_of_le _ _ (hl.size_pos hne), hl.size,
      UInt64.toNat_ofNat_of_lt' (show _ < 2 ^ 64 by omega)]
    rfl
  have hbase := congrArg (fun size => { m.base with size }) hsize
  have hrest : rest = (Seq.pop left 1 xs).2 := by rw [hpop]
  rw [hrest, Seq.pop_take, min_eq_left hpos]
  cases left with
  | true =>
    have hremoves := removes_rmData kc key m.head 0
    rw [UInt64.word_zero] at hremoves
    exact hl.part hlen (by omega) hremoves (fun i => by rw [List.mem_singleton]; omega) hbase rfl
      (by rw [Nat.add_sub_cancel' hpos]; exact hl.tail)
  | false =>
    have hremoves := removes_rmData kc key m.head (xs.length - 1)
    rw [← hl.tail_sub_one hne] at hremoves
    exact hl.part hlen (by omega) hremoves (fun i => by rw [List.mem_singleton]; omega) hbase
      (UInt64.word_zero _).symm (by rw [Nat.zero_add]; exact hl.tail_sub_one hne)

theorem listPushStep_popIndex (kc : KeyComposer) (key : Key) (m : ListMeta) (ops : Batch)
    (elem : Bytes) (srcLeft dstLeft : Bool) :
    listPushStep kc key dstLeft (((m.setSize (m.base.size - 1)).popIndex srcLeft).1, ops) elem =
      (((m.popIndex srcLeft).1.pushIndex dstLeft).1, ops ++ [.insertData (composeListItem kc key
        ((m.popIndex srcLeft).1.pushIndex dstLeft).2) elem]) := by
  have hsize : m.base.size - 1 + 1 = m.base.size := UInt64.sub_add_cancel _ _
  cases srcLeft <;> cases dstLeft <;> simp [listPushStep, ListMeta.popIndex, ListMeta.pushIndex,
    ListMeta.popHead, ListMeta.popTail, ListMeta.pushHead, ListMeta.pushTail, ListMeta.setSize,
    hsize]

theorem getListItem_endIndex {elem : Bytes} (hl : ListLayout m xs (s.family kc key .listData))
    (hne : xs ≠ []) (hlen : xs.length < 2 ^ 63) (left : Bool)
    (hget : xs[if left then 0 else xs.length - 1]? = some elem) :
    getListItem s kc key (endIndex m left) = some elem := by
  have hindex : endIndex m left = word m.head (if left then 0 else xs.length - 1) := by
    cases left with
    | true => exact (UInt64.word_zero m.head).symm
    | false => exact hl.tail_sub_one hne
  rw [hindex, getListItem_word hl.stored (by split_ifs <;> omega), hget]

def ListState.moved (σ : ListState) (kc : KeyComposer) (src dst : Key) (dstLeft : Bool)
    (elem : Bytes) (rest : List Bytes) : ListState :=
  let σ := Function.update σ (kc, src) rest
  Function.update σ (kc, dst) (Seq.push dstLeft [elem] (σ (kc, dst)))

theorem lmove_self {elem : Bytes} {rest : List Bytes} {srcLeft dstLeft : Bool}
    (h : ListsHeld s σ) (hl : ListLayout m xs (s.family kc key .listData)) (hne : xs ≠ [])
    (hxs : σ (kc, key) = xs) (hpop : Seq.pop srcLeft 1 xs = ([elem], rest))
    (hback : Seq.push srcLeft [elem] rest = xs) :
    ListsLeft s (if srcLeft = dstLeft ∨ m.base.size = 1 then []
      else
        let (m', targetIdx) := (m.popIndex srcLeft).1.pushIndex dstLeft
        [.rmData (composeListItem kc key (endIndex m srcLeft)),
          .insertData (composeListItem kc key targetIdx) elem,
          .insertMeta (composeListMetaKey kc key) m'.encode])
      (σ.moved kc key key dstLeft elem rest) := by
  have hlen := hxs ▸ (h kc key).length_lt
  have hlength := congrArg List.length hback
  rw [Seq.length_push, List.length_singleton] at hlength
  rw [ListState.moved, Function.update_self, Function.update_idem]
  split_ifs with hstay
  · have hsame : Seq.push dstLeft [elem] rest = xs := by
      rcases hstay with rfl | hone
      · exact hback
      · have hsize := hl.size
        rw [hone] at hsize
        have hrest : rest = [] := List.length_eq_zero_iff.mp
          (Nat.succ_injective (hlength.trans hsize.symm))
        rw [← hback, hrest]
        cases srcLeft <;> cases dstLeft <;> rfl
    rw [hsame, ← hxs, Function.update_eq_self]
    exact h.leftAlone
  · have hpush := (hl.popEnd hne hlen hpop).step (by omega) dstLeft elem
    have hcommit := ListLeaves.commit_insert hpush (Seq.push_ne_nil dstLeft elem rest)
    rw [listPushStep_popIndex] at hcommit
    exact h.step hcommit

theorem lmove_across {elem : Bytes} {rest : List Bytes} {srcLeft dstLeft : Bool} {dst : Key}
    {mdst : ListMeta} (h : ListsHeld s σ) (hl : ListLayout m xs (s.family kc key .listData))
    (hne : xs ≠ []) (hxs : σ (kc, key) = xs) (hpop : Seq.pop srcLeft 1 xs = ([elem], rest))
    (hback : Seq.push srcLeft [elem] rest = xs) (hdst : key ≠ dst)
    (hstart : PushReached s kc dst (mdst, []) (σ (kc, dst))) :
    ListsLeft s (.rmData (composeListItem kc key (endIndex m srcLeft)) ::
        commitListBatch (composeListMetaKey kc key)
          ((m.setSize (m.base.size - 1)).popIndex srcLeft).1 ++
        ((listPushStep kc dst dstLeft (mdst, []) elem).2 ++ [.insertMeta (composeListMetaKey kc dst)
          (listPushStep kc dst dstLeft (mdst, []) elem).1.encode]))
      (σ.moved kc key dst dstLeft elem rest) := by
  have hlen := hxs ▸ (h kc key).length_lt
  have hroom := (h kc dst).length_lt
  have hlength := congrArg List.length hback
  rw [Seq.length_push, List.length_singleton] at hlength
  have hp := hl.popEnd hne hlen hpop
  have hsrc := ListLeaves.commit hp
  have hmid := h.step hsrc
  have hother : (kc, dst) ≠ (kc, key) := fun heq => hdst (Prod.mk.inj heq).2.symm
  have hdstStart : PushReached (s.apply ([.rmData (composeListItem kc key (endIndex m srcLeft))] ++
      commitListBatch (composeListMetaKey kc key)
        ((m.setSize (m.base.size - 1)).popIndex srcLeft).1)) kc dst (mdst, []) (σ (kc, dst)) := by
    refine ⟨hstart.owned, ?_⟩
    have hfamily := @family_apply_of_local s _ _ _ _ .listData _
      (fun o ho => (hsrc.owned o ho).localTo) rfl fun hand : kc = kc ∧ dst = key => hdst hand.2.symm
    exact hfamily.symm ▸ hstart.layout
  have hcommit := ListLeaves.commit_insert (hdstStart.step (by omega) dstLeft elem)
    (Seq.push_ne_nil dstLeft elem _)
  rw [ListState.moved, Function.update_of_ne hother]
  exact hmid.step hcommit

theorem lmove_spec (h : ListsHeld s σ) (now version : UInt64) (dst : Key)
    (srcLeft dstLeft : Bool) : ∃ ops,
      lmove s kc key now version dst srcLeft dstLeft =
        .ok ((Seq.pop srcLeft 1 (σ (kc, key))).1.head?, ops) ∧
      ListsLeft s ops (match Seq.pop srcLeft 1 (σ (kc, key)) with
        | ([], _) => σ
        | (elem :: _, rest) => σ.moved kc key dst dstLeft elem rest) := by
  obtain ⟨r, hr, hf⟩ := (h kc key).found now
  unfold lmove
  rw [hr]
  generalize hxs : σ (kc, key) = xs at hf
  cases hf with
  | absent _ =>
    have hpop : Seq.pop srcLeft 1 [] = ([], []) := by cases srcLeft <;> rfl
    rw [hpop]
    exact ⟨[], rfl, h.leftAlone⟩
  | @present m _ hne hlen hl =>
    obtain ⟨elem, rest, hpop, hget, hback⟩ := Seq.pop_one srcLeft hne
    rw [hpop]
    simp only [bind, Except.bind, if_neg (hl.size_ne_zero hne),
      getListItem_endIndex hl hne hlen srcLeft hget]
    by_cases hdst : key = dst
    · subst hdst
      rw [if_pos rfl]
      refine ⟨_, ?_, lmove_self h hl hne hxs hpop hback⟩
      split_ifs <;> rfl
    · obtain ⟨mdst, hprepare, hstart⟩ := prepareListMetaForWrite_spec (h kc dst) now version
      rw [if_neg hdst, hprepare]
      exact ⟨_, rfl, lmove_across h hl hne hxs hpop hback hdst hstart⟩

/-! ## Popping from several keys -/

theorem lmpopKeys_spec (h : ListsHeld s σ) (kc : KeyComposer) (now : UInt64) (left : Bool)
    (count : UInt64) (keys : List Key) : ∃ ops,
      lmpopKeys kc now left count s keys =
        .ok ((ListCall.specPop kc left count.toNat σ keys).1, ops) ∧
      ListsLeft s ops (ListCall.specPop kc left count.toNat σ keys).2 := by
  induction keys with
  | nil => exact ⟨[], rfl, h.leftAlone⟩
  | cons key keys ih =>
    obtain ⟨ops, hpop, hleaves, hnil⟩ := @listPopInternal_spec s kc key _ now (h kc key) count left
    obtain ⟨rest, hkeys, hleft⟩ := ih
    rw [lmpopKeys, hpop, ListCall.specPop]
    generalize Seq.pop left count.toNat (σ (kc, key)) = p at hleaves hnil
    obtain ⟨popped, xs⟩ := p
    simp only [bind, Except.bind]
    by_cases hempty : popped.isEmpty = true
    · rw [if_pos hempty, if_pos hempty, hnil (List.isEmpty_iff.mp hempty), Store.apply_nil, hkeys]
      exact ⟨_, rfl, hleft⟩
    · rw [if_neg hempty, if_neg hempty]
      exact ⟨ops, rfl, h.step hleaves⟩

theorem specPop_zero (kc : KeyComposer) (left : Bool) (σ : ListState) (keys : List Key) :
    ListCall.specPop kc left 0 σ keys = (none, σ) := by
  induction keys with
  | nil => rfl
  | cons key keys ih =>
    have hpop : (Seq.pop left 0 (σ (kc, key))).1 = [] := by cases left <;> simp [Seq.pop]
    rw [ListCall.specPop]
    simp only [hpop, List.isEmpty_nil, if_true]
    exact ih

theorem lmpop_spec (h : ListsHeld s σ) (kc : KeyComposer) (now : UInt64) (keys : List Key)
    (left : Bool) (count : UInt64) : ∃ ops,
      lmpop s kc now keys left count = .ok ((ListCall.specPop kc left count.toNat σ keys).1, ops) ∧
      ListsLeft s ops (ListCall.specPop kc left count.toNat σ keys).2 := by
  unfold lmpop
  split_ifs with hno
  · have hnone : ListCall.specPop kc left count.toNat σ keys = (none, σ) := by
      rcases hno with rfl | hempty
      · exact specPop_zero kc left σ keys
      · rw [List.isEmpty_iff.mp hempty]
        rfl
    rw [hnone]
    exact ⟨[], rfl, h.leftAlone⟩
  · exact lmpopKeys_spec h kc now left count keys

end

/-! ## Calls and runs -/

/-- The values a call pushes are as many as a slice in memory can hold. -/
def ListCall.FitsMemory (c : ListCall) : Prop :=
  ∀ left create values, c.command = .push left create values → values.length < 2 ^ 63

def ListCall.exec (e : Engine) (c : ListCall) : Except Error (ListReply × Engine) :=
  e.exec (c.plan e.store)

def ListState.after (σ : ListState) (c : ListCall) : ListState :=
  match c.spec σ with
  | .ok (_, σ') => σ'
  | .error _ => σ

/-- The runs from the empty store, with the sequences the same commands leave. -/
inductive ListRun : Engine → ListState → Prop
  | start : ListRun .empty fun _ => []
  | call {e e' : Engine} {σ : ListState} {c : ListCall} {reply : ListReply} : ListRun e σ →
      c.FitsMemory → c.exec e = .ok (reply, e') → ListRun e' (σ.after c)

/-- What a call queues and answers agrees with the sequences: its error is theirs, and its writes
leave their sequences, with their answer once they are stored. -/
inductive ListAnswers (s : Store) :
    Except Error (ListReply × Batch) → Except Error (ListReply × ListState) → Prop
  | error (err : Error) : ListAnswers s (.error err) (.error err)
  | ok {reply reply' : ListReply} {ops : Batch} {σ : ListState} : ListsLeft s ops σ →
      ((s.apply ops).Fits → reply' = reply) → ListAnswers s (.ok (reply', ops)) (.ok (reply, σ))

section
variable {s : Store} {σ : ListState} {e e' : Engine}

theorem ListAnswers.same {reply : ListReply} {ops : Batch} (h : ListsLeft s ops σ) :
    ListAnswers s (.ok (reply, ops)) (.ok (reply, σ)) := .ok h fun _ => rfl

theorem listPopOneInternal_spec {kc : KeyComposer} {key : Key} {xs : List Bytes}
    (h : ListHeld s kc key xs) (now : UInt64) (left : Bool) :
    ∃ ops, listPopOneInternal s kc key now left = .ok ((Seq.pop left 1 xs).1.head?, ops) ∧
      ListLeaves s kc key ops (Seq.pop left 1 xs).2 := by
  obtain ⟨ops, hpop, hleaves, -⟩ := @listPopInternal_spec s kc key xs now h 1 left
  have hnat : (1 : UInt64).toNat = 1 := rfl
  rw [hnat] at hpop hleaves
  rw [listPopInternal, if_neg (by decide), if_pos rfl] at hpop
  cases hone : listPopOneInternal s kc key now left with
  | error err =>
    rw [hone] at hpop
    cases hpop
  | ok x =>
    obtain ⟨v, ops'⟩ := x
    rw [hone] at hpop
    obtain ⟨hv, rfl⟩ := Prod.mk.inj (Except.ok.inj hpop)
    refine ⟨ops', ?_, hleaves⟩
    rw [← hv]
    cases v <;> rfl

theorem ListCall.plan_spec (h : ListsHeld s σ) (c : ListCall) (hc : c.FitsMemory) :
    ListAnswers s (c.plan s) (c.spec σ) := by
  obtain ⟨kc, key, now, version, command⟩ := c
  have hkey := h kc key
  cases command with
  | push left create values =>
    by_cases hno : values = [] ∨ create = false ∧ σ (kc, key) = []
    · simp only [plan, spec, if_pos hno, listPushInternal_refused hkey hno]
      exact .same h.leftAlone
    · have hroom := hc left create values rfl
      rw [not_or] at hno
      obtain ⟨n, ops, hplan, hn, hleaves⟩ := @listPushInternal_spec s kc key _ values now version
        left create hkey hroom hno.1 hno.2
      simp only [plan, spec, if_neg (not_or.mpr hno), hplan, Except.map, hn]
      exact .same (h.step hleaves)
  | popOne left =>
    obtain ⟨ops, hplan, hleaves⟩ := listPopOneInternal_spec hkey now left
    simp only [plan, spec, hplan, Except.map]
    exact .same (h.step hleaves)
  | pop left count =>
    obtain ⟨ops, hplan, hleaves, -⟩ := @listPopInternal_spec s kc key _ now hkey count left
    simp only [plan, spec, hplan, Except.map]
    exact .same (h.step hleaves)
  | llen =>
    obtain ⟨n, hplan, hn⟩ := @llen_eq s kc key _ now hkey
    simp only [plan, spec, hplan, Except.map, hn]
    exact .same h.leftAlone
  | lrange start stop =>
    simp only [plan, spec, lrange_eq hkey, Except.map]
    exact .same h.leftAlone
  | lindex index =>
    simp only [plan, spec, lindex_eq hkey, Except.map]
    exact .same h.leftAlone
  | lset index value =>
    have hset := @lset_spec s kc key _ now hkey index value
    simp only [plan, spec]
    cases hres : Seq.resolve (σ (kc, key)).length index.toInt with
    | none =>
      rw [hres] at hset
      rw [hset]
      exact .error _
    | some i =>
      rw [hres] at hset
      obtain ⟨ops, hplan, hleaves⟩ := hset
      rw [hplan]
      exact .same (h.step hleaves)
  | ltrim start stop =>
    obtain ⟨ops, hplan, hleaves⟩ := @ltrim_spec s kc key _ now hkey start stop
    simp only [plan, spec, hplan, Except.map]
    exact .same (h.step hleaves)
  | linsert before pivot elem =>
    obtain ⟨hempty, hstored⟩ := @linsert_spec s kc key _ now hkey before pivot elem
    simp only [plan, spec]
    by_cases hnil : σ (kc, key) = []
    · rw [hempty hnil, if_pos hnil]
      exact .same h.leftAlone
    · have hinsert := hstored hnil
      rw [if_neg hnil]
      cases hpos : Seq.insertPosition before pivot (σ (kc, key)) with
      | none =>
        rw [hpos] at hinsert
        rw [hinsert]
        exact .same h.leftAlone
      | some i =>
        rw [hpos] at hinsert
        obtain ⟨n, ops, hplan, hn, hleaves⟩ := hinsert
        rw [hplan]
        exact .ok (h.step hleaves) fun hfits =>
          congrArg ListReply.number (hn (hleaves.held hkey.only hfits).length_lt)
  | lrem count elem =>
    obtain ⟨n, ops, hplan, hn, hleaves⟩ := @lrem_spec s kc key _ now hkey count elem
    simp only [plan, spec, hplan, Except.map, hn]
    exact .same (h.step hleaves)
  | lpos elem options =>
    have hpos := @lpos_eq s kc key _ now hkey elem options
    simp only [plan, spec, hpos]
    generalize lposOptions options = opts
    obtain ⟨rank, count, maxLen⟩ := opts
    simp only
    split_ifs with hrank
    · exact .error _
    · exact .same h.leftAlone
  | lmove dst srcLeft dstLeft =>
    obtain ⟨ops, hplan, hleft⟩ := @lmove_spec s kc key σ h now version dst srcLeft dstLeft
    simp only [plan, spec, hplan, Except.map]
    generalize Seq.pop srcLeft 1 (σ (kc, key)) = p at hleft
    obtain ⟨popped, rest⟩ := p
    cases popped with
    | nil => exact .same hleft
    | cons elem popped => exact .same hleft
  | lmpop keys left count =>
    obtain ⟨ops, hplan, hleft⟩ := lmpop_spec h kc now keys left count
    simp only [plan, spec, hplan, Except.map]
    exact .same hleft

theorem listsHeld_empty : ListsHeld ∅ fun _ => [] :=
  fun _ _ => ⟨⟨rfl, fun _ _ _ => rfl⟩, .absent rfl rfl, by simp⟩

theorem ListCall.exec_spec {c : ListCall} {reply : ListReply} (h : ListsHeld e.store σ)
    (hc : c.FitsMemory) (hexec : c.exec e = .ok (reply, e')) :
    c.spec σ = .ok (reply, σ.after c) ∧ ListsHeld e'.store (σ.after c) := by
  obtain ⟨ops, hplan, hstore⟩ := Engine.exec_eq_ok hexec
  have hanswers := c.plan_spec h hc
  have hfits := e'.fits
  rw [hplan] at hanswers
  rw [hstore] at hfits ⊢
  rw [ListState.after]
  generalize c.spec σ = result at hanswers
  cases hanswers with
  | ok hleft hreply => exact ⟨by rw [hreply hfits], hleft.held hfits⟩

theorem ListRun.held (hr : ListRun e σ) : ListsHeld e.store σ := by
  induction hr with
  | start => exact listsHeld_empty
  | call _ hc hexec ih => exact (ListCall.exec_spec ih hc hexec).2

/-- After every run each key of each database stores its sequence, and every call that is
committed answers as the sequences do; a call is refused as they refuse it. -/
theorem lists_refine_sequences (hr : ListRun e σ) :
    (∀ kc key, ListRep e.store kc key (σ (kc, key))) ∧ ∀ c : ListCall, c.FitsMemory →
      (∀ err, c.plan e.store = .error err ↔ c.spec σ = .error err) ∧
      ∀ reply e', c.exec e = .ok (reply, e') → c.spec σ = .ok (reply, σ.after c) := by
  refine ⟨fun kc key => (hr.held kc key).rep, fun c hc => ⟨fun err => ?_, fun reply e' hexec => ?_⟩⟩
  · have hanswers := c.plan_spec hr.held hc
    generalize c.plan e.store = planned at hanswers ⊢
    generalize c.spec σ = result at hanswers ⊢
    cases hanswers with
    | error err' => rw [Except.error.injEq, Except.error.injEq]
    | ok _ _ => exact iff_of_false (fun heq => by cases heq) fun heq => by cases heq
  · exact (ListCall.exec_spec hr.held hc hexec).1

end

/-- Three elements pushed on the right, and the first of them moved to another key. -/
def sampleListPush : ListCall := ⟨⟨0, 0⟩, sampleKey, 1, 1, .push false true [[1], [2], [3]]⟩

def sampleListMove : ListCall := ⟨⟨0, 0⟩, sampleKey, 2, 2, .lmove sampleDst true false⟩

theorem lists_refine_sequences_sample : ∃ e e' σ, ListRun e σ ∧
    sampleListMove.exec e = .ok (.value (some [1]), e') ∧
    sampleListMove.spec σ = .ok (.value (some [1]), σ.after sampleListMove) := by
  have hrun : ((sampleListPush.exec .empty).toOption.bind fun x =>
      ((sampleListMove.exec x.2).map fun y => y.1).toOption) = some (.value (some [1])) := by
    decide +kernel
  cases hpush : sampleListPush.exec .empty with
  | error err =>
    rw [hpush] at hrun
    cases hrun
  | ok x =>
    obtain ⟨reply, e⟩ := x
    rw [hpush] at hrun
    obtain ⟨⟨moved, e'⟩, hmove, rfl⟩ := exists_ok_of_toOption_map hrun
    have hfits : sampleListPush.FitsMemory := by
      intro left create values heq
      cases heq
      decide
    have hreach := ListRun.start.call hfits hpush
    refine ⟨e, e', _, hreach, hmove, ?_⟩
    have hmoved := (lists_refine_sequences hreach).2 sampleListMove fun _ _ _ heq => by cases heq
    exact hmoved.2 _ e' hmove

end Wedb
