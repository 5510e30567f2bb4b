import Wedb.ZSet.Runs

/-!
# Ranks

A rank is the place of a member in the score index. The walk that counts up to a
member leaves off where the numerical order has passed it, while the index puts
the negative zero below the positive one: a member at the positive zero is missed
when a later name is stored at the negative zero, and the other one is missed by
the walk down.
-/

universe u

namespace Wedb

def storedMembers (s : Store) (kc : KeyComposer) (key : Key) : List ZSetMemberScore :=
  (s.family kc key .zSetData).entries.filterMap fun x =>
    (decodeSortableF64Slice x.2).map fun score => (x.1, score)

/-- The rank of each member is its index in both directions, other names have none. -/
structure RankAgrees (s : Store) (kc : KeyComposer) (key : Key) (now : UInt64) : Prop where
  member : ∀ x ∈ storedMembers s kc key, ∃ r size : ℕ,
    (zcard s kc key now).map UInt64.toNat = .ok size ∧
    zrank s kc key now x.1 = .ok (some r) ∧
    zrangebyrank s kc key now (Int64.ofNat r) (Int64.ofNat r) false = .ok [x] ∧
    zrevrank s kc key now x.1 = .ok (some (size - 1 - r))
  other : ∀ member, (∀ x ∈ storedMembers s kc key, x.1 ≠ member) →
    zrank s kc key now member = .ok none

/-- A member at the negative zero and one at the positive zero whose name comes first. -/
def Crossed (y x : ZSetMemberScore) : Prop := y.2 = .negZero ∧ x.2 = .zero ∧ x.1 < y.1

instance (y x : ZSetMemberScore) : Decidable (Crossed y x) :=
  inferInstanceAs (Decidable (_ ∧ _ ∧ _))

variable {s : Store} {kc : KeyComposer} {key : Key} {M : ZMembers} {now : UInt64}
  {x y : ZSetMemberScore} {ys zs : List ZSetMemberScore}

/-! ## Queries on what is stored -/

theorem ZSetRep.storedMembers_eq (h : ZSetRep s kc key M) : storedMembers s kc key = M.entries := by
  rw [storedMembers, h.data_entries, List.filterMap_map]
  refine (List.filterMap_congr fun x _ => ?_).trans List.filterMap_some
  rw [Function.comp_apply, decodeSortableF64Slice_encode]
  rfl

theorem ZMembers.ranked_of_length (h0 : M.length = 0) : M.ranked = [] := by
  rw [← List.length_eq_zero_iff, M.length_ranked, h0]

theorem ZSetHolds.zcard (h : ZSetHolds s kc key M) (now : UInt64) :
    ∃ card, Wedb.zcard s kc key now = .ok card ∧ card.toNat = M.length := by
  rcases h.getZsetMeta now with ⟨h0, hget⟩ | ⟨-, m, hget, hl⟩
  · refine ⟨0, ?_, h0.symm⟩
    rw [Wedb.zcard, hget]
    rfl
  · refine ⟨m.base.size, ?_, hl.size⟩
    rw [Wedb.zcard, hget]
    rfl

theorem ZSetHolds.zscore (h : ZSetHolds s kc key M) (now : UInt64) (member : Bytes) :
    Wedb.zscore s kc key now member = .ok (M.get member) := by
  rcases h.getZsetMeta now with ⟨h0, hget⟩ | ⟨-, m, hget, -⟩
  · rw [Wedb.zscore, hget, SortedMap.eq_empty_of_length h0]
    rfl
  · rw [Wedb.zscore, hget, get_composeZsetKey, h.rep.members]
    cases M.get member with
    | none => rfl
    | some score => exact congrArg Except.ok (decodeSortableF64Slice_encode score)

theorem ZSetHolds.ziterDirected {σ : Type u} (h : ZSetHolds s kc key M) (now : UInt64) (reverse : Bool)
    (f : σ → Bytes → F64 → σ × Bool) (st : σ) :
    Wedb.ziterDirected s kc key now reverse f st =
      .ok (foldBreak (fun st x => f st x.1 x.2) st (directed reverse M.ranked)) := by
  rcases h.getZsetMeta now with ⟨h0, hget⟩ | ⟨-, m, hget, -⟩
  · rw [Wedb.ziterDirected, hget, ZMembers.ranked_of_length h0]
    cases reverse <;> rfl
  · rw [Wedb.ziterDirected, hget]
    simp only [Except.map]
    rw [h.rep.score_prefixed, directed_map, foldBreak_scoreVisit]

theorem ZSetHolds.zrank (h : ZSetHolds s kc key M) (hx : M.get x.1 = some x.2) (now : UInt64) :
    Wedb.zrank s kc key now x.1 = .ok
      (if (foldBreak (fun st y => rankItem x.2 x.1 st y.1 y.2) (0, false) M.ranked).2 then
        some (foldBreak (fun st y => rankItem x.2 x.1 st y.1 y.2) (0, false) M.ranked).1 else none) := by
  rw [Wedb.zrank, zrankWithScore, h.zscore, hx]
  simp only [bind, Except.bind]
  rw [ziter, h.ziterDirected]
  simp only [pure, Except.pure, Except.map, directed, Bool.false_eq_true, if_false]
  split_ifs <;> rfl

theorem ZSetHolds.zrevrank (h : ZSetHolds s kc key M) (hx : M.get x.1 = some x.2) (now : UInt64) :
    Wedb.zrevrank s kc key now x.1 = .ok
      (if (foldBreak (fun st y => revrankItem x.2 x.1 st y.1 y.2) (0, false) M.ranked.reverse).2 then
        some (foldBreak (fun st y => revrankItem x.2 x.1 st y.1 y.2) (0, false) M.ranked.reverse).1
      else none) := by
  rw [Wedb.zrevrank, zrevrankWithScore, h.zscore, hx]
  simp only [bind, Except.bind]
  rw [ziterRev, h.ziterDirected]
  simp only [pure, Except.pure, Except.map, directed, if_true]
  split_ifs <;> rfl

theorem ZSetHolds.zrank_other (h : ZSetHolds s kc key M) {member : Bytes} (hget : M.get member = none)
    (now : UInt64) : Wedb.zrank s kc key now member = .ok none := by
  rw [Wedb.zrank, zrankWithScore, h.zscore, hget]
  rfl

theorem ZSetHolds.zrangebyrank_self (h : ZSetHolds s kc key M) (hsmall : M.length < 2 ^ 63)
    (hsplit : M.ranked = ys ++ x :: zs) (now : UInt64) :
    Wedb.zrangebyrank s kc key now (Int64.ofNat ys.length) (Int64.ofNat ys.length) false = .ok [x] := by
  obtain ⟨card, hcard, hlen⟩ := h.zcard now
  have hys : ys.length < M.length := by
    rw [← M.length_ranked, hsplit, List.length_append, List.length_cons]
    omega
  have hrange : zsetNormalizeRange card (Int64.ofNat ys.length) (Int64.ofNat ys.length) =
      some (ys.length, ys.length) := by
    rw [zsetNormalizeRange, Int64.toInt_ofNat_of_lt (by omega),
      UInt64.asI64_of_lt (by omega), hlen, normalizeRange]
    simp only [show ¬(M.length : ℤ) ≤ 0 by omega, show ¬(ys.length : ℤ) < 0 by omega,
      show ¬(ys.length : ℤ) ≥ M.length by omega, if_false, gt_iff_lt, lt_irrefl, Int.toNat_natCast]
  rw [Wedb.zrangebyrank, hcard]
  simp only [bind, Except.bind]
  rw [hrange]
  simp only
  rw [h.ziterDirected]
  have hwalk : (foldBreak (rankStep id ys.length ys.length (ys.length - ys.length + 1)) (0, [])
      M.ranked).2 = [x] := by
    rw [foldBreak_rank id (le_refl _) (Nat.zero_le _) [] (Nat.zero_sub _).symm, hsplit, Nat.sub_zero,
      List.drop_left, Nat.sub_self]
    rfl
  exact congrArg Except.ok hwalk

/-! ## One step of a ranking walk -/

theorem indexKey_lt_iff : indexKey encodeSortableF64 y < indexKey encodeSortableF64 x ↔
    y.2.totalOrder < x.2.totalOrder ∨ y.2 = x.2 ∧ y.1 < x.1 := encodeSortableF64_append_lt_iff

theorem zeros_of_order_eq {a b : F64} (h : a.totalOrder < b.totalOrder) (ho : a.order = b.order) :
    a = .negZero ∧ b = .zero := by
  rcases F64.eq_or_zeros_of_order_eq ho with rfl | hab | ⟨rfl, rfl⟩
  · exact absurd h (lt_irrefl _)
  · exact hab
  · exact absurd h (by decide)

/-- Of two members the numerical order agrees with the index unless they cross. -/
theorem crossed_iff (hlt : indexKey encodeSortableF64 y < indexKey encodeSortableF64 x) :
    y.2.order = x.2.order ∧ x.1 < y.1 ↔ Crossed y x := by
  constructor
  · intro ⟨ho, hname⟩
    rcases indexKey_lt_iff.mp hlt with hscore | ⟨-, hless⟩
    · obtain ⟨hy, hx⟩ := zeros_of_order_eq hscore ho
      exact ⟨hy, hx, hname⟩
    · exact absurd hname hless.not_gt
  · intro ⟨hy, hx, hname⟩
    refine ⟨?_, hname⟩
    rw [hy, hx, F64.order_negZero, F64.order_zero]

theorem order_le_of_indexKey_lt (hlt : indexKey encodeSortableF64 y < indexKey encodeSortableF64 x) :
    y.2.order ≤ x.2.order := by
  refine F64.order_le_of_totalOrder_le ?_
  rcases indexKey_lt_iff.mp hlt with hscore | ⟨heq, -⟩
  · exact hscore.le
  · exact (congrArg F64.totalOrder heq).le

theorem rankItem_before (hlt : indexKey encodeSortableF64 y < indexKey encodeSortableF64 x)
    (hname : y.1 ≠ x.1) (hx : x.2.isNan = false) (hy : y.2.isNan = false) (n : ℕ) :
    rankItem x.2 x.1 (n, false) y.1 y.2 =
      if Crossed y x then ((n, false), false) else ((n + 1, false), true) := by
  have hge : x.2.lt y.2 = false := by
    rw [← Bool.not_eq_true, F64.lt_iff hx hy, not_lt]
    exact order_le_of_indexKey_lt hlt
  have htie : (y.2.eq x.2 && decide (x.1 < y.1)) = true ↔ Crossed y x := by
    rw [Bool.and_eq_true, F64.eq_iff hy hx, decide_eq_true_eq]
    exact crossed_iff hlt
  rw [rankItem, beq_eq_false_iff_ne.mpr hname, Bool.and_false, hge, Bool.false_or]
  simp only [Bool.false_eq_true, if_false, htie]

theorem revrankItem_before (hlt : indexKey encodeSortableF64 y < indexKey encodeSortableF64 x)
    (hname : x.1 ≠ y.1) (hx : x.2.isNan = false) (hy : y.2.isNan = false) (n : ℕ) :
    revrankItem y.2 y.1 (n, false) x.1 x.2 =
      if Crossed y x then ((n, false), false) else ((n + 1, false), true) := by
  have hge : x.2.lt y.2 = false := by
    rw [← Bool.not_eq_true, F64.lt_iff hx hy, not_lt]
    exact order_le_of_indexKey_lt hlt
  have htie : (x.2.eq y.2 && decide (x.1 < y.1)) = true ↔ Crossed y x := by
    rw [Bool.and_eq_true, F64.eq_iff hx hy, decide_eq_true_eq, eq_comm]
    exact crossed_iff hlt
  rw [revrankItem, beq_eq_false_iff_ne.mpr hname, Bool.and_false, hge, Bool.false_or]
  simp only [Bool.false_eq_true, if_false, htie]

theorem rankItem_self (hx : x.2.isNan = false) (n : ℕ) :
    rankItem x.2 x.1 (n, false) x.1 x.2 = ((n, true), false) := by
  rw [rankItem, F64.eq_self hx, beq_self_eq_true]
  rfl

theorem revrankItem_self (hx : x.2.isNan = false) (n : ℕ) :
    revrankItem x.2 x.1 (n, false) x.1 x.2 = ((n, true), false) := by
  rw [revrankItem, F64.eq_self hx, beq_self_eq_true]
  rfl

/-! ## The walk up to a member -/

/-- Around a member of a list in index order: what comes before and what comes after. -/
structure Around (M : ZMembers) (ys : List ZSetMemberScore) (x : ZSetMemberScore)
    (zs : List ZSetMemberScore) : Prop where
  split : M.ranked = ys ++ x :: zs
  before : ∀ y ∈ ys, indexKey encodeSortableF64 y < indexKey encodeSortableF64 x ∧ y.1 ≠ x.1
  after : ∀ z ∈ zs, indexKey encodeSortableF64 x < indexKey encodeSortableF64 z ∧ z.1 ≠ x.1

theorem ZMembers.around (hx : M.get x.1 = some x.2) : ∃ ys zs, Around M ys x zs := by
  obtain ⟨ys, zs, hsplit⟩ := List.append_of_mem (ZMembers.mem_ranked.mpr hx)
  have hsorted : M.ranked.Pairwise fun y z =>
      indexKey encodeSortableF64 y < indexKey encodeSortableF64 z ∧ y.1 ≠ z.1 :=
    (sorted_byIndex encodeSortableF64_delimited M).and (List.pairwise_map.mp M.nodup_ranked)
  rw [hsplit, List.pairwise_append, List.pairwise_cons] at hsorted
  obtain ⟨-, ⟨hafter, -⟩, hbefore⟩ := hsorted
  refine ⟨ys, zs, hsplit, fun y hy => hbefore y hy x (by simp), fun z hz => ?_⟩
  exact ⟨(hafter z hz).1, (hafter z hz).2.symm⟩

namespace Around

theorem mem_before (h : Around M ys x zs) (hy : y ∈ ys) : M.get y.1 = some y.2 := by
  rw [← ZMembers.mem_ranked, h.split]
  exact List.mem_append_left _ hy

theorem mem_after (h : Around M ys x zs) (hy : y ∈ zs) : M.get y.1 = some y.2 := by
  rw [← ZMembers.mem_ranked, h.split]
  exact List.mem_append_right _ (List.mem_cons_of_mem x hy)

theorem length_eq (h : Around M ys x zs) : zs.length = M.length - 1 - ys.length := by
  rw [← M.length_ranked, h.split, List.length_append, List.length_cons]
  omega

theorem mem_before_of_lt (h : Around M ys x zs) (hy : M.get y.1 = some y.2)
    (hlt : indexKey encodeSortableF64 y < indexKey encodeSortableF64 x) : y ∈ ys := by
  have hmem := ZMembers.mem_ranked.mpr hy
  rw [h.split, List.mem_append, List.mem_cons] at hmem
  rcases hmem with hys | rfl | hzs
  · exact hys
  · exact absurd hlt (lt_irrefl _)
  · exact absurd hlt (h.after y hzs).1.not_gt

theorem rank_found (h : Around M ys x zs) (hnum : ∀ a score, M.get a = some score → score.isNan = false)
    (hx : x.2.isNan = false) (hcross : ∀ y ∈ ys, ¬Crossed y x) :
    foldBreak (fun st y => rankItem x.2 x.1 st y.1 y.2) (0, false) M.ranked = (ys.length, true) := by
  rw [h.split, foldBreak_position (fun y hy n => ?_) (rankItem_self hx), Nat.zero_add]
  obtain ⟨hlt, hname⟩ := h.before y hy
  rw [rankItem_before hlt hname hx (hnum _ _ (h.mem_before hy)), if_neg (hcross y hy)]

theorem revrank_found (h : Around M ys x zs)
    (hnum : ∀ a score, M.get a = some score → score.isNan = false)
    (hx : x.2.isNan = false) (hcross : ∀ z ∈ zs, ¬Crossed x z) :
    foldBreak (fun st y => revrankItem x.2 x.1 st y.1 y.2) (0, false) M.ranked.reverse =
      (zs.length, true) := by
  have hrev : M.ranked.reverse = zs.reverse ++ x :: ys.reverse := by
    rw [h.split, List.reverse_append, List.reverse_cons, List.append_assoc]
    rfl
  rw [hrev, foldBreak_position (fun y hy n => ?_) (revrankItem_self hx), Nat.zero_add,
    List.length_reverse]
  rw [List.mem_reverse] at hy
  obtain ⟨hlt, hname⟩ := h.after y hy
  rw [revrankItem_before hlt hname (hnum _ _ (h.mem_after hy)) hx, if_neg (hcross y hy)]

theorem rank_missed (h : Around M ys x zs)
    (hnum : ∀ a score, M.get a = some score → score.isNan = false) (hx : x.2.isNan = false)
    (hy : y ∈ ys) (hcross : Crossed y x) :
    (foldBreak (fun st y => rankItem x.2 x.1 st y.1 y.2) (0, false) M.ranked).2 = false := by
  have hstep : ∀ y ∈ ys, ∀ n, rankItem x.2 x.1 (n, false) y.1 y.2 =
      if Crossed y x then ((n, false), false) else ((n + 1, false), true) := fun y hy n =>
    rankItem_before (h.before y hy).1 (h.before y hy).2 hx (hnum _ _ (h.mem_before hy)) n
  rw [h.split]
  refine foldBreak_stopped (fun z hz n => ?_) hy (fun n => ?_) (x :: zs) 0
  · rw [hstep z hz]
    split_ifs
    · exact Or.inr rfl
    · exact Or.inl rfl
  · rw [hstep y hy, if_pos hcross]

end Around

/-! ## Agreement -/

theorem ZSetHolds.rankAgrees (h : ZSetHolds s kc key M) (hsmall : M.length < 2 ^ 63)
    (hcross : ∀ x ∈ M.entries, ∀ y ∈ M.entries, ¬Crossed y x) (now : UInt64) :
    RankAgrees s kc key now := by
  have hno : ∀ x y : ZSetMemberScore, M.get x.1 = some x.2 → M.get y.1 = some y.2 → ¬Crossed y x :=
    fun x y hx hy => hcross x (SortedMap.get_eq_some.mp hx) y (SortedMap.get_eq_some.mp hy)
  refine ⟨fun x hx => ?_, fun member hother => h.zrank_other ?_ now⟩
  · rw [h.rep.storedMembers_eq] at hx
    have hget := SortedMap.get_of_mem hx
    have hxn := h.rep.numbers _ _ hget
    obtain ⟨ys, zs, ha⟩ := ZMembers.around hget
    obtain ⟨card, hcard, hlen⟩ := h.zcard now
    refine ⟨ys.length, M.length, ?_, ?_, h.zrangebyrank_self hsmall ha.split now, ?_⟩
    · rw [hcard, ← hlen]
      rfl
    · rw [h.zrank hget, ha.rank_found h.rep.numbers hxn fun y hy => hno x y hget (ha.mem_before hy)]
      rfl
    · rw [h.zrevrank hget, ha.revrank_found h.rep.numbers hxn fun z hz => hno z x (ha.mem_after hz) hget,
        ← ha.length_eq]
      rfl
  · rw [h.rep.storedMembers_eq] at hother
    cases hget : M.get member with
    | none => rfl
    | some score => exact absurd rfl (hother (member, score) (SortedMap.get_eq_some.mp hget))

theorem ZSetHolds.rankAgrees_iff (h : ZSetHolds s kc key M) (hsmall : M.length < 2 ^ 63)
    (now : UInt64) : RankAgrees s kc key now ↔
      ¬∃ x ∈ storedMembers s kc key, ∃ y ∈ storedMembers s kc key, Crossed y x := by
  rw [h.rep.storedMembers_eq]
  constructor
  · intro hagree
    have hmember := hagree.member
    rw [h.rep.storedMembers_eq] at hmember
    intro ⟨x, hx, y, hy, hcross⟩
    obtain ⟨r, -, -, hrank, -, -⟩ := hmember x hx
    have hget := SortedMap.get_of_mem hx
    obtain ⟨ys, zs, ha⟩ := ZMembers.around hget
    have hbefore : y ∈ ys := by
      refine ha.mem_before_of_lt (SortedMap.get_of_mem hy) (indexKey_lt_iff.mpr (Or.inl ?_))
      rw [hcross.1, hcross.2.1]
      decide
    rw [h.zrank hget, ha.rank_missed h.rep.numbers (h.rep.numbers _ _ hget) hbefore hcross] at hrank
    cases hrank
  · intro hcross
    exact h.rankAgrees hsmall (fun x hx y hy hxy => hcross ⟨x, hx, y, hy, hxy⟩) now

/-- Ranks and ranges agree unless names cross at the two zeros. -/
theorem zset_rank_agrees_iff {e : Engine} (h : ZSetReachable e) (kc : KeyComposer) (key : Key)
    (now : UInt64) : RankAgrees e.store kc key now ↔
      ¬∃ x ∈ storedMembers e.store kc key, ∃ y ∈ storedMembers e.store kc key, Crossed y x := by
  obtain ⟨M, hM⟩ := h.holds kc key
  have hsmall := e.fits.length_family_lt_signed kc key .zSetData
  rw [hM.rep.length_data] at hsmall
  exact hM.rankAgrees_iff hsmall now

theorem zset_rank_agrees_iff_sample : ∃ e, replayZset .empty sampleZset = some e ∧
    RankAgrees e.store ⟨0, 0⟩ sampleKey 4 := by
  have hrun : (replayZset .empty sampleZset).map (fun e => storedMembers e.store ⟨0, 0⟩ sampleKey) =
      some [([97], ⟨0x3FF0000000000000⟩)] := by
    decide +kernel
  obtain ⟨e, he, hstored⟩ := Option.map_eq_some_iff.mp hrun
  refine ⟨e, he, (zset_rank_agrees_iff (.replay .start he) ⟨0, 0⟩ sampleKey 4).mpr ?_⟩
  rw [hstored]
  decide

def crossedZset : List ZSetCall :=
  [⟨⟨0, 0⟩, sampleKey, 1, 1, .zadd [(.zero, [97]), (.negZero, [98])] []⟩]

theorem zset_rank_disagrees : ∃ e, ZSetReachable e ∧
    zrank e.store ⟨0, 0⟩ sampleKey 2 [97] = .ok none ∧ ¬RankAgrees e.store ⟨0, 0⟩ sampleKey 2 := by
  have hrun : (replayZset .empty crossedZset).map (fun e =>
      (zrank e.store ⟨0, 0⟩ sampleKey 2 [97], storedMembers e.store ⟨0, 0⟩ sampleKey)) =
        some (.ok none, [([97], .zero), ([98], .negZero)]) := by
    decide +kernel
  obtain ⟨e, he, hvals⟩ := Option.map_eq_some_iff.mp hrun
  rw [Prod.mk.injEq] at hvals
  obtain ⟨hrank, hstored⟩ := hvals
  refine ⟨e, .replay .start he, hrank, fun hagree => ?_⟩
  obtain ⟨r, -, -, hr, -⟩ := hagree.member ([97], .zero) (by rw [hstored]; simp)
  rw [hrank] at hr
  cases hr

end Wedb
