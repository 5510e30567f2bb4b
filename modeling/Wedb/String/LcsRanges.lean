import Wedb.String.Lcs

/-!
# The ranges of LCS

The walk back is described by the number of matches in the current range and by all ranges
that have been closed, kept or not. The ranges are the runs of the alignment of the strings
read from their ends, so that their lengths add up to the length of the subsequence.
-/

namespace Wedb

/-- A range of equal bytes in both strings. -/
structure StringLcsMatchedRange.Valid (s1 s2 : Bytes) (r : StringLcsMatchedRange) : Prop where
  pos : 0 < r.matchLen
  aLen : r.aEnd + 1 = r.aStart + r.matchLen
  bLen : r.bEnd + 1 = r.bStart + r.matchLen
  aFits : r.aEnd < s1.length
  bFits : r.bEnd < s2.length
  equal : (s1.drop r.aStart).take r.matchLen = (s2.drop r.bStart).take r.matchLen

/-- The second range lies before the first in both strings. -/
def StringLcsMatchedRange.Before (r r' : StringLcsMatchedRange) : Prop :=
  r'.aEnd < r.aStart ∧ r'.bEnd < r.bStart

variable {s1 s2 s : Bytes} {args : StringLcs} {w : LcsWalk} {all : List StringLcsMatchedRange}
  {i j c : ℕ}

theorem reverse_take_succ (hi : i < s.length) :
    (s.take (i + 1)).reverse = s.getD i 0 :: (s.take i).reverse := by
  rw [List.take_succ_eq_append_getElem hi, List.reverse_append, List.getD_eq_getElem _ _ hi,
    List.reverse_singleton, List.singleton_append]

theorem drop_eq_getD_cons (hi : i < s.length) : s.drop i = s.getD i 0 :: s.drop (i + 1) := by
  rw [List.drop_eq_getElem_cons hi, List.getD_eq_getElem _ _ hi]

theorem sum_alignRuns (c : ℕ) (xs ys : Bytes) :
    (alignRuns c xs ys).sum = c + lcsLength xs ys := by
  have hrun : ∀ c : ℕ, (if c = 0 then ([] : List ℕ) else [c]).sum = c := fun c => by
    by_cases hc : c = 0
    · rw [if_pos hc, hc]
      rfl
    · rw [if_neg hc, List.sum_singleton]
  induction c, xs, ys using alignRuns.induct with
  | case1 ys => rw [alignRuns_nil_left, hrun, lcsLength_nil_left, add_zero]
  | case2 c ys hc => rw [alignRuns_nil_left, hrun, lcsLength_nil_left, add_zero]
  | case3 x xs => rw [alignRuns_nil_right, hrun, lcsLength_nil_right, add_zero]
  | case4 c x xs hc => rw [alignRuns_nil_right, hrun, lcsLength_nil_right, add_zero]
  | case5 c xs y ys ih =>
    rw [alignRuns_cons_self, ih, lcsLength_cons_self]
    omega
  | case6 c x xs y ys hne ihx ihy =>
    rw [alignRuns_cons_of_ne hne, List.sum_append, hrun, lcsLength_cons_of_ne hne]
    by_cases hgt : lcsLength xs (y :: ys) > lcsLength (x :: xs) ys
    · rw [if_pos hgt, ihx, max_eq_left hgt.le, zero_add]
    · rw [if_neg hgt, ihy, max_eq_right (not_lt.mp hgt), zero_add]

namespace LcsWalk

/-- The current range has `c` matches and these are the ranges that have been closed. -/
structure Core (s1 s2 : Bytes) (args : StringLcs) (w : LcsWalk) (c : ℕ)
    (all : List StringLcsMatchedRange) : Prop where
  aFits : w.i + c ≤ s1.length
  bFits : w.j + c ≤ s2.length
  closed : c = 0 → w.aRangeStart = s1.length
  opened : c ≠ 0 → w.aRangeStart = w.i ∧ w.bRangeStart = w.j ∧ w.aRangeEnd + 1 = w.i + c ∧
    w.bRangeEnd + 1 = w.j + c
  equal : (s1.drop w.i).take c = (s2.drop w.j).take c
  idx : w.idx = lcsLength (s1.take w.i).reverse (s2.take w.j).reverse
  bytes : args.lcsType = .none → w.lcsBytes.length = lcsLength s1.reverse s2.reverse ∧
    w.idx ≤ w.lcsBytes.length ∧ (w.lcsBytes.drop w.idx).Sublist (s1.drop w.i) ∧
      (w.lcsBytes.drop w.idx).Sublist (s2.drop w.j)
  ranges : args.lcsType = .idx →
    w.ranges = all.filter fun r => keepsMatch args.minMatchLen r.matchLen
  valid : ∀ r ∈ all, r.Valid s1 s2
  sorted : all.Pairwise StringLcsMatchedRange.Before
  ahead : ∀ r ∈ all, w.i + c ≤ r.aStart ∧ w.j + c ≤ r.bStart

theorem Core.emitRange (h : Core s1 s2 args w c all) (hc : c ≠ 0) :
    Core s1 s2 args (w.emitRange args s1.length) 0
      (all ++ [⟨w.i, w.i + c - 1, w.j, w.j + c - 1, c⟩]) := by
  obtain ⟨haStart, hbStart, haEnd, hbEnd⟩ := h.opened hc
  have ha := h.aFits
  have hb := h.bFits
  have hlen : w.aRangeEnd - w.aRangeStart + 1 = c := by omega
  have hrange : (⟨w.aRangeStart, w.aRangeEnd, w.bRangeStart, w.bRangeEnd, c⟩ : StringLcsMatchedRange) =
      ⟨w.i, w.i + c - 1, w.j, w.j + c - 1, c⟩ := by
    rw [haStart, hbStart, show w.aRangeEnd = w.i + c - 1 by omega,
      show w.bRangeEnd = w.j + c - 1 by omega]
  refine ⟨by simp only [LcsWalk.emitRange]; omega, by simp only [LcsWalk.emitRange]; omega,
    fun _ => rfl, fun hne => absurd rfl hne, rfl, h.idx, h.bytes, fun hidx => ?_, fun r hr => ?_, ?_,
    fun r hr => ?_⟩
  · simp only [LcsWalk.emitRange, hlen, hrange, hidx, true_and]
    rw [List.filter_append, h.ranges hidx]
    by_cases hkeep : keepsMatch args.minMatchLen c = true <;> simp [hkeep]
  · rcases List.mem_append.mp hr with hold | hnew
    · exact h.valid r hold
    · rw [List.mem_singleton.mp hnew]
      exact ⟨Nat.pos_of_ne_zero hc, by simp only; omega, by simp only; omega, by simp only; omega,
        by simp only; omega, h.equal⟩
  · refine List.pairwise_append.mpr ⟨h.sorted, List.pairwise_singleton _ _, fun r hr r' hr' => ?_⟩
    rw [List.mem_singleton.mp hr']
    have hahead := h.ahead r hr
    exact ⟨by simp only; omega, by simp only; omega⟩
  · rcases List.mem_append.mp hr with hold | hnew
    · have hahead := h.ahead r hold
      simp only [LcsWalk.emitRange]
      omega
    · rw [List.mem_singleton.mp hnew]
      simp only [LcsWalk.emitRange]
      omega

/-- Without a current range, a step over bytes that differ keeps the length of what is left. -/
theorem Core.dropA (h : Core s1 s2 args w 0 all) (hi : w.i = i + 1)
    (hlen : lcsLength (s1.take i).reverse (s2.take w.j).reverse =
      lcsLength (s1.take w.i).reverse (s2.take w.j).reverse) :
    Core s1 s2 args { w with i := i } 0 all := by
  have ha := h.aFits
  refine ⟨by simp only; omega, h.bFits, h.closed, fun hne => absurd rfl hne, rfl,
    h.idx.trans hlen.symm, fun hnone => ?_, h.ranges, h.valid, h.sorted, fun r hr => ?_⟩
  · obtain ⟨hfull, hidx, hs1, hs2⟩ := h.bytes hnone
    refine ⟨hfull, hidx, hs1.trans ?_, hs2⟩
    rw [hi]
    exact List.drop_sublist_drop_left s1 (Nat.le_succ i)
  · have hahead := h.ahead r hr
    simp only
    omega

theorem Core.dropB (h : Core s1 s2 args w 0 all) (hj : w.j = j + 1)
    (hlen : lcsLength (s1.take w.i).reverse (s2.take j).reverse =
      lcsLength (s1.take w.i).reverse (s2.take w.j).reverse) :
    Core s1 s2 args { w with j := j } 0 all := by
  have hb := h.bFits
  refine ⟨h.aFits, by simp only; omega, h.closed, fun hne => absurd rfl hne, rfl,
    h.idx.trans hlen.symm, fun hnone => ?_, h.ranges, h.valid, h.sorted, fun r hr => ?_⟩
  · obtain ⟨hfull, hidx, hs1, hs2⟩ := h.bytes hnone
    refine ⟨hfull, hidx, hs1, hs2.trans ?_⟩
    rw [hj]
    exact List.drop_sublist_drop_left s2 (Nat.le_succ j)
  · have hahead := h.ahead r hr
    simp only
    omega

theorem joinMatch_spec (h : Core s1 s2 args w c all) (hi : w.i = i + 1) (hj : w.j = j + 1) (b : UInt8) :
    ∃ aEnd bEnd, (w.storeByte args b).joinMatch s1.length =
      ({ w.storeByte args b with
          aRangeStart := i, aRangeEnd := aEnd, bRangeStart := j, bRangeEnd := bEnd }, false) ∧
      aEnd + 1 = i + (c + 1) ∧ bEnd + 1 = j + (c + 1) := by
  have hsame : ∀ v : LcsWalk, v.i = w.i → v.j = w.j → v.aRangeStart = w.aRangeStart →
      v.aRangeEnd = w.aRangeEnd → v.bRangeStart = w.bRangeStart → v.bRangeEnd = w.bRangeEnd →
      ∃ aEnd bEnd, v.joinMatch s1.length = ({ v with
          aRangeStart := i, aRangeEnd := aEnd, bRangeStart := j, bRangeEnd := bEnd }, false) ∧
        aEnd + 1 = i + (c + 1) ∧ bEnd + 1 = j + (c + 1) := by
    intro v hvi hvj haS haE hbS hbE
    rw [joinMatch]
    by_cases hc : c = 0
    · have hpi : w.i - 1 = i := by omega
      have hpj : w.j - 1 = j := by omega
      rw [if_pos (haS.trans (h.closed hc)), hvi, hvj, hpi, hpj, hc]
      exact ⟨i, j, rfl, rfl, rfl⟩
    · obtain ⟨haStart, hbStart, haEnd, hbEnd⟩ := h.opened hc
      have ha := h.aFits
      have hpi : w.aRangeStart - 1 = i := by omega
      have hpj : w.bRangeStart - 1 = j := by omega
      have hne : v.aRangeStart ≠ s1.length := by omega
      have hboth : v.aRangeStart = v.i ∧ v.bRangeStart = v.j := by omega
      rw [if_neg hne, if_pos hboth, haS, hbS, hpi, hpj]
      exact ⟨v.aRangeEnd, v.bRangeEnd, rfl, by omega, by omega⟩
  rw [storeByte]
  split_ifs
  · exact hsame _ rfl rfl rfl rfl rfl rfl
  · exact hsame w rfl rfl rfl rfl rfl rfl

theorem storeByte_bytes (h : Core s1 s2 args w c all) (hnone : args.lcsType = .none) {n : ℕ}
    (hn : w.idx = n + 1) (b : UInt8) :
    (w.storeByte args b).lcsBytes.length = w.lcsBytes.length ∧
    (w.storeByte args b).lcsBytes.drop n = b :: w.lcsBytes.drop (n + 1) := by
  obtain ⟨-, hidx, -⟩ := h.bytes hnone
  have hpred : w.idx - 1 = n := by omega
  have hlt : n < (w.lcsBytes.set n b).length := by
    rw [List.length_set]
    omega
  rw [storeByte, if_pos ⟨hnone, by omega⟩, hpred]
  refine ⟨List.length_set, ?_⟩
  rw [List.drop_eq_getElem_cons hlt, List.getElem_set_self, List.drop_set_of_lt (Nat.lt_succ_self n)]

theorem Core.takeMatch (h : Core s1 s2 args w c all) (hi : w.i = i + 1) (hj : w.j = j + 1)
    (heq : s1.getD i 0 = s2.getD j 0) {aEnd bEnd : ℕ} (haEnd : aEnd + 1 = i + (c + 1))
    (hbEnd : bEnd + 1 = j + (c + 1)) :
    Core s1 s2 args { w.storeByte args (s1.getD i 0) with
        aRangeStart := i, aRangeEnd := aEnd, bRangeStart := j, bRangeEnd := bEnd
        idx := w.idx - 1, i := i, j := j } (c + 1) all := by
  have ha := h.aFits
  have hb := h.bFits
  have hia : i < s1.length := by omega
  have hjb : j < s2.length := by omega
  have hequal := h.equal
  have hidx := h.idx
  rw [hi, hj] at hequal hidx
  rw [reverse_take_succ hia, reverse_take_succ hjb, heq, lcsLength_cons_self] at hidx
  have hranges : (w.storeByte args (s1.getD i 0)).ranges = w.ranges := by
    rw [storeByte]
    split_ifs <;> rfl
  refine ⟨by simp only; omega, by simp only; omega, fun hne => absurd hne (Nat.succ_ne_zero c),
    fun _ => ⟨rfl, rfl, haEnd, hbEnd⟩, ?_, ?_, fun hnone => ?_,
    fun hty => hranges.trans (h.ranges hty), h.valid, h.sorted, fun r hr => ?_⟩
  · rw [drop_eq_getD_cons hia, drop_eq_getD_cons hjb, List.take_succ_cons, List.take_succ_cons,
      hequal, heq]
  · simp only
    omega
  · obtain ⟨hfull, hle, hs1, hs2⟩ := h.bytes hnone
    obtain ⟨hlen, hdrop⟩ := storeByte_bytes h hnone hidx (s1.getD i 0)
    have hpred : w.idx - 1 = lcsLength (s1.take i).reverse (s2.take j).reverse := by omega
    rw [hidx, hi] at hs1
    rw [hidx, hj] at hs2
    simp only [hpred, hlen, hdrop]
    refine ⟨hfull, by omega, ?_, ?_⟩
    · rw [drop_eq_getD_cons hia]
      exact hs1.cons_cons _
    · rw [drop_eq_getD_cons hjb, heq]
      exact hs2.cons_cons _
  · have hahead := h.ahead r hr
    simp only
    omega

/-- What holds between the steps: a current range has not reached the front of a string. -/
structure Inv (s1 s2 : Bytes) (args : StringLcs) (w : LcsWalk) (c : ℕ)
    (all : List StringLcsMatchedRange) : Prop extends Core s1 s2 args w c all where
  live : c ≠ 0 → 0 < w.i ∧ 0 < w.j
  runs : all.map StringLcsMatchedRange.matchLen ++
    alignRuns c (s1.take w.i).reverse (s2.take w.j).reverse = alignRuns 0 s1.reverse s2.reverse

def tableOf (s1 s2 : Bytes) : List (List ℕ) :=
  lcsTable s2 (List.replicate (s2.length + 1) 0) s1

theorem step_match (h : Inv s1 s2 args w c all) (hi : w.i = i + 1) (hj : w.j = j + 1)
    (heq : s1.getD i 0 = s2.getD j 0) :
    ∃ c' all', Inv s1 s2 args (w.step s1 s2 (tableOf s1 s2) args) c' all' ∧
      (w.step s1 s2 (tableOf s1 s2) args).i + (w.step s1 s2 (tableOf s1 s2) args).j < w.i + w.j := by
  have ha := h.aFits
  have hb := h.bFits
  obtain ⟨aEnd, bEnd, hjoin, haEnd, hbEnd⟩ := joinMatch_spec h.toCore hi hj (s1.getD i 0)
  have hcore := h.toCore.takeMatch hi hj heq haEnd hbEnd
  have hruns := h.runs
  rw [hi, hj, reverse_take_succ (show i < s1.length by omega),
    reverse_take_succ (show j < s2.length by omega), heq, alignRuns_cons_self] at hruns
  have hidx : (w.storeByte args (s1.getD i 0)).idx = w.idx := by
    rw [storeByte]
    split_ifs <;> rfl
  have hij : (w.storeByte args (s1.getD i 0)).i = w.i ∧ (w.storeByte args (s1.getD i 0)).j = w.j := by
    rw [storeByte]
    split_ifs <;> exact ⟨rfl, rfl⟩
  have hpi : i + 1 - 1 = i := rfl
  have hpj : j + 1 - 1 = j := rfl
  rw [step, hi, hj, hpi, hpj, if_pos heq, hjoin]
  simp only [hidx, hij.1, hij.2, hi, hj, hpi, hpj, Bool.false_or, Bool.or_eq_true, decide_eq_true_eq]
  by_cases hfront : i = 0 ∨ j = 0
  · rw [if_pos hfront]
    refine ⟨0, _, ⟨hcore.emitRange (Nat.succ_ne_zero c), fun hne => absurd rfl hne, ?_⟩, ?_⟩
    · rw [List.map_append, List.append_assoc, ← hruns]
      refine congrArg _ ?_
      simp only [LcsWalk.emitRange, List.map_cons, List.map_nil]
      rcases hfront with rfl | rfl
      · rw [List.take_zero, List.reverse_nil, alignRuns_nil_left, alignRuns_nil_left, if_pos rfl,
          if_neg (Nat.succ_ne_zero c), List.append_nil]
      · rw [List.take_zero, List.reverse_nil, alignRuns_nil_right, alignRuns_nil_right, if_pos rfl,
          if_neg (Nat.succ_ne_zero c), List.append_nil]
    · simp only [LcsWalk.emitRange]
      omega
  · rw [if_neg hfront]
    refine ⟨c + 1, all, ⟨hcore, fun _ => ?_, hruns⟩, ?_⟩
    · simp only
      omega
    · simp only
      omega

theorem step_skip (h : Inv s1 s2 args w c all) (hi : w.i = i + 1) (hj : w.j = j + 1)
    (hne : s1.getD i 0 ≠ s2.getD j 0) :
    ∃ c' all', Inv s1 s2 args (w.step s1 s2 (tableOf s1 s2) args) c' all' ∧
      (w.step s1 s2 (tableOf s1 s2) args).i + (w.step s1 s2 (tableOf s1 s2) args).j < w.i + w.j := by
  have ha := h.aFits
  have hb := h.bFits
  have hia : i < s1.length := by omega
  have hjb : j < s2.length := by omega
  have hruns := h.runs
  have hmax := lcsLength_cons_of_ne hne (s1.take i).reverse (s2.take j).reverse
  have hwhole := alignRuns_cons_of_ne hne c (s1.take i).reverse (s2.take j).reverse
  rw [← reverse_take_succ hia, ← reverse_take_succ hjb] at hmax hwhole
  rw [hi, hj, hwhole] at hruns
  -- The range is closed first; what moves does not enter into it.
  have hclose : ∃ v all', Core s1 s2 args v 0 all' ∧ v.i = w.i ∧ v.j = w.j ∧
      (∀ a b, (if w.aRangeStart ≠ s1.length then ({ w with i := a, j := b }).emitRange args s1.length
        else { w with i := a, j := b }) = { v with i := a, j := b }) ∧
      all'.map StringLcsMatchedRange.matchLen =
        all.map StringLcsMatchedRange.matchLen ++ if c = 0 then [] else [c] := by
    by_cases hc : c = 0
    · rw [if_pos hc]
      refine ⟨w, all, hc ▸ h.toCore, rfl, rfl, fun a b => ?_, (List.append_nil _).symm⟩
      rw [if_neg (not_not.mpr (h.closed hc))]
    · have hstart := (h.opened hc).1
      rw [if_neg hc]
      refine ⟨_, _, h.toCore.emitRange hc, rfl, rfl, fun a b => ?_, List.map_append⟩
      rw [if_pos (show w.aRangeStart ≠ s1.length by omega)]
      rfl
  obtain ⟨v, all', hcore, hvi, hvj, hmove, hall⟩ := hclose
  have hcells1 := lcsCell_lcsTable s1 s2 (show i ≤ s1.length by omega) (show j + 1 ≤ s2.length by omega)
  have hcells2 := lcsCell_lcsTable s1 s2 (show i + 1 ≤ s1.length by omega) (show j ≤ s2.length by omega)
  have hpi : i + 1 - 1 = i := rfl
  have hpj : j + 1 - 1 = j := rfl
  rw [step, hi, hj, hpi, hpj, if_neg hne, tableOf, hcells1, hcells2]
  by_cases hgt : lcsLength (s1.take i).reverse (s2.take (j + 1)).reverse >
      lcsLength (s1.take (i + 1)).reverse (s2.take j).reverse
  · rw [if_pos hgt] at hruns
    simp only [hgt, if_true]
    rw [hmove i (j + 1)]
    have hgo := hcore.dropA (hvi.trans hi) (by
      rw [hvi, hvj, hi, hj, hmax, max_eq_left hgt.le])
    rw [show ({ v with i := i, j := j + 1 } : LcsWalk) = { v with i := i } by rw [← hj, ← hvj]]
    refine ⟨0, all', ⟨hgo, fun hne => absurd rfl hne, ?_⟩, ?_⟩
    · simp only [hvj, hj]
      rw [hall, List.append_assoc, hruns]
    · simp only [hvj, hj]
      omega
  · rw [if_neg hgt] at hruns
    simp only [hgt, if_false]
    rw [hmove (i + 1) j]
    have hgo := hcore.dropB (hvj.trans hj) (by
      rw [hvi, hvj, hi, hj, hmax, max_eq_right (not_lt.mp hgt)])
    rw [show ({ v with i := i + 1, j := j } : LcsWalk) = { v with j := j } by rw [← hi, ← hvi]]
    refine ⟨0, all', ⟨hgo, fun hne => absurd rfl hne, ?_⟩, ?_⟩
    · simp only [hvi, hi]
      rw [hall, List.append_assoc, hruns]
    · simp only [hvi, hi]
      omega

theorem loop_inv (h : Inv s1 s2 args w c all) (fuel : ℕ) (hfuel : w.i + w.j ≤ fuel) :
    ∃ c' all', Inv s1 s2 args (loop s1 s2 (tableOf s1 s2) args fuel w) c' all' ∧
      ((loop s1 s2 (tableOf s1 s2) args fuel w).i = 0 ∨
        (loop s1 s2 (tableOf s1 s2) args fuel w).j = 0) := by
  induction fuel generalizing w c all with
  | zero => exact ⟨c, all, h, Or.inl (show w.i = 0 by omega)⟩
  | succ fuel ih =>
    rw [loop]
    by_cases hgo : w.i > 0 ∧ w.j > 0
    · rw [if_pos hgo]
      obtain ⟨i, hi⟩ := Nat.exists_eq_succ_of_ne_zero (Nat.pos_iff_ne_zero.mp hgo.1)
      obtain ⟨j, hj⟩ := Nat.exists_eq_succ_of_ne_zero (Nat.pos_iff_ne_zero.mp hgo.2)
      by_cases heq : s1.getD i 0 = s2.getD j 0
      · obtain ⟨c', all', hinv, hlt⟩ := step_match h hi hj heq
        exact ih hinv (by omega)
      · obtain ⟨c', all', hinv, hlt⟩ := step_skip h hi hj heq
        exact ih hinv (by omega)
    · rw [if_neg hgo]
      exact ⟨c, all, h, by omega⟩

/-! ## The threshold -/

def keepOnly (k : ℤ) (w : LcsWalk) : LcsWalk :=
  { w with ranges := w.ranges.filter fun r => keepsMatch k r.matchLen }

theorem emitRange_keepOnly (k : ℤ) (alen : ℕ) (w : LcsWalk) :
    (w.keepOnly k).emitRange ⟨.idx, k⟩ alen = (w.emitRange ⟨.idx, 0⟩ alen).keepOnly k := by
  have hall : ∀ n, keepsMatch 0 n = true := fun n => rfl
  simp only [emitRange, keepOnly, hall, true_and, if_true, List.filter_append]
  by_cases hkeep : keepsMatch k (w.aRangeEnd - w.aRangeStart + 1) = true <;> simp [hkeep]

theorem joinMatch_keepOnly (k : ℤ) (alen : ℕ) (w : LcsWalk) :
    (w.keepOnly k).joinMatch alen = ((w.joinMatch alen).1.keepOnly k, (w.joinMatch alen).2) := by
  have hstart : (w.keepOnly k).aRangeStart = w.aRangeStart := rfl
  have hboth : ((w.keepOnly k).aRangeStart = (w.keepOnly k).i ∧
      (w.keepOnly k).bRangeStart = (w.keepOnly k).j) ↔
      (w.aRangeStart = w.i ∧ w.bRangeStart = w.j) := Iff.rfl
  rw [joinMatch, joinMatch]
  by_cases hnew : w.aRangeStart = alen
  · rw [if_pos hnew, if_pos (hstart.trans hnew)]
    rfl
  · rw [if_neg hnew, if_neg (hstart ▸ hnew)]
    by_cases hnext : w.aRangeStart = w.i ∧ w.bRangeStart = w.j
    · rw [if_pos hnext, if_pos (hboth.mpr hnext)]
      rfl
    · rw [if_neg hnext, if_neg (hboth.not.mpr hnext)]

theorem storeByte_idx (k : ℤ) (b : UInt8) (w : LcsWalk) : w.storeByte ⟨.idx, k⟩ b = w :=
  if_neg fun h => nomatch h.1

theorem step_keepOnly (dp : List (List ℕ)) (k : ℤ) (w : LcsWalk) :
    (w.keepOnly k).step s1 s2 dp ⟨.idx, k⟩ = (w.step s1 s2 dp ⟨.idx, 0⟩).keepOnly k := by
  have hemit := fun v : LcsWalk => (emitRange_keepOnly k s1.length v).symm
  have hi : (w.keepOnly k).i = w.i := rfl
  have hj : (w.keepOnly k).j = w.j := rfl
  rw [step, step, storeByte_idx, storeByte_idx, joinMatch_keepOnly, hi, hj]
  by_cases heq : s1.getD (w.i - 1) 0 = s2.getD (w.j - 1) 0
  · simp only [heq, if_true]
    rw [apply_ite (keepOnly k), hemit]
    rfl
  · simp only [heq, if_false]
    rw [apply_ite (keepOnly k), hemit]
    by_cases hgt : lcsCell dp (w.i - 1) w.j > lcsCell dp w.i (w.j - 1) <;> simp only [hgt] <;> rfl

variable (s1 s2) in
theorem loop_keepOnly (dp : List (List ℕ)) (k : ℤ) (fuel : ℕ) (w : LcsWalk) :
    loop s1 s2 dp ⟨.idx, k⟩ fuel (w.keepOnly k) = (loop s1 s2 dp ⟨.idx, 0⟩ fuel w).keepOnly k := by
  induction fuel generalizing w with
  | zero => rfl
  | succ fuel ih =>
    rw [loop, loop, step_keepOnly, ih, apply_ite (keepOnly k)]
    rfl

def start (s1 s2 : Bytes) (args : StringLcs) : LcsWalk :=
  let lcsLen := lcsCell (tableOf s1 s2) s1.length s2.length
  let lcsBytes := if args.lcsType = .none then List.replicate lcsLen 0 else []
  ⟨s1.length, s2.length, lcsLen, lcsBytes, [], s1.length, 0, 0, 0⟩

theorem lcsCell_corner (s1 s2 : Bytes) : lcsCell (tableOf s1 s2) s1.length s2.length =
    lcsLength s1.reverse s2.reverse := by
  rw [tableOf, lcsCell_lcsTable s1 s2 le_rfl le_rfl, List.take_length, List.take_length]

theorem start_inv (s1 s2 : Bytes) (args : StringLcs) : Inv s1 s2 args (start s1 s2 args) 0 [] := by
  refine ⟨⟨le_rfl, le_rfl, fun _ => rfl, fun hne => absurd rfl hne, rfl, ?_, fun hnone => ?_,
    fun _ => rfl, fun r hr => (List.not_mem_nil hr).elim, .nil, fun r hr => (List.not_mem_nil hr).elim⟩,
    fun hne => absurd rfl hne, ?_⟩
  · simp only [start, lcsCell_corner, List.take_length]
  · simp only [start, hnone, if_true, lcsCell_corner, List.length_replicate, le_refl, true_and]
    rw [List.drop_eq_nil_of_le (List.length_replicate.le)]
    exact ⟨List.nil_sublist _, List.nil_sublist _⟩
  · simp only [start, List.take_length, List.map_nil, List.nil_append]

end LcsWalk

/-! ## The command -/

theorem lcsLength_reverse_spec (s1 s2 : Bytes) :
    IsLcsLength (lcsLength s1.reverse s2.reverse) s1 s2 := by
  have h := (lcsLength_spec s1.reverse s2.reverse).reverse
  rwa [List.reverse_reverse, List.reverse_reverse] at h

/-- What LCS is to return: the length, the ranges that reach the threshold, the bytes. -/
def LcsExact (s1 s2 : Bytes) (args : StringLcs) (result : StringLcsResult) : Prop :=
  match args.lcsType with
  | .len => ∃ n, result = .len n ∧ IsLcsLength n s1 s2
  | .idx => ∃ n ranges, IsLcsLength n s1 s2 ∧
      (∀ k ≤ 0, computeLcsWith s1 s2 ⟨.idx, k⟩ = .ok (.idx ranges n)) ∧
      (∀ r ∈ ranges, r.Valid s1 s2) ∧ ranges.Pairwise StringLcsMatchedRange.Before ∧
      (ranges.map StringLcsMatchedRange.matchLen).sum = n ∧
      result = .idx (if args.minMatchLen ≤ 0 then ranges
        else ranges.filter fun r => decide (args.minMatchLen ≤ r.matchLen)) n
  | .none => ∃ zs, result = .str zs ∧ zs.Sublist s1 ∧ zs.Sublist s2 ∧ IsLcsLength zs.length s1 s2

/-- The threshold fits into 32 bits, or no run of the alignment reaches what is left of it. -/
def ThresholdFits (s1 s2 : Bytes) (minMatchLen : ℤ) : Prop :=
  minMatchLen < 2 ^ 32 ∨
    ∀ n ∈ alignRuns 0 s1.reverse s2.reverse, (n : ℤ) < minMatchLen % 2 ^ 32

variable {result : StringLcsResult}

theorem walk_ends (s1 s2 : Bytes) (args : StringLcs) :
    ∃ all, LcsWalk.Core s1 s2 args (LcsWalk.loop s1 s2 (LcsWalk.tableOf s1 s2) args
        (s1.length + s2.length) (LcsWalk.start s1 s2 args)) 0 all ∧
      all.map StringLcsMatchedRange.matchLen = alignRuns 0 s1.reverse s2.reverse ∧
      (LcsWalk.loop s1 s2 (LcsWalk.tableOf s1 s2) args (s1.length + s2.length)
        (LcsWalk.start s1 s2 args)).idx = 0 := by
  obtain ⟨c, all, hinv, hend⟩ := LcsWalk.loop_inv (LcsWalk.start_inv s1 s2 args)
    (s1.length + s2.length) le_rfl
  have hc : c = 0 := by
    by_contra hne
    have hlive := hinv.live hne
    omega
  rw [hc] at hinv
  have hruns := hinv.runs
  refine ⟨all, hinv.toCore, ?_, ?_⟩
  · rcases hend with hend | hend
    · rwa [hend, List.take_zero, List.reverse_nil, alignRuns_nil_left, if_pos rfl, List.append_nil]
        at hruns
    · rwa [hend, List.take_zero, List.reverse_nil, alignRuns_nil_right, if_pos rfl, List.append_nil]
        at hruns
  · rw [hinv.idx]
    rcases hend with hend | hend
    · rw [hend, List.take_zero, List.reverse_nil, lcsLength_nil_left]
    · rw [hend, List.take_zero, List.reverse_nil, lcsLength_nil_right]

theorem keepsMatch_of_nonpos {k : ℤ} (hk : k ≤ 0) (n : ℕ) : keepsMatch k n = true := by
  rw [keepsMatch, decide_eq_true hk, Bool.true_or]

theorem keepsMatch_of_pos {k : ℤ} (hk : 0 < k) (n : ℕ) :
    keepsMatch k n = true ↔ k % 2 ^ 32 ≤ n := by
  rw [keepsMatch, decide_eq_false (not_le.mpr hk), Bool.false_or, decide_eq_true_eq]
  omega

theorem exists_ranges {k : ℤ} (hok : computeLcsWith s1 s2 ⟨.idx, k⟩ = .ok result) :
    ∃ all : List StringLcsMatchedRange,
      all.map StringLcsMatchedRange.matchLen = alignRuns 0 s1.reverse s2.reverse ∧
      (∀ r ∈ all, r.Valid s1 s2 ∧ r.matchLen < 2 ^ 32) ∧
      all.Pairwise StringLcsMatchedRange.Before ∧
      ∀ k', computeLcsWith s1 s2 ⟨.idx, k'⟩ =
        .ok (.idx (all.filter fun r => keepsMatch k' r.matchLen) (lcsLength s1.reverse s2.reverse)) := by
  simp only [computeLcsWith] at hok ⊢
  by_cases hempty : s1.length = 0 ∨ s2.length = 0
  · refine ⟨[], ?_, fun r hr => (List.not_mem_nil hr).elim, .nil, fun k' => ?_⟩
    · rcases hempty with h | h
      · rw [List.length_eq_zero_iff.mp h, List.reverse_nil, alignRuns_nil_left]
        rfl
      · rw [List.length_eq_zero_iff.mp h, List.reverse_nil, alignRuns_nil_right]
        rfl
    · rw [if_pos hempty]
      rcases hempty with h | h
      · rw [List.length_eq_zero_iff.mp h, List.reverse_nil, lcsLength_nil_left]
        rfl
      · rw [List.length_eq_zero_iff.mp h, List.reverse_nil, lcsLength_nil_right]
        rfl
  rw [if_neg hempty] at hok
  simp only [if_neg hempty]
  by_cases hlong : s1.length ≥ 2 ^ 32 - 2 ∨ s2.length ≥ 2 ^ 32 - 2
  · rw [if_pos hlong] at hok
    cases hok
  rw [if_neg hlong] at hok
  simp only [if_neg hlong]
  by_cases hsame : s1 = s2
  · have hpos : 0 < s1.length := by omega
    refine ⟨[⟨0, s1.length - 1, 0, s1.length - 1, s1.length⟩], ?_, fun r hr => ?_,
      List.pairwise_singleton _ _, fun k' => ?_⟩
    · rw [← hsame, alignRuns_self, List.length_reverse, zero_add, if_neg hpos.ne']
      rfl
    · rw [List.mem_singleton.mp hr, ← hsame]
      refine ⟨⟨hpos, ?_, ?_, ?_, ?_, rfl⟩, ?_⟩ <;> simp only <;> omega
    · rw [if_pos hsame, ← hsame, lcsLength_self, List.length_reverse]
      by_cases hkeep : keepsMatch k' s1.length = true <;> simp [hkeep]
  rw [if_neg hsame] at hok
  simp only [if_neg hsame]
  have hidx : ¬StringLcsType.idx = StringLcsType.len := by decide
  rw [if_neg hidx] at hok
  simp only [if_neg hidx]
  by_cases hlarge : (s1.length + 1) * (s2.length + 1) * 4 > maxStringSize
  · rw [if_pos hlarge] at hok
    cases hok
  simp only [if_neg hlarge]
  obtain ⟨all, hcore, hlens, -⟩ := walk_ends s1 s2 ⟨.idx, 0⟩
  have hkeepAll : all.filter (fun r => keepsMatch 0 r.matchLen) = all :=
    List.filter_eq_self.mpr fun r _ => keepsMatch_of_nonpos le_rfl r.matchLen
  have hranges := (hcore.ranges rfl).trans hkeepAll
  refine ⟨all, hlens, fun r hr => ⟨hcore.valid r hr, ?_⟩, hcore.sorted, fun k' => ?_⟩
  · have hv := hcore.valid r hr
    have ha := hv.aFits
    have hl := hv.aLen
    omega
  · have hloop := LcsWalk.loop_keepOnly s1 s2 (LcsWalk.tableOf s1 s2) k'
      (s1.length + s2.length) (LcsWalk.start s1 s2 ⟨.idx, 0⟩)
    rw [← hranges]
    refine congrArg Except.ok ?_
    rw [← LcsWalk.lcsCell_corner]
    exact congrArg (fun w : LcsWalk => StringLcsResult.idx w.ranges _) hloop

theorem lcsExact_idx_iff {k : ℤ} (hok : computeLcsWith s1 s2 ⟨.idx, k⟩ = .ok result) :
    LcsExact s1 s2 ⟨.idx, k⟩ result ↔ ThresholdFits s1 s2 k := by
  obtain ⟨all, hlens, hvalid, hsorted, hall⟩ := exists_ranges hok
  have hfull : ∀ k ≤ 0, computeLcsWith s1 s2 ⟨.idx, k⟩ =
      .ok (.idx all (lcsLength s1.reverse s2.reverse)) := fun k hk => by
    rw [hall, List.filter_eq_self.mpr fun r _ => keepsMatch_of_nonpos hk r.matchLen]
  have hresult : result = .idx (all.filter fun r => keepsMatch k r.matchLen)
      (lcsLength s1.reverse s2.reverse) := by
    rw [hall] at hok
    exact (Except.ok.inj hok).symm
  have hsum : (all.map StringLcsMatchedRange.matchLen).sum = lcsLength s1.reverse s2.reverse := by
    rw [hlens, sum_alignRuns, zero_add]
  have hruns : (∀ n ∈ alignRuns 0 s1.reverse s2.reverse, (n : ℤ) < k % 2 ^ 32) ↔
      ∀ r ∈ all, (r.matchLen : ℤ) < k % 2 ^ 32 := by
    rw [← hlens]
    simp only [List.mem_map, forall_exists_index, and_imp, forall_apply_eq_imp_iff₂]
  have hexact : LcsExact s1 s2 ⟨.idx, k⟩ result ↔ (0 < k →
      ∀ r ∈ all, (k % 2 ^ 32 ≤ r.matchLen ↔ k ≤ r.matchLen)) := by
    constructor
    · intro h hk r hr
      obtain ⟨n, ranges, -, hzero, -, -, -, hkept⟩ := h
      have heq := Except.ok.inj ((hfull 0 le_rfl).symm.trans (hzero 0 le_rfl))
      rw [StringLcsResult.idx.injEq] at heq
      rw [hresult, if_neg (not_le.mpr hk), StringLcsResult.idx.injEq, ← heq.1] at hkept
      have hmem : r ∈ all.filter (fun r => keepsMatch k r.matchLen) ↔
          r ∈ all.filter fun r => decide (k ≤ r.matchLen) := by rw [hkept.1]
      simpa only [List.mem_filter, hr, true_and, keepsMatch_of_pos hk, decide_eq_true_eq] using hmem
    · intro h
      refine ⟨_, all, lcsLength_reverse_spec s1 s2, hfull, fun r hr => (hvalid r hr).1, hsorted, hsum,
        ?_⟩
      rw [hresult]
      by_cases hk : k ≤ 0
      · rw [if_pos hk, List.filter_eq_self.mpr fun r _ => keepsMatch_of_nonpos hk r.matchLen]
      · rw [if_neg hk]
        refine congrArg (fun rs => StringLcsResult.idx rs _) (List.filter_congr fun r hr => ?_)
        rw [Bool.eq_iff_iff, keepsMatch_of_pos (not_le.mp hk), decide_eq_true_eq]
        exact h (not_le.mp hk) r hr
  rw [hexact, ThresholdFits, hruns]
  constructor
  · intro h
    by_cases hsmall : k < 2 ^ 32
    · exact Or.inl hsmall
    · refine Or.inr fun r hr => ?_
      have hlen := (hvalid r hr).2
      have hiff := h (by omega) r hr
      by_contra hreach
      have := hiff.mp (not_lt.mp hreach)
      omega
  · intro h hk r hr
    have hlen := (hvalid r hr).2
    rcases h with hsmall | hshort
    · rw [Int.emod_eq_of_lt hk.le hsmall]
    · have := hshort r hr
      omega

theorem lcsExact_len {k : ℤ} (hok : computeLcsWith s1 s2 ⟨.len, k⟩ = .ok result) :
    LcsExact s1 s2 ⟨.len, k⟩ result := by
  simp only [computeLcsWith] at hok
  by_cases hempty : s1.length = 0 ∨ s2.length = 0
  · rw [if_pos hempty] at hok
    refine ⟨0, (Except.ok.inj hok).symm, ?_⟩
    rcases hempty with h | h
    · rw [List.length_eq_zero_iff.mp h]
      exact .nil_left s2
    · rw [List.length_eq_zero_iff.mp h]
      exact .nil_right s1
  rw [if_neg hempty] at hok
  split_ifs at hok with hlong hsame
  · refine ⟨s1.length, (Except.ok.inj hok).symm, ?_⟩
    have h := lcsLength_spec s1 s1
    rwa [lcsLength_self, ← hsame] at *
  · exact ⟨_, (Except.ok.inj hok).symm, lcsLenOf_spec s1 s2⟩

theorem lcsExact_none {k : ℤ} (hok : computeLcsWith s1 s2 ⟨.none, k⟩ = .ok result) :
    LcsExact s1 s2 ⟨.none, k⟩ result := by
  simp only [computeLcsWith] at hok
  by_cases hempty : s1.length = 0 ∨ s2.length = 0
  · rw [if_pos hempty] at hok
    refine ⟨[], (Except.ok.inj hok).symm, List.nil_sublist _, List.nil_sublist _, ?_⟩
    rcases hempty with h | h
    · rw [List.length_eq_zero_iff.mp h]
      exact .nil_left s2
    · rw [List.length_eq_zero_iff.mp h]
      exact .nil_right s1
  rw [if_neg hempty] at hok
  have hnone : ¬StringLcsType.none = StringLcsType.len := by decide
  rw [if_neg hnone] at hok
  split_ifs at hok with hlong hsame hlarge
  · refine ⟨s1, (Except.ok.inj hok).symm, List.Sublist.refl _, hsame ▸ List.Sublist.refl _, ?_⟩
    have h := lcsLength_spec s1 s1
    rwa [lcsLength_self, ← hsame] at *
  · obtain ⟨all, hcore, -, hidx⟩ := walk_ends s1 s2 ⟨.none, k⟩
    obtain ⟨hfull, -, hs1, hs2⟩ := hcore.bytes rfl
    rw [hidx, List.drop_zero] at hs1 hs2
    refine ⟨_, (Except.ok.inj hok).symm, hs1.trans (List.drop_sublist _ _),
      hs2.trans (List.drop_sublist _ _), ?_⟩
    have h := lcsLength_reverse_spec s1 s2
    rwa [← hfull] at h

/-- LCS is exact in all modes but for thresholds that lose their high bits. -/
theorem computeLcsWith_exact_iff (hok : computeLcsWith s1 s2 args = .ok result) :
    LcsExact s1 s2 args result ↔ (args.lcsType = .idx → ThresholdFits s1 s2 args.minMatchLen) := by
  obtain ⟨ty, k⟩ := args
  cases ty with
  | none => exact iff_of_true (lcsExact_none hok) fun h => nomatch h
  | len => exact iff_of_true (lcsExact_len hok) fun h => nomatch h
  | idx => exact (lcsExact_idx_iff hok).trans ⟨fun h _ => h, fun h => h rfl⟩

theorem computeLcsWith_exact_iff_sample :
    LcsExact [97, 98] [97, 99] ⟨.idx, 1⟩ (.idx [⟨0, 0, 0, 0, 1⟩] 1) ↔
      (StringLcsType.idx = .idx → ThresholdFits [97, 98] [97, 99] 1) :=
  computeLcsWith_exact_iff (by decide)

/-- The threshold `2 ^ 32` is compared as zero. -/
theorem computeLcsWith_wraps : ¬∀ s1 s2 args result, computeLcsWith s1 s2 args = .ok result →
    LcsExact s1 s2 args result := by
  intro h
  obtain ⟨n, ranges, -, hzero, -, -, -, hkept⟩ :=
    h [97, 98] [97, 99] ⟨.idx, 2 ^ 32⟩ (.idx [⟨0, 0, 0, 0, 1⟩] 1) (by decide)
  have hfull : computeLcsWith [97, 98] [97, 99] ⟨.idx, 0⟩ = .ok (.idx [⟨0, 0, 0, 0, 1⟩] 1) := by
    decide
  have heq := Except.ok.inj (hfull.symm.trans (hzero 0 le_rfl))
  rw [StringLcsResult.idx.injEq] at heq
  rw [← heq.1, StringLcsResult.idx.injEq] at hkept
  exact absurd hkept.1 (by decide)

end Wedb
