import Mathlib.Tactic

/-!
# Slices of arrays

A slice names the indices of an array from a start to a stop by a step, each of them
possibly absent or negative. The code normalises the two ends by the sign of the step and
walks from one to the other in machine words; here an addition that does not fit the word
has no result.
-/

namespace Wedb

inductive SliceIndex
  | index (idx : Int64)
  | slice (start stop step : Option Int64)
  deriving DecidableEq, Repr

/-- The length of an array, which fits a signed word. -/
structure ArrayLen where
  val : ℕ
  small : val < 2 ^ 63

namespace SliceIndex

def isizeMin : ℤ := -2 ^ 63

def isizeMax : ℤ := 2 ^ 63 - 1

def addIsize (a b : ℤ) : Option ℤ :=
  if isizeMin ≤ a + b ∧ a + b ≤ isizeMax then some (a + b) else none

variable (len : ArrayLen)

def pushIndex (i : ℤ) : List ℕ := if 0 ≤ i ∧ i.toNat < len.val then [i.toNat] else []

def normalizeIndex (idx : ℤ) : Option (Option ℕ) :=
  (if idx < 0 then addIsize len.val idx else some idx).map fun actual =>
    (pushIndex len actual).head?

/-- Whether the walk goes on: up before the stop, or down after it. -/
def Continues (stepVal e i : ℤ) : Prop := if 0 < stepVal then i < e else e < i

instance (stepVal e i : ℤ) : Decidable (Continues stepVal e i) :=
  inferInstanceAs (Decidable (ite _ _ _))

theorem continues_measure {stepVal e i : ℤ} (h : Continues stepVal e i) (hstep : stepVal ≠ 0) :
    (if 0 < stepVal then e - (i + stepVal) else i + stepVal - e).toNat <
      (if 0 < stepVal then e - i else i - e).toNat := by
  rw [Continues] at h
  split_ifs at h ⊢ <;> omega

theorem eq_add_of_addIsize {a b c : ℤ} (h : addIsize a b = some c) : c = a + b := by
  rw [addIsize] at h
  split_ifs at h
  exact (Option.some.inj h).symm

def walk (stepVal e i : ℤ) (out : List ℕ) : Option (List ℕ) :=
  if Continues stepVal e i ∧ stepVal ≠ 0 then
    match _ : addIsize i stepVal with
    | none => none
    | some next => walk stepVal e next (out ++ pushIndex len i)
  else some out
termination_by (if 0 < stepVal then e - i else i - e).toNat
decreasing_by
  rename_i h hnext
  rw [eq_add_of_addIsize hnext]
  exact continues_measure h.1 h.2

def walkEnds (start stop : Option Int64) (stepVal : ℤ) : Option (ℤ × ℤ) :=
  let lenIsize : ℤ := len.val
  if 0 < stepVal then
    (match start with
      | some v => if v.toInt < 0 then (addIsize lenIsize v.toInt).map fun x => max x 0
        else some (min v.toInt lenIsize)
      | none => some 0).bind fun s =>
    (match stop with
      | some v => if v.toInt < 0 then (addIsize lenIsize v.toInt).map fun x => max x 0
        else some (min v.toInt lenIsize)
      | none => some lenIsize).map fun e => (s, e)
  else
    (match start with
      | some v => if v.toInt < 0 then addIsize lenIsize v.toInt
        else some (min v.toInt (lenIsize - 1))
      | none => some (lenIsize - 1)).bind fun s =>
    (match stop with
      | some v => if v.toInt < 0 then addIsize lenIsize v.toInt else some v.toInt
      | none => some (-1)).map fun e => (s, e)

def resolveSliceIndices (item : SliceIndex) (out : List ℕ) : Option (List ℕ) :=
  if len.val = 0 then some out
  else
    match item with
    | .index idx => (normalizeIndex len idx.toInt).map fun actual => out ++ actual.toList
    | .slice start stop step =>
      let stepVal : ℤ := (step.map Int64.toInt).getD 1
      if stepVal = 0 then some out
      else (walkEnds len start stop stepVal).bind fun (s, e) => walk len stepVal e s out

/-! ## The slice of the standard -/

def points (stepVal e i : ℤ) : List ℤ :=
  if Continues stepVal e i ∧ stepVal ≠ 0 then i :: points stepVal e (i + stepVal) else []
termination_by (if 0 < stepVal then e - i else i - e).toNat
decreasing_by
  rename_i h
  exact continues_measure h.1 h.2

def normalize (len : ℕ) (i : ℤ) : ℤ := if 0 ≤ i then i else len + i

/-- The indices that a slice selects: from the lower bound up before the upper one, or from
the upper bound down before the lower one. -/
def sliceOf (len : ℕ) (start stop : Option ℤ) (step : ℤ) : List ℕ :=
  let nStart := normalize len (start.getD (if 0 ≤ step then 0 else len - 1))
  let nEnd := normalize len (stop.getD (if 0 ≤ step then len else -len - 1))
  if 0 < step then
    (points step (min (max nEnd 0) len) (min (max nStart 0) len)).map Int.toNat
  else if step < 0 then
    (points step (min (max nEnd (-1)) (len - 1)) (min (max nStart (-1)) (len - 1))).map Int.toNat
  else []

/-! ## The walk -/

variable {len} {stepVal e i s : ℤ} {out : List ℕ} {start stop step : Option Int64}

def stepCount (stepVal e i : ℤ) : ℕ :=
  (((if 0 < stepVal then e - i else i - e) + |stepVal| - 1) / |stepVal|).toNat

def InIsize (i : ℤ) : Prop := isizeMin ≤ i ∧ i ≤ isizeMax

instance (i : ℤ) : Decidable (InIsize i) := inferInstanceAs (Decidable (_ ∧ _))

theorem stepCount_of_not (h : ¬Continues stepVal e i) (hstep : stepVal ≠ 0) :
    stepCount stepVal e i = 0 := by
  have hpos : 0 < |stepVal| := abs_pos.mpr hstep
  rw [stepCount, Int.toNat_eq_zero]
  have hlt : (if 0 < stepVal then e - i else i - e) + |stepVal| - 1 < |stepVal| := by
    rw [Continues] at h
    split_ifs at h ⊢ <;> omega
  by_contra hge
  have hone := Int.mul_le_of_le_ediv hpos (not_le.mp hge)
  omega

theorem stepCount_of_continues (h : Continues stepVal e i) (hstep : stepVal ≠ 0) :
    stepCount stepVal e i = stepCount stepVal e (i + stepVal) + 1 := by
  have hpos : 0 < |stepVal| := abs_pos.mpr hstep
  have hdist : (if 0 < stepVal then e - (i + stepVal) else i + stepVal - e) =
      (if 0 < stepVal then e - i else i - e) - |stepVal| := by
    split_ifs with hsign
    · rw [abs_of_pos hsign]
      ring
    · rw [abs_of_nonpos (not_lt.mp hsign)]
      ring
  have hcont : 0 < (if 0 < stepVal then e - i else i - e) := by
    rw [Continues] at h
    split_ifs at h ⊢ <;> omega
  rw [stepCount, stepCount, hdist]
  generalize (if 0 < stepVal then e - i else i - e) = dist at hcont
  have hsplit : dist + |stepVal| - 1 = dist - |stepVal| + |stepVal| - 1 + 1 * |stepVal| := by ring
  have hnonneg : 0 ≤ (dist - |stepVal| + |stepVal| - 1) / |stepVal| :=
    Int.ediv_nonneg (by omega) hpos.le
  rw [hsplit, Int.add_mul_ediv_right _ _ hpos.ne']
  omega

theorem points_of_continues (h : Continues stepVal e i) (hstep : stepVal ≠ 0) :
    points stepVal e i = i :: points stepVal e (i + stepVal) := by
  rw [points, if_pos ⟨h, hstep⟩]

theorem points_of_not (h : ¬Continues stepVal e i) : points stepVal e i = [] := by
  rw [points, if_neg fun hc => h hc.1]

theorem walk_of_not (h : ¬Continues stepVal e i) : walk len stepVal e i out = some out := by
  rw [walk, if_neg fun hc => h hc.1]

theorem walk_of_continues (h : Continues stepVal e i) (hstep : stepVal ≠ 0) :
    walk len stepVal e i out = (addIsize i stepVal).bind fun next =>
      walk len stepVal e next (out ++ pushIndex len i) := by
  rw [walk, if_pos ⟨h, hstep⟩]
  split
  · rename_i hnone
    rw [hnone, Option.bind_none]
  · rename_i next hsome
    rw [hsome, Option.bind_some]

/-- A walk from a word ends where its last addition fits, with the points that the array has. -/
theorem walk_eq (hstep : stepVal ≠ 0) (hi : InIsize i) :
    walk len stepVal e i out =
      if InIsize (i + stepCount stepVal e i * stepVal) then
        some (out ++ (points stepVal e i).flatMap (pushIndex len))
      else none := by
  induction hn : stepCount stepVal e i generalizing i out with
  | zero =>
    have hstop : ¬Continues stepVal e i := fun h => by
      have hcount := stepCount_of_continues h hstep
      omega
    rw [walk_of_not hstop, points_of_not hstop, Nat.cast_zero, zero_mul, add_zero, if_pos hi,
      List.flatMap_nil, List.append_nil]
  | succ n ih =>
    have hcont : Continues stepVal e i := by
      by_contra hstop
      have hcount := stepCount_of_not hstop hstep
      omega
    have hcount := stepCount_of_continues hcont hstep
    have hlast : i + ((n + 1 : ℕ) : ℤ) * stepVal = i + stepVal + (n : ℤ) * stepVal := by
      push_cast
      ring
    rw [walk_of_continues hcont hstep, points_of_continues hcont hstep, hlast, List.flatMap_cons]
    by_cases hnext : InIsize (i + stepVal)
    · have hadd : addIsize i stepVal = some (i + stepVal) := if_pos hnext
      have hrec := @ih (i + stepVal) (out ++ pushIndex len i) hnext (by omega)
      rw [List.append_assoc] at hrec
      rw [hadd, Option.bind_some]
      exact hrec
    · have hadd : addIsize i stepVal = none := if_neg hnext
      -- Past the end of the word, every further step stays past it.
      have hfar : ¬InIsize (i + stepVal + (n : ℤ) * stepVal) := by
        intro hin
        refine hnext ?_
        rw [InIsize, isizeMin, isizeMax] at hi hin ⊢
        rcases lt_or_gt_of_ne hstep with hneg | hpos
        · have hmul : (n : ℤ) * stepVal ≤ 0 :=
            mul_nonpos_of_nonneg_of_nonpos n.cast_nonneg hneg.le
          omega
        · have hmul : 0 ≤ (n : ℤ) * stepVal := mul_nonneg n.cast_nonneg hpos.le
          omega
      rw [hadd, Option.bind_none, if_neg hfar]

def sliceEnds (len : ℤ) (start stop : Option ℤ) (stepVal : ℤ) : ℤ × ℤ :=
  if 0 < stepVal then
    ((start.map fun v => if v < 0 then max (len + v) 0 else min v len).getD 0,
      (stop.map fun v => if v < 0 then max (len + v) 0 else min v len).getD len)
  else
    ((start.map fun v => if v < 0 then len + v else min v (len - 1)).getD (len - 1),
      (stop.map fun v => if v < 0 then len + v else v).getD (-1))

/-- The walk of a slice ends within the word. -/
def WalkFits (len : ℕ) (start stop : Option ℤ) (stepVal : ℤ) : Prop :=
  len = 0 ∨ stepVal = 0 ∨
    InIsize ((sliceEnds len start stop stepVal).1 +
      stepCount stepVal (sliceEnds len start stop stepVal).2
        (sliceEnds len start stop stepVal).1 * stepVal)

instance (len : ℕ) (start stop : Option ℤ) (stepVal : ℤ) :
    Decidable (WalkFits len start stop stepVal) :=
  inferInstanceAs (Decidable (_ ∨ _ ∨ _))

theorem addIsize_neg (v : Int64) (hv : v.toInt < 0) :
    addIsize len.val v.toInt = some (len.val + v.toInt) := by
  have hlen := len.small
  have hmin := v.le_toInt
  rw [addIsize, if_pos]
  rw [isizeMin, isizeMax]
  omega

theorem walkEnds_eq : walkEnds len start stop stepVal =
    some (sliceEnds len.val (start.map Int64.toInt) (stop.map Int64.toInt) stepVal) := by
  have hup : ∀ v : Int64, (if v.toInt < 0 then
      (addIsize len.val v.toInt).map fun x => max x 0 else some (min v.toInt len.val)) =
      some (if v.toInt < 0 then max (len.val + v.toInt) 0 else min v.toInt len.val) := by
    intro v
    split_ifs with hv
    · rw [addIsize_neg v hv]
      rfl
    · rfl
  have hdown : ∀ (v : Int64) (x : ℤ),
      (if v.toInt < 0 then addIsize len.val v.toInt else some x) =
      some (if v.toInt < 0 then len.val + v.toInt else x) := by
    intro v x
    split_ifs with hv
    · rw [addIsize_neg v hv]
    · rfl
  by_cases hsign : 0 < stepVal
  · cases start <;> cases stop <;> simp [walkEnds, sliceEnds, hsign, hup]
  · cases start <;> cases stop <;> simp [walkEnds, sliceEnds, hsign, hdown]

theorem pushIndex_of_lt (h0 : 0 ≤ i) (hi : i < len.val) : pushIndex len i = [i.toNat] := by
  rw [pushIndex, if_pos ⟨h0, by omega⟩]

theorem points_up (hstep : 0 < stepVal) (h0 : 0 ≤ i) (he : e ≤ len.val) :
    (points stepVal e i).flatMap (pushIndex len) = (points stepVal e i).map Int.toNat := by
  induction hn : stepCount stepVal e i generalizing i with
  | zero =>
    have hstop : ¬Continues stepVal e i := fun h => by
      have hcount := stepCount_of_continues h hstep.ne'
      omega
    rw [points_of_not hstop]
    rfl
  | succ n ih =>
    have hcont : Continues stepVal e i := by
      by_contra hstop
      have hcount := stepCount_of_not hstop hstep.ne'
      omega
    have hcount := stepCount_of_continues hcont hstep.ne'
    have hlt : i < e := by rwa [Continues, if_pos hstep] at hcont
    rw [points_of_continues hcont hstep.ne', List.flatMap_cons, List.map_cons,
      pushIndex_of_lt h0 (hlt.trans_le he), ih (by omega) (by omega)]
    rfl

theorem flatMap_points_neg (hstep : stepVal < 0) (hi : i < 0) :
    (points stepVal e i).flatMap (pushIndex len) = [] := by
  induction hn : stepCount stepVal e i generalizing i with
  | zero =>
    have hstop : ¬Continues stepVal e i := fun h => by
      have hcount := stepCount_of_continues h hstep.ne
      omega
    rw [points_of_not hstop]
    rfl
  | succ n ih =>
    have hcont : Continues stepVal e i := by
      by_contra hstop
      have hcount := stepCount_of_not hstop hstep.ne
      omega
    have hcount := stepCount_of_continues hcont hstep.ne
    rw [points_of_continues hcont hstep.ne, List.flatMap_cons, ih (by omega) (by omega), pushIndex,
      if_neg (by omega)]
    rfl

/-- Points going down from within the array stop before its first index, wherever the end lies. -/
theorem points_down (hstep : stepVal < 0) (hi : i < len.val) (hi' : -1 ≤ i) :
    (points stepVal e i).flatMap (pushIndex len) =
      (points stepVal (max e (-1)) i).map Int.toNat := by
  induction hn : stepCount stepVal e i generalizing i with
  | zero =>
    have hstop : ¬Continues stepVal e i := fun h => by
      have hcount := stepCount_of_continues h hstep.ne
      omega
    have hstop' : ¬Continues stepVal (max e (-1)) i := by
      rw [Continues, if_neg hstep.not_gt] at hstop ⊢
      omega
    rw [points_of_not hstop, points_of_not hstop']
    rfl
  | succ n ih =>
    have hcont : Continues stepVal e i := by
      by_contra hstop
      have hcount := stepCount_of_not hstop hstep.ne
      omega
    have hcount := stepCount_of_continues hcont hstep.ne
    have hlt : e < i := by rwa [Continues, if_neg hstep.not_gt] at hcont
    by_cases h0 : 0 ≤ i
    · have hcont' : Continues stepVal (max e (-1)) i := by
        rw [Continues, if_neg hstep.not_gt]
        omega
      rw [points_of_continues hcont hstep.ne, points_of_continues hcont' hstep.ne,
        List.flatMap_cons, List.map_cons, pushIndex_of_lt h0 hi]
      by_cases hnext : -1 ≤ i + stepVal
      · rw [ih (by omega) hnext (by omega)]
        rfl
      · have hstop : ¬Continues stepVal (max e (-1)) (i + stepVal) := by
          rw [Continues, if_neg hstep.not_gt]
          omega
        rw [flatMap_points_neg hstep (by omega), points_of_not hstop]
        rfl
    · have hstop : ¬Continues stepVal (max e (-1)) i := by
        rw [Continues, if_neg hstep.not_gt]
        omega
      rw [flatMap_points_neg hstep (by omega), points_of_not hstop]
      rfl

theorem sliceEnds_up (hpos : 0 < stepVal) (n : ℕ) (start stop : Option ℤ) :
    sliceEnds n start stop stepVal =
      (min (max (normalize n (start.getD 0)) 0) n, min (max (normalize n (stop.getD n)) 0) n) := by
  rw [sliceEnds, if_pos hpos]
  cases start <;> cases stop <;> simp only [Option.map_none, Option.map_some, Option.getD_none,
    Option.getD_some, normalize, Prod.mk.injEq] <;> constructor <;> split_ifs <;> omega

theorem sliceEnds_down (hneg : ¬0 < stepVal) (n : ℕ) (start stop : Option ℤ) :
    sliceEnds n start stop stepVal =
      (min (normalize n (start.getD (n - 1))) (n - 1), normalize n (stop.getD (-n - 1))) ∨
        n = 0 := by
  rw [sliceEnds, if_neg hneg]
  rcases Nat.eq_zero_or_pos n with hzero | hn
  · exact .inr hzero
  · left
    cases start <;> cases stop <;> simp only [Option.map_none, Option.map_some, Option.getD_none,
      Option.getD_some, normalize, Prod.mk.injEq] <;> constructor <;> split_ifs <;> omega

theorem points_sliceEnds (hlen : 0 < len.val) (hstep : stepVal ≠ 0) (start stop : Option ℤ) :
    (points stepVal (sliceEnds len.val start stop stepVal).2
      (sliceEnds len.val start stop stepVal).1).flatMap (pushIndex len) =
      sliceOf len.val start stop stepVal := by
  rcases lt_or_gt_of_ne hstep with hneg | hpos
  · have hnot : ¬0 < stepVal := hneg.not_gt
    have hnot' : ¬0 ≤ stepVal := not_le.mpr hneg
    simp only [sliceOf, if_neg hnot, if_neg hnot', if_pos hneg]
    rw [(sliceEnds_down hnot len.val start stop).resolve_right hlen.ne']
    generalize normalize len.val (start.getD (len.val - 1)) = nStart
    generalize normalize len.val (stop.getD (-len.val - 1)) = nEnd
    -- A start below the array selects nothing, an end past it neither.
    by_cases hstart : -1 ≤ min nStart (len.val - 1)
    · rw [points_down hneg (by omega) hstart, show min (max nStart (-1)) ((len.val : ℤ) - 1) =
        min nStart (len.val - 1) by omega]
      by_cases hend : nEnd ≤ len.val - 1
      · rw [show min (max nEnd (-1)) ((len.val : ℤ) - 1) = max nEnd (-1) by omega]
      · rw [points_of_not, points_of_not]
        · rw [Continues, if_neg hnot]
          omega
        · rw [Continues, if_neg hnot]
          omega
    · rw [flatMap_points_neg hneg (by omega), points_of_not]
      · rfl
      · rw [Continues, if_neg hnot]
        omega
  · simp only [sliceOf, if_pos hpos, if_pos hpos.le]
    rw [sliceEnds_up hpos]
    exact points_up hpos (by omega) (by omega)

theorem inIsize_sliceEnds (len : ArrayLen) (start : Option Int64) (stop : Option ℤ) :
    InIsize (sliceEnds len.val (start.map Int64.toInt) stop stepVal).1 := by
  have hlen := len.small
  rw [sliceEnds, InIsize, isizeMin, isizeMax]
  cases start with
  | none =>
    split_ifs <;> simp only [Option.map_none, Option.getD_none] <;> omega
  | some v =>
    have hmin := v.le_toInt
    have hmax := v.toInt_lt
    split_ifs <;> simp only [Option.map_some, Option.getD_some] <;> split_ifs <;> omega

theorem sliceOf_zero (start stop : Option ℤ) (stepVal : ℤ) :
    sliceOf 0 start stop stepVal = [] := by
  rcases lt_trichotomy stepVal 0 with hneg | hzero | hpos
  · have hnot : ¬0 < stepVal := hneg.not_gt
    simp only [sliceOf, if_neg hnot, if_pos hneg]
    rw [points_of_not, List.map_nil]
    rw [Continues, if_neg hnot]
    omega
  · simp only [sliceOf, hzero, lt_irrefl, if_false]
  · simp only [sliceOf, if_pos hpos]
    rw [points_of_not, List.map_nil]
    rw [Continues, if_pos hpos]
    omega

theorem resolveSliceIndices_slice (len : ArrayLen) (start stop step : Option Int64) (out : List ℕ) :
    resolveSliceIndices len (.slice start stop step) out =
      if WalkFits len.val (start.map Int64.toInt) (stop.map Int64.toInt)
          ((step.map Int64.toInt).getD 1) then
        some (out ++ sliceOf len.val (start.map Int64.toInt) (stop.map Int64.toInt)
          ((step.map Int64.toInt).getD 1))
      else none := by
  rw [resolveSliceIndices]
  dsimp only
  generalize (step.map Int64.toInt).getD 1 = stepVal
  rcases Nat.eq_zero_or_pos len.val with hzero | hlen
  · have hfits : WalkFits len.val (start.map Int64.toInt) (stop.map Int64.toInt) stepVal :=
      .inl hzero
    rw [if_pos hzero, if_pos hfits, hzero, sliceOf_zero, List.append_nil]
  · rw [if_neg hlen.ne']
    by_cases hstep : stepVal = 0
    · have hfits : WalkFits len.val (start.map Int64.toInt) (stop.map Int64.toInt) stepVal :=
        .inr (.inl hstep)
      rw [if_pos hstep, if_pos hfits, hstep, sliceOf, if_neg (lt_irrefl _), if_neg (lt_irrefl _),
        List.append_nil]
    · rw [if_neg hstep, walkEnds_eq, Option.bind_some]
      rw [walk_eq hstep (inIsize_sliceEnds len start _), points_sliceEnds hlen hstep]
      refine if_congr ?_ rfl rfl
      rw [WalkFits, or_iff_right hlen.ne', or_iff_right hstep]

/-- The walk of a slice ends without overflow, with the indices of the slice, exactly where
its last point is a word. -/
theorem resolveSliceIndices_iff (len : ArrayLen) (start stop step : Option Int64) (out : List ℕ) :
    resolveSliceIndices len (.slice start stop step) out =
        some (out ++ sliceOf len.val (start.map Int64.toInt) (stop.map Int64.toInt)
          ((step.map Int64.toInt).getD 1)) ↔
      WalkFits len.val (start.map Int64.toInt) (stop.map Int64.toInt)
        ((step.map Int64.toInt).getD 1) := by
  rw [resolveSliceIndices_slice]
  split_ifs with hfits
  · simp [hfits]
  · simp [hfits]

/-- A step to the end of the word overflows after the first index. -/
theorem resolveSliceIndices_step_overflows :
    ¬∀ (len : ArrayLen) (start stop step : Option Int64),
      resolveSliceIndices len (.slice start stop step) [] =
        some (sliceOf len.val (start.map Int64.toInt) (stop.map Int64.toInt)
          ((step.map Int64.toInt).getD 1)) := by
  intro hclaim
  have hrun := hclaim ⟨2, by decide⟩ (some 1) none (some Int64.maxValue)
  rw [resolveSliceIndices_slice, if_neg (by decide)] at hrun
  cases hrun

end SliceIndex

end Wedb
