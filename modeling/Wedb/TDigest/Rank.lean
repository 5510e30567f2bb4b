import Wedb.TDigest.ByRank
import Wedb.TDigest.CdfRuns

/-!
# Ranks of values

One sweep over the sorted inputs and the centroids, from the least value on or, for the
reverse rank, from the greatest on. A value that is a mean gets half of the weight of its
group on top of the weight passed.
-/

namespace Wedb

/-- The order in which a sweep goes over the values. -/
def SweepLe (reverse : Bool) (a b : ExactNum ℚ) : Prop :=
  if reverse then totalKey b ≤ totalKey a else totalKey a ≤ totalKey b

instance (reverse : Bool) (a b : ExactNum ℚ) : Decidable (SweepLe reverse a b) := by
  unfold SweepLe
  infer_instance

def outsideRank (reverse : Bool) (min max : ℚ) (val : ExactNum ℚ) : Bool :=
  if reverse then (ExactNum.fin max).lt val else val.lt (.fin min)

section

variable (tol : Tolerance) (reverse : Bool)

/-- Whether the centroid lies behind the value in the direction of the sweep. -/
def passedBy (mean val : ExactNum ℚ) : Bool :=
  doubleCompare tol mean val == if reverse then .gt else .lt

def rankScan : ℕ → List Centroid → ℚ → Sweep ℤ → Option (Sweep ℤ)
  | 0, _, _, _ => none
  | fuel + 1, centroids, cumulativeWeight, s =>
    match centroids, s.1 with
    | centroid :: rest, x :: _ =>
      let val := x.1
      let sameMean := fun c : Centroid => doubleEqual tol (.fin c.mean) (.fin centroid.mean)
      if doubleEqual tol (.fin centroid.mean) val then
        let group := rest.takeWhile sameMean
        let currentMeanCumW :=
          cumulativeWeight + centroid.weight * (1 / 2) + weightSum group * (1 / 2)
        rankScan fuel (rest.dropWhile sameMean)
          (cumulativeWeight + centroid.weight + weightSum group)
          (fillGroup tol val (f64AsI64 currentMeanCumW) s)
      else if passedBy tol reverse (.fin centroid.mean) val then
        rankScan fuel rest (cumulativeWeight + centroid.weight) s
      else
        rankScan fuel centroids cumulativeWeight
          (fillGroup tol val (f64AsI64 cumulativeWeight) s)
    | _, _ => some s

def tdigestRankCalc (fuel : ℕ) (centroids : List Centroid) (min max totalWeight : ℚ)
    (inputs : List (ExactNum ℚ)) : Option (List ℤ) :=
  let result := List.replicate inputs.length (-2 : ℤ)
  if centroids = [] ∨ totalWeight ≤ 0 then some result
  else
    let indexed := (numbersOf inputs).insertionSort fun a b => SweepLe reverse a.1 b.1
    if indexed = [] then some result
    else do
      let s ← fillWhile tol (outsideRank reverse min max) (fun _ => -1) fuel (indexed, result)
      let s ← rankScan tol reverse fuel (if reverse then centroids.reverse else centroids) 0 s
      let s ← fillWhile tol (fun _ => true) (fun _ => f64AsI64 totalWeight) fuel s
      return s.2

end

/-! ## The order of a sweep -/

/-- The order of finite values. -/
def Ahead (reverse : Bool) (v w : ℚ) : Prop := if reverse then w ≤ v else v ≤ w

section

variable {reverse : Bool} {a b c v w u : ℚ}

theorem sweepLe_fin : SweepLe reverse (.fin v) (.fin w) ↔ Ahead reverse v w := by
  cases reverse with
  | false => exact totalKey_fin_le
  | true => exact totalKey_fin_le

theorem Ahead.refl (reverse : Bool) (v : ℚ) : Ahead reverse v v := by
  cases reverse with
  | false => exact le_rfl
  | true => exact le_rfl

theorem Ahead.trans (h₁ : Ahead reverse v w) (h₂ : Ahead reverse w u) : Ahead reverse v u := by
  cases reverse with
  | false => exact le_trans h₁ h₂
  | true => exact le_trans h₂ h₁

theorem Ahead.antisymm (h₁ : Ahead reverse v w) (h₂ : Ahead reverse w v) : v = w := by
  cases reverse with
  | false => exact le_antisymm h₁ h₂
  | true => exact le_antisymm h₂ h₁

theorem passedBy_fin (hne : v ≠ w) :
    passedBy .exact reverse (.fin v) (.fin w) = true ↔ Ahead reverse v w := by
  rw [passedBy, doubleCompare_fin, beq_iff_eq]
  cases reverse with
  | false =>
    change compare v w = .lt ↔ v ≤ w
    rw [compare_lt_iff_lt]
    exact ⟨le_of_lt, fun h => lt_of_le_of_ne h hne⟩
  | true =>
    change compare v w = .gt ↔ w ≤ v
    rw [compare_gt_iff_gt]
    exact ⟨le_of_lt, fun h => lt_of_le_of_ne h (Ne.symm hne)⟩

/-- Inputs in the order of the sweep. -/
def SweepOrder (reverse : Bool) (xs : List (ExactNum ℚ × ℕ)) : Prop :=
  xs.Pairwise fun a b => SweepLe reverse a.1 b.1

theorem sweepOrder_insertionSort (reverse : Bool) (xs : List (ExactNum ℚ × ℕ)) :
    SweepOrder reverse (xs.insertionSort fun a b => SweepLe reverse a.1 b.1) := by
  have htotal : Std.Total fun a b : ExactNum ℚ × ℕ => SweepLe reverse a.1 b.1 := by
    refine ⟨fun a b => ?_⟩
    cases reverse with
    | false => exact le_total _ _
    | true => exact le_total _ _
  have htrans : IsTrans (ExactNum ℚ × ℕ) fun a b => SweepLe reverse a.1 b.1 := by
    refine ⟨fun a b c hab hbc => ?_⟩
    cases reverse with
    | false => exact le_trans (a := totalKey a.1) hab hbc
    | true => exact le_trans (a := totalKey c.1) hbc hab
  exact List.pairwise_insertionSort _ xs

end

/-! ## The weight passed -/

def scanWeight (reverse : Bool) (total : ℚ) : List Centroid → ℚ → ℚ → ℚ
  | [], _, _ => total
  | c :: rest, cum, v =>
    if c.mean = v then cum + equalWeight c.mean (c :: rest) * (1 / 2)
    else if passedBy .exact reverse (.fin c.mean) (.fin v) then
      scanWeight reverse total rest (cum + c.weight) v
    else cum

section

variable {reverse : Bool} {total cum v w : ℚ} {cs ds : List Centroid}

/-- Centroids with some weight. -/
def Weighty (cs : List Centroid) : Prop := ∀ c ∈ cs, 0 ≤ c.weight

theorem Weighty.sum_nonneg (h : Weighty cs) : 0 ≤ weightSum cs := by
  refine List.sum_nonneg fun w hw => ?_
  obtain ⟨c, hc, rfl⟩ := List.mem_map.mp hw
  exact h c hc

theorem le_scanWeight (h : Weighty cs) (htotal : cum + weightSum cs = total) :
    cum ≤ scanWeight reverse total cs cum v := by
  induction cs generalizing cum with
  | nil => simpa [scanWeight] using htotal.le
  | cons c cs ih =>
    have hc := h c (by simp)
    have hcs : Weighty cs := fun d hd => h d (List.mem_cons_of_mem c hd)
    have hgroup : Weighty (cs.takeWhile fun d => decide (d.mean = c.mean)) := fun d hd =>
      hcs d ((List.takeWhile_prefix _).subset hd)
    rw [weightSum_cons, ← add_assoc] at htotal
    rw [scanWeight]
    split_ifs
    · have hsum := hgroup.sum_nonneg
      rw [equalWeight_cons, equalWeight]
      linarith
    · have hrest := ih hcs htotal
      linarith
    · exact le_rfl

theorem scanWeight_append (h : ∀ c ∈ cs, c.mean ≠ v ∧ Ahead reverse c.mean v) :
    scanWeight reverse total (cs ++ ds) cum v =
      scanWeight reverse total ds (cum + weightSum cs) v := by
  induction cs generalizing cum with
  | nil => rw [List.nil_append, weightSum_nil, add_zero]
  | cons c cs ih =>
    obtain ⟨hne, hle⟩ := h c (by simp)
    rw [List.cons_append, scanWeight, if_neg hne, if_pos ((passedBy_fin hne).mpr hle),
      ih fun d hd => h d (List.mem_cons_of_mem c hd), weightSum_cons, add_assoc]

theorem scanWeight_group {c : Centroid} (hne : c.mean ≠ v) (hle : Ahead reverse c.mean v) :
    scanWeight reverse total (c :: cs) cum v =
      scanWeight reverse total (cs.dropWhile fun d => decide (d.mean = c.mean))
        (cum + equalWeight c.mean (c :: cs)) v := by
  have hgroup : ∀ d ∈ cs.takeWhile (fun d => decide (d.mean = c.mean)),
      d.mean ≠ v ∧ Ahead reverse d.mean v := by
    intro d hd
    have hmean : d.mean = c.mean := by simpa using List.mem_takeWhile_imp hd
    rw [hmean]
    exact ⟨hne, hle⟩
  have happ := @scanWeight_append _ total (cum + c.weight) _ _
    (cs.dropWhile fun d => decide (d.mean = c.mean)) hgroup
  rw [List.takeWhile_append_dropWhile] at happ
  rw [scanWeight, if_neg hne, if_pos ((passedBy_fin hne).mpr hle), happ, equalWeight_cons,
    ← add_assoc]
  rfl

theorem scanWeight_mono (h : Weighty cs) (htotal : cum + weightSum cs = total)
    (hvw : Ahead reverse v w) :
    scanWeight reverse total cs cum v ≤ scanWeight reverse total cs cum w := by
  induction cs generalizing cum with
  | nil => exact le_rfl
  | cons c cs ih =>
    have hc := h c (by simp)
    have hcs : Weighty cs := fun d hd => h d (List.mem_cons_of_mem c hd)
    by_cases hwv : v = w
    · rw [hwv]
    · by_cases heq : c.mean = v
      · have hrest : Weighty (cs.dropWhile fun d => decide (d.mean = c.mean)) := fun d hd =>
          hcs d ((List.dropWhile_suffix _).subset hd)
        have hgroup : Weighty (cs.takeWhile fun d => decide (d.mean = c.mean)) := fun d hd =>
          hcs d ((List.takeWhile_prefix _).subset hd)
        have hnonneg : 0 ≤ equalWeight c.mean (c :: cs) := by
          rw [equalWeight_cons]
          exact add_nonneg hc hgroup.sum_nonneg
        have hsplit := weightSum_append (cs.takeWhile fun d => decide (d.mean = c.mean))
          (cs.dropWhile fun d => decide (d.mean = c.mean))
        rw [List.takeWhile_append_dropWhile] at hsplit
        have hbehind := @le_scanWeight reverse total (cum + equalWeight c.mean (c :: cs)) w _
          hrest (by
            rw [← htotal, weightSum_cons, hsplit, equalWeight_cons, equalWeight]
            ring)
        have hw : scanWeight reverse total (c :: cs) cum w = _ :=
          scanWeight_group (heq ▸ hwv) (heq ▸ hvw)
        rw [hw, scanWeight, if_pos heq]
        linarith
      · by_cases hpass : Ahead reverse c.mean v
        · have hne : c.mean ≠ w := by
            rintro rfl
            exact hwv (hvw.antisymm hpass)
          rw [weightSum_cons, ← add_assoc] at htotal
          rw [scanWeight, scanWeight, if_neg heq, if_neg hne, if_pos ((passedBy_fin heq).mpr hpass),
            if_pos ((passedBy_fin hne).mpr (hpass.trans hvw))]
          exact ih hcs htotal
        · have hle := @le_scanWeight reverse _ _ w _ h htotal
          rw [scanWeight, if_neg heq, if_neg fun hp => hpass ((passedBy_fin heq).mp hp)]
          exact hle

end

/-! ## The whole sweep -/

def rankAt (f : ℚ → ℤ) : ExactNum ℚ → ℤ := onFinite f (-2)

section

variable {reverse : Bool} {total cum v w : ℚ} {cs : List Centroid} {xs : List (ExactNum ℚ × ℕ)}
  {fuel : ℕ}

theorem rankScan_nil (s : Sweep ℤ) : rankScan .exact reverse (fuel + 1) [] cum s = some s := rfl

theorem rankScan_done (result : List ℤ) :
    rankScan .exact reverse (fuel + 1) cs cum ([], result) = some ([], result) := by
  cases cs <;> rfl

theorem rankScan_cons (c : Centroid) (x : ExactNum ℚ × ℕ) (result : List ℤ) :
    rankScan .exact reverse (fuel + 1) (c :: cs) cum (x :: xs, result) =
      if doubleEqual .exact (.fin c.mean) x.1 then
        rankScan .exact reverse fuel
          (cs.dropWhile fun d => doubleEqual .exact (.fin d.mean) (.fin c.mean))
          (cum + c.weight +
            weightSum (cs.takeWhile fun d => doubleEqual .exact (.fin d.mean) (.fin c.mean)))
          (fillGroup .exact x.1 (f64AsI64 (cum + c.weight * (1 / 2) +
            weightSum (cs.takeWhile fun d => doubleEqual .exact (.fin d.mean) (.fin c.mean)) *
              (1 / 2))) (x :: xs, result))
      else if passedBy .exact reverse (.fin c.mean) x.1 then
        rankScan .exact reverse fuel cs (cum + c.weight) (x :: xs, result)
      else
        rankScan .exact reverse fuel (c :: cs) cum
          (fillGroup .exact x.1 (f64AsI64 cum) (x :: xs, result)) := rfl

theorem SweepOrder.head_ahead {x : ExactNum ℚ × ℕ} (hs : SweepOrder reverse (x :: xs))
    (hx : x.1 = .fin v) {y : ExactNum ℚ × ℕ} (hy : y ∈ x :: xs) (hw : y.1 = .fin w) :
    Ahead reverse v w := by
  rcases List.mem_cons.mp hy with rfl | hy
  · rw [hx] at hw
    cases hw
    exact Ahead.refl reverse v
  · have hle := (List.pairwise_cons.mp hs).1 y hy
    rwa [hx, hw, sweepLe_fin] at hle

/-- Behind the group of the first value that value does not come again. -/
theorem SweepOrder.ne_of_mem_dropWhile (hs : SweepOrder reverse xs) (hfin : AllFinite xs)
    (hahead : ∀ y ∈ xs, ∀ w, y.1 = .fin w → Ahead reverse v w) {y : ExactNum ℚ × ℕ}
    (hy : y ∈ xs.dropWhile fun x => doubleEqual .exact x.1 (.fin v)) : y.1 ≠ .fin v := by
  induction xs with
  | nil => cases hy
  | cons x xs ih =>
    obtain ⟨u, hu⟩ := hfin x (by simp)
    by_cases heq : u = v
    · rw [List.dropWhile_cons_of_pos (by rw [hu, doubleEqual_fin]; exact decide_eq_true heq)] at hy
      exact ih (List.pairwise_cons.mp hs).2 (hfin.of_suffix (List.suffix_cons x xs))
        (fun z hz => hahead z (List.mem_cons_of_mem x hz)) hy
    · rw [List.dropWhile_cons_of_neg (by rw [hu, doubleEqual_fin]; simpa using heq)] at hy
      intro hyv
      exact heq ((hs.head_ahead hu hy hyv).antisymm (hahead x (by simp) u hu))

theorem rankScan_finish (hfin : AllFinite xs) (hs : SweepOrder reverse xs)
    (htotal : cum + weightSum cs = total) (hfuel : xs.length + cs.length < fuel)
    {fuel' : ℕ} (hfuel' : xs.length < fuel') (result : List ℤ) :
    (rankScan .exact reverse fuel cs cum (xs, result)).bind
        (fillWhile .exact (fun _ => true) (fun _ => f64AsI64 total) fuel') =
      some ([], scatter (rankAt fun v => f64AsI64 (scanWeight reverse total cs cum v)) xs
        result) := by
  have hall : ∀ ys : List (ExactNum ℚ × ℕ), ys.takeWhile (fun _ => true) = ys :=
    fun ys => List.takeWhile_eq_self_iff.mpr fun _ _ => rfl
  have hdrop : ∀ ys : List (ExactNum ℚ × ℕ), ys.dropWhile (fun _ => true) = [] :=
    fun ys => List.dropWhile_eq_nil_iff.mpr fun _ _ => rfl
  induction fuel generalizing cs cum xs result with
  | zero => omega
  | succ fuel ih =>
    cases cs with
    | nil =>
      rw [rankScan_nil, Option.bind_some, fillWhile_eq hfin hfuel', hall, hdrop]
      refine congrArg (fun r => some ([], r)) (scatter_congr fun x hx => ?_)
      obtain ⟨v, hv⟩ := hfin x hx
      rw [hv]
      rfl
    | cons c cs =>
      cases xs with
      | nil =>
        rw [rankScan_done, Option.bind_some, fillWhile_eq hfin hfuel']
        rfl
      | cons x xs =>
        obtain ⟨v, hv⟩ := hfin x (by simp)
        have hahead : ∀ y ∈ x :: xs, ∀ w, y.1 = .fin w → Ahead reverse v w :=
          fun y hy w hw => hs.head_ahead hv hy hw
        obtain ⟨group, rest, hsplit, hlen, hgroup, hfill⟩ := fillGroup_eq hfin
          (rankAt fun v => f64AsI64 (scanWeight reverse total (c :: cs) cum v)) result
        have hsub : rest <:+ x :: xs := hsplit ▸ List.suffix_append group rest
        have hans : rankAt (fun v => f64AsI64 (scanWeight reverse total (c :: cs) cum v)) x.1 =
            f64AsI64 (scanWeight reverse total (c :: cs) cum v) := by
          rw [hv]
          rfl
        rw [hans] at hfill
        simp only [List.length_cons] at hfuel hfuel'
        rw [rankScan_cons]
        simp only [hv, doubleEqual_fin, decide_eq_true_eq]
        rw [hv] at hfill
        have hrest : (x :: xs).dropWhile (fun x => doubleEqual .exact x.1 (.fin v)) = rest :=
          congrArg Prod.fst hfill
        by_cases heq : c.mean = v
        · have hval : cum + c.weight * (1 / 2) +
              weightSum (cs.takeWhile fun d => decide (d.mean = c.mean)) * (1 / 2) =
              scanWeight reverse total (c :: cs) cum v := by
            rw [scanWeight, if_pos heq, equalWeight_cons, equalWeight]
            ring
          have hsum := weightSum_append (cs.takeWhile fun d => decide (d.mean = c.mean))
            (cs.dropWhile fun d => decide (d.mean = c.mean))
          rw [List.takeWhile_append_dropWhile] at hsum
          rw [weightSum_cons, hsum] at htotal
          have hdlen :=
            (List.dropWhile_suffix (l := cs) fun d => decide (d.mean = c.mean)).length_le
          rw [if_pos heq, hval, hfill, ih (hfin.of_suffix hsub) (hs.sublist hsub.sublist)
            (by rw [← htotal]; ring) (by omega) (by omega) _, hsplit, scatter_append]
          refine congrArg (fun r => some ([], r)) (scatter_congr fun y hy => ?_)
          obtain ⟨w, hw⟩ := hfin y (hsub.subset hy)
          have hvw := hahead y (hsub.subset hy) w hw
          have hne : c.mean ≠ w := by
            rintro rfl
            exact hs.ne_of_mem_dropWhile hfin hahead (hrest ▸ hy) (heq ▸ hw)
          have hskip : scanWeight reverse total (c :: cs) cum w = _ :=
            scanWeight_group hne (heq ▸ hvw)
          rw [hw]
          change f64AsI64 _ = f64AsI64 _
          rw [hskip, equalWeight_cons, ← add_assoc]
          rfl
        · rw [if_neg heq]
          by_cases hpass : passedBy .exact reverse (.fin c.mean) (.fin v) = true
          · have hcv := (passedBy_fin heq).mp hpass
            rw [if_pos hpass]
            rw [weightSum_cons, ← add_assoc] at htotal
            rw [ih hfin hs htotal (by simp only [List.length_cons]; omega)
              (by simp only [List.length_cons]; omega) result]
            refine congrArg (fun r => some ([], r)) (scatter_congr fun y hy => ?_)
            obtain ⟨w, hw⟩ := hfin y hy
            have hvw := hahead y hy w hw
            have hne : c.mean ≠ w := by
              rintro rfl
              exact heq (hcv.antisymm hvw)
            rw [hw]
            change f64AsI64 _ = f64AsI64 _
            rw [scanWeight, if_neg hne, if_pos ((passedBy_fin hne).mpr (hcv.trans hvw))]
          · have hval : f64AsI64 cum = f64AsI64 (scanWeight reverse total (c :: cs) cum v) := by
              rw [scanWeight, if_neg heq, if_neg hpass]
            rw [if_neg hpass, hval, hfill, ih (hfin.of_suffix hsub) (hs.sublist hsub.sublist) htotal
              (by simp only [List.length_cons]; omega) (by omega) _, hsplit, scatter_append]

def rankOf (reverse : Bool) (min max total : ℚ) (cs : List Centroid) (v : ℚ) : ℤ :=
  if outsideRank reverse min max (.fin v) then -1
  else f64AsI64 (scanWeight reverse total cs 0 v)

theorem outsideRank_of_ahead {min max : ℚ} (h : Ahead reverse v w)
    (hw : outsideRank reverse min max (.fin w) = true) :
    outsideRank reverse min max (.fin v) = true := by
  cases reverse with
  | false => exact decide_eq_true (lt_of_le_of_lt h (of_decide_eq_true hw))
  | true => exact decide_eq_true (lt_of_lt_of_le (of_decide_eq_true hw) h)

theorem SweepOrder.not_outside {min max : ℚ} (hs : SweepOrder reverse xs) (hfin : AllFinite xs)
    {y : ExactNum ℚ × ℕ} (hy : y ∈ xs.dropWhile fun x => outsideRank reverse min max x.1) :
    ¬outsideRank reverse min max y.1 = true := by
  induction xs with
  | nil => cases hy
  | cons x xs ih =>
    by_cases hx : outsideRank reverse min max x.1 = true
    · rw [List.dropWhile_cons_of_pos (by exact hx)] at hy
      exact ih (List.pairwise_cons.mp hs).2 (hfin.of_suffix (List.suffix_cons x xs)) hy
    · rw [List.dropWhile_cons_of_neg (by exact hx)] at hy
      obtain ⟨v, hv⟩ := hfin x (by simp)
      obtain ⟨w, hw⟩ := hfin y hy
      intro hout
      rw [hw] at hout
      rw [hv] at hx
      exact hx (outsideRank_of_ahead (hs.head_ahead hv hy hw) hout)

theorem tdigestRankCalc_eq {min max : ℚ} {inputs : List (ExactNum ℚ)} (h : Spread min max cs)
    (hinf : NoInfinity inputs) (hfuel : inputs.length + cs.length < fuel) :
    tdigestRankCalc .exact reverse fuel cs min max (weightSum cs) inputs =
      some (inputs.map (rankAt (rankOf reverse min max (weightSum cs)
        (if reverse then cs.reverse else cs)))) := by
  have hpos := h.total_pos
  generalize hxs : (numbersOf inputs).insertionSort (fun a b => SweepLe reverse a.1 b.1) = xs
  have hperm : xs.Perm (numbersOf inputs) := by
    rw [← hxs]
    exact List.perm_insertionSort _ _
  have hs : SweepOrder reverse xs := by
    rw [← hxs]
    exact sweepOrder_insertionSort reverse _
  have hfin : AllFinite xs := fun x hx => allFinite_numbersOf hinf x (hperm.mem_iff.mp hx)
  have hlen : xs.length ≤ inputs.length := by
    rw [hperm.length_eq, ← @List.length_zipIdx _ inputs 0]
    exact List.length_filter_le _ _
  generalize hds : (if reverse then cs.reverse else cs) = ds
  have hsum : weightSum ds = weightSum cs := by
    rw [← hds]
    split_ifs
    · exact weightSum_reverse cs
    · rfl
  have hdlen : ds.length = cs.length := by
    rw [← hds]
    split_ifs
    · exact List.length_reverse
    · rfl
  generalize hf : rankAt (rankOf reverse min max (weightSum cs) ds) = f
  have hmap : scatter f xs (List.replicate inputs.length (-2)) = inputs.map f := by
    rw [scatter_eq_map (p := fun a => !a.isNan) _ _ hperm]
    refine List.map_congr_left fun a _ => ?_
    rw [← hf]
    cases a <;> rfl
  unfold tdigestRankCalc
  rw [if_neg (not_or.mpr ⟨h.nonempty, not_le.mpr hpos⟩)]
  simp only [hxs, hds]
  by_cases hnil : xs = []
  · rw [if_pos hnil, ← hmap, hnil]
    rfl
  · have hrest := List.dropWhile_suffix (l := xs) fun x => outsideRank reverse min max x.1
    have hrlen := hrest.length_le
    have hfront : scatter (fun _ => (-1 : ℤ))
        (xs.takeWhile fun x => outsideRank reverse min max x.1)
        (List.replicate inputs.length (-2)) =
        scatter f (xs.takeWhile fun x => outsideRank reverse min max x.1)
          (List.replicate inputs.length (-2)) := by
      refine scatter_congr fun x hx => ?_
      obtain ⟨v, hv⟩ := hfin x ((List.takeWhile_prefix _).subset hx)
      have hout := List.mem_takeWhile_imp hx
      rw [← hf]
      rw [hv] at hout ⊢
      change -1 = rankOf reverse min max (weightSum cs) ds v
      rw [rankOf, if_pos hout]
    have hfinish := @rankScan_finish _ (weightSum cs) 0 ds _ fuel (hfin.of_suffix hrest)
      (hs.sublist hrest.sublist) (by rw [zero_add, hsum])
      (by omega) fuel (by omega) (scatter f (xs.takeWhile fun x => outsideRank reverse min max x.1)
        (List.replicate inputs.length (-2)))
    rw [if_neg hnil, ← hmap, fillWhile_eq hfin (by omega), hfront]
    simp only [Option.bind_eq_bind, Option.bind_some, ← Option.bind_assoc]
    rw [hfinish, Option.bind_some]
    refine congrArg some ?_
    have hback : scatter (rankAt fun v => f64AsI64 (scanWeight reverse (weightSum cs) ds 0 v))
        (xs.dropWhile fun x => outsideRank reverse min max x.1)
        (scatter f (xs.takeWhile fun x => outsideRank reverse min max x.1)
          (List.replicate inputs.length (-2))) =
        scatter f (xs.dropWhile fun x => outsideRank reverse min max x.1)
          (scatter f (xs.takeWhile fun x => outsideRank reverse min max x.1)
            (List.replicate inputs.length (-2))) := by
      refine scatter_congr fun x hx => ?_
      obtain ⟨v, hv⟩ := hfin x (hrest.subset hx)
      have hin := hs.not_outside hfin hx
      rw [← hf]
      rw [hv] at hin ⊢
      change f64AsI64 _ = rankOf reverse min max (weightSum cs) ds v
      rw [rankOf, if_neg hin]
    dsimp only
    rw [hback, ← scatter_append, List.takeWhile_append_dropWhile]

end

/-! ## Infinite inputs -/

theorem Waits.rankScan {x : ExactNum ℚ × ℕ} {reverse : Bool} {cs : List Centroid} {cum : ℚ}
    {fuel : ℕ} {s s' : Sweep ℤ} (h : Waits x s)
    (hs : rankScan .exact reverse fuel cs cum s = some s') : Waits x s' := by
  induction fuel generalizing cs cum s with
  | zero => cases hs
  | succ fuel ih =>
    obtain ⟨xs, result⟩ := s
    cases cs with
    | nil =>
      rw [rankScan_nil] at hs
      cases hs
      exact h
    | cons c cs =>
      cases xs with
      | nil => exact absurd h.mem List.not_mem_nil
      | cons y ys =>
        have hy := h.numbers y (by simp)
        rw [rankScan_cons] at hs
        split_ifs at hs
        · exact ih (h.fillGroup hy _) hs
        · exact ih h hs
        · exact ih (h.fillGroup hy _) hs

theorem tdigestRankCalc_none {min max : ℚ} {cs : List Centroid} (h : Spread min max cs)
    {inputs : List (ExactNum ℚ)} (hinf : ¬NoInfinity inputs) (reverse : Bool) (fuel : ℕ) :
    tdigestRankCalc .exact reverse fuel cs min max (weightSum cs) inputs = none := by
  have hpos := h.total_pos
  generalize hxs : (numbersOf inputs).insertionSort (fun a b => SweepLe reverse a.1 b.1) = xs
  have hperm : xs.Perm (numbersOf inputs) := by
    rw [← hxs]
    exact List.perm_insertionSort _ _
  obtain ⟨x, hx⟩ := exists_waits hinf hperm (List.replicate inputs.length (-2 : ℤ))
  have hne : xs ≠ [] := fun hnil => absurd hx.mem (by rw [hnil]; exact List.not_mem_nil)
  unfold tdigestRankCalc
  rw [if_neg (not_or.mpr ⟨h.nonempty, not_le.mpr hpos⟩)]
  simp only [hxs]
  rw [if_neg hne]
  refine Option.bind_eq_none_iff.mpr fun s₁ h₁ => ?_
  refine Option.bind_eq_none_iff.mpr fun s₂ h₂ => ?_
  rw [((hx.fillWhile h₁).rankScan h₂).fillWhile_true]
  rfl

/-! ## The answers -/

/-- One result for each input: minus two for what is not a number, minus one outside of the
means, and otherwise a rank that grows in the direction of the sweep. -/
structure RankAnswers (reverse : Bool) (min max : ℚ) (inputs : List (ExactNum ℚ))
    (result : List ℤ) : Prop where
  length : result.length = inputs.length
  nan : ∀ i : ℕ, inputs[i]? = some ExactNum.nan ↔ result[i]? = some (-2)
  outside : ∀ (i : ℕ) (a : ExactNum ℚ), inputs[i]? = some a →
    (if reverse then (ExactNum.fin max).lt a else a.lt (.fin min)) = true → result[i]? = some (-1)
  mono : ∀ (i j : ℕ) (a b : ExactNum ℚ) (p q : ℤ), inputs[i]? = some a → inputs[j]? = some b →
    result[i]? = some p → result[j]? = some q → a.le b = true →
      if reverse then q ≤ p else p ≤ q

section

variable {reverse : Bool} {min max total v w : ℚ} {cs : List Centroid}

theorem f64AsI64_mono (h : v ≤ w) : f64AsI64 v ≤ f64AsI64 w := by
  have hround : (if 0 ≤ v then ⌊v⌋ else ⌈v⌉) ≤ if 0 ≤ w then ⌊w⌋ else ⌈w⌉ := by
    split_ifs with hv hw hw
    · exact Int.floor_le_floor h
    · exact absurd (hv.trans h) hw
    · exact (Int.ceil_nonpos.mpr (not_le.mp hv).le).trans (Int.floor_nonneg.mpr hw)
    · exact Int.ceil_le_ceil h
  exact max_le_max le_rfl (min_le_min hround le_rfl)

theorem f64AsI64_nonneg (h : 0 ≤ v) : 0 ≤ f64AsI64 v := by
  rw [f64AsI64, if_pos h]
  have hfloor := Int.floor_nonneg.mpr h
  omega

theorem rankOf_mono (h : Weighty cs) (hsum : weightSum cs = total) (hvw : Ahead reverse v w) :
    rankOf reverse min max total cs v ≤ rankOf reverse min max total cs w := by
  have hsum' : 0 + weightSum cs = total := by rw [zero_add, hsum]
  unfold rankOf
  split_ifs with hv hw hw
  · exact le_rfl
  · have hnonneg := f64AsI64_nonneg (@le_scanWeight reverse _ _ w _ h hsum')
    omega
  · exact absurd (outsideRank_of_ahead hvw hw) hv
  · exact f64AsI64_mono (scanWeight_mono h hsum' hvw)

theorem neg_one_le_rankOf (h : Weighty cs) (hsum : weightSum cs = total) (v : ℚ) :
    -1 ≤ rankOf reverse min max total cs v := by
  have hsum' : 0 + weightSum cs = total := by rw [zero_add, hsum]
  unfold rankOf
  split_ifs
  · exact le_rfl
  · have hnonneg := f64AsI64_nonneg (@le_scanWeight reverse _ _ v _ h hsum')
    omega

theorem rankAnswers_map {inputs : List (ExactNum ℚ)} (h : Weighty cs)
    (hsum : weightSum cs = total) (hinf : NoInfinity inputs) :
    RankAnswers reverse min max inputs
      (inputs.map (rankAt (rankOf reverse min max total cs))) where
  length := List.length_map _
  nan i := by
    rw [List.getElem?_map]
    cases hi : inputs[i]? with
    | none => exact ⟨fun h => (by cases h), fun h => (by cases h)⟩
    | some a =>
      have ha := hinf a (List.mem_of_getElem? hi)
      rw [Option.map_some, Option.some.injEq, Option.some.injEq]
      cases a with
      | nan => exact ⟨fun _ => rfl, fun _ => rfl⟩
      | negInf => exact absurd (.inr rfl) ha
      | posInf => exact absurd (.inl rfl) ha
      | fin v =>
        have hle : -1 ≤ rankOf reverse min max total cs v := neg_one_le_rankOf h hsum v
        refine ⟨fun hv => (by cases hv), fun hv => ?_⟩
        change rankOf reverse min max total cs v = -2 at hv
        omega
  outside i a ha hout := by
    have hia := hinf a (List.mem_of_getElem? ha)
    rw [List.getElem?_map, ha, Option.map_some, Option.some.injEq]
    cases a with
    | nan => cases reverse <;> cases hout
    | negInf => exact absurd (.inr rfl) hia
    | posInf => exact absurd (.inl rfl) hia
    | fin v => exact if_pos hout
  mono i j a b p q ha hb hp hq hab := by
    rw [List.getElem?_map, ha, Option.map_some, Option.some.injEq] at hp
    rw [List.getElem?_map, hb, Option.map_some, Option.some.injEq] at hq
    obtain rfl := hp
    obtain rfl := hq
    have hia := hinf a (List.mem_of_getElem? ha)
    have hib := hinf b (List.mem_of_getElem? hb)
    cases a with
    | nan => cases hab
    | negInf => exact absurd (.inr rfl) hia
    | posInf => exact absurd (.inl rfl) hia
    | fin v =>
      cases b with
      | nan => cases hab
      | negInf => exact absurd (.inr rfl) hib
      | posInf => exact absurd (.inl rfl) hib
      | fin w =>
        have hvw : v ≤ w := of_decide_eq_true hab
        cases reverse with
        | false => exact @rankOf_mono false _ _ _ _ _ _ h hsum hvw
        | true => exact @rankOf_mono true _ _ _ _ _ _ h hsum hvw

theorem rank_answers_iff (h : Spread min max cs) (reverse : Bool) (inputs : List (ExactNum ℚ)) :
    (∃ result, EndsWith (fun fuel =>
        tdigestRankCalc .exact reverse fuel cs min max (weightSum cs) inputs) result ∧
      RankAnswers reverse min max inputs result) ↔ NoInfinity inputs := by
  constructor
  · rintro ⟨result, ⟨rounds, hrounds⟩, -⟩
    by_contra hinf
    have hsome := hrounds rounds le_rfl
    simp only [tdigestRankCalc_none h hinf reverse rounds] at hsome
    cases hsome
  · intro hinf
    refine ⟨_, ⟨inputs.length + cs.length + 1, fun fuel hfuel => ?_⟩,
      @rankAnswers_map _ _ _ (weightSum cs) (if reverse then cs.reverse else cs) _ ?_ ?_ hinf⟩
    · exact tdigestRankCalc_eq h hinf (by omega)
    · intro c hc
      refine zero_le_one.trans (h.rising.weights c ?_)
      cases reverse with
      | false => exact hc
      | true => exact List.mem_reverse.mp hc
    · split_ifs
      · exact weightSum_reverse cs
      · rfl

end

/-! ## Both calculations -/

/-- Distribution and ranks in both directions end with an answer for every input. -/
def SweepsAnswer (min max : ℚ) (cs : List Centroid) (inputs : List (ExactNum ℚ)) : Prop :=
  (∃ result, EndsWith (fun fuel =>
      tdigestCdfCalc .exact fuel cs min max (weightSum cs) inputs) result ∧
    CdfAnswers inputs result) ∧
  ∀ reverse, ∃ result, EndsWith (fun fuel =>
      tdigestRankCalc .exact reverse fuel cs min max (weightSum cs) inputs) result ∧
    RankAnswers reverse min max inputs result

/-- An infinite input is not equal to itself, and is the only one that keeps a sweep from
ending. -/
theorem sweepsAnswer_iff (min max : ℚ) (cs : List Centroid) (h : Spread min max cs)
    (inputs : List (ExactNum ℚ)) : SweepsAnswer min max cs inputs ↔ NoInfinity inputs := by
  refine ⟨fun hall => (cdf_answers_iff h inputs).mp hall.1, fun hinf => ⟨?_, fun reverse => ?_⟩⟩
  · exact (cdf_answers_iff h inputs).mpr hinf
  · exact (rank_answers_iff h reverse inputs).mpr hinf

theorem spread_pair : Spread 1 2 [⟨1, 1⟩, ⟨2, 3⟩] where
  rising :=
    { weights := by simp
      sorted := by simp
      below := by simp }
  above := by simp
  nonempty := by simp

theorem sweepsAnswer_pair :
    Spread 1 2 [⟨1, 1⟩, ⟨2, 3⟩] ∧
      (SweepsAnswer 1 2 [⟨1, 1⟩, ⟨2, 3⟩] [.fin 2, .nan, .fin 1] ↔
        NoInfinity [.fin 2, .nan, .fin 1]) :=
  ⟨spread_pair, sweepsAnswer_iff 1 2 _ spread_pair _⟩

/-- The distribution at an infinity has no end. -/
theorem not_sweepsAnswer_posInf :
    ¬∀ (min max : ℚ) (cs : List Centroid), Spread min max cs →
      ∀ inputs : List (ExactNum ℚ), SweepsAnswer min max cs inputs := by
  intro hall
  have hends := (hall 1 2 _ spread_pair [.posInf]).1
  have hinf := (cdf_answers_iff spread_pair _).mp hends
  exact hinf .posInf (by simp) (.inl rfl)

end Wedb
