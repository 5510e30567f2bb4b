import Wedb.TDigest.Sweep

/-!
# Cumulative distribution

The sorted inputs are swept over five regions of the centroids: below the minimum, up to the
first mean, between the means, up to the maximum, and behind it. The weight below a value
does not decrease from one region to the next.
-/

namespace Wedb

def singletonBoundaryWeight : ℚ := 1
def halfSingletonBoundaryWeight : ℚ := 1 / 2

def clampUnit (x : ExactNum ℚ) : ExactNum ℚ :=
  if x.lt (.fin 0) then .fin 0 else if (ExactNum.fin 1).lt x then .fin 1 else x

def probOf (totalWeight : ℚ) (weight : ExactNum ℚ) : ExactNum ℚ :=
  clampUnit (weight.div (.fin totalWeight))

def along (left width : ℚ) (val : ExactNum ℚ) : ExactNum ℚ :=
  (val.sub (.fin left)).div (.fin width)

def cdfSingle (min max totalWeight : ℚ) (val : ExactNum ℚ) : ExactNum ℚ :=
  let width := max - min
  if val.lt (.fin min) then .fin 0
  else if (ExactNum.fin max).lt val then .fin totalWeight
  else if (val.sub (.fin min)).le (.fin width) then .fin (totalWeight * (1 / 2))
  else (along min width val).mul (.fin totalWeight)

section

variable (tol : Tolerance)

def cdfFirst (first : Centroid) (min : ℚ) (val : ExactNum ℚ) : ExactNum ℚ :=
  let firstWidth := first.mean - min
  if 0 < firstWidth then
    if doubleEqual tol val (.fin min) then .fin halfSingletonBoundaryWeight
    else
      lerp (.fin halfSingletonBoundaryWeight) (.fin (first.weight * (1 / 2)))
        (along min firstWidth val)
  else .fin 0

def groupWeight (mean : ℚ) (cs : List Centroid) : ℚ :=
  weightSum (cs.takeWhile fun c => doubleEqual tol (.fin c.mean) (.fin mean))

def cdfInterpolate (current next : Centroid) (weightSoFar leftExclude rightExclude : ℚ)
    (val : ExactNum ℚ) : ExactNum ℚ :=
  let dw := (current.weight + next.weight) * (1 / 2)
  let dwNoSingleton := dw - leftExclude - rightExclude
  let base := weightSoFar + current.weight * (1 / 2) + leftExclude
  lerp (.fin base) (.fin (base + dwNoSingleton)) (along current.mean (next.mean - current.mean) val)

def cdfBetween (current next : Centroid) (weightSoFar : ℚ) (val : ExactNum ℚ) : ExactNum ℚ :=
  if 0 < next.mean - current.mean then
    if current.weight = singletonBoundaryWeight then
      if next.weight = singletonBoundaryWeight then .fin (weightSoFar + singletonBoundaryWeight)
      else cdfInterpolate current next weightSoFar halfSingletonBoundaryWeight 0 val
    else if next.weight = singletonBoundaryWeight then
      cdfInterpolate current next weightSoFar 0 halfSingletonBoundaryWeight val
    else cdfInterpolate current next weightSoFar 0 0 val
  else .fin (weightSoFar + current.weight * (1 / 2))

def cdfLast (last : Centroid) (max totalWeight : ℚ) (val : ExactNum ℚ) : ExactNum ℚ :=
  let lastWidth := max - last.mean
  if doubleEqual tol val (.fin last.mean) then .fin (totalWeight - last.weight * (1 / 2))
  else if (ExactNum.fin last.mean).lt val then
    if 0 < lastWidth then
      if doubleEqual tol val (.fin max) then .fin (totalWeight - halfSingletonBoundaryWeight)
      else
        lerp (.fin (totalWeight - last.weight * (1 / 2)))
          (.fin (totalWeight - halfSingletonBoundaryWeight)) (along last.mean lastWidth val)
    else .fin totalWeight
  else .fin totalWeight

def cdfMiddle (totalWeight : ℚ) :
    ℕ → Centroid → List Centroid → ℚ → Sweep (ExactNum ℚ) → Option (Sweep (ExactNum ℚ))
  | 0, _, _, _, _ => none
  | fuel + 1, current, rest, weightSoFar, s =>
    match rest, s.1 with
    | next :: rest', x :: _ =>
      let val := x.1
      if doubleEqual tol val (.fin current.mean) then
        let dw := groupWeight tol current.mean (current :: rest)
        let prob := probOf totalWeight (.fin (weightSoFar + dw * (1 / 2)))
        cdfMiddle totalWeight fuel current rest weightSoFar (fillGroup tol val prob s)
      else if (ExactNum.fin current.mean).lt val && val.lt (.fin next.mean) then
        let prob := probOf totalWeight (cdfBetween current next weightSoFar val)
        cdfMiddle totalWeight fuel current rest weightSoFar (fillGroup tol val prob s)
      else if (ExactNum.fin next.mean).le val then
        cdfMiddle totalWeight fuel next rest' (weightSoFar + current.weight) s
      else cdfMiddle totalWeight fuel current rest weightSoFar s
    | _, _ => some s

def cdfFinish (last : Centroid) (max totalWeight : ℚ) (fuel : ℕ) (s : Sweep (ExactNum ℚ)) :
    Option (List (ExactNum ℚ)) := do
  let s ← fillWhile tol (fun val => val.le (.fin max))
    (fun val => probOf totalWeight (cdfLast tol last max totalWeight val)) fuel s
  let s ← fillWhile tol (fun _ => true) (fun _ => .fin 1) fuel s
  return s.2

def tdigestCdfCalc (fuel : ℕ) (centroids : List Centroid) (min max totalWeight : ℚ)
    (inputs : List (ExactNum ℚ)) : Option (List (ExactNum ℚ)) :=
  let result := List.replicate inputs.length ExactNum.nan
  if totalWeight ≤ 0 then some result
  else
    let indexed := (numbersOf inputs).insertionSort fun a b => totalKey a.1 ≤ totalKey b.1
    if indexed = [] then some result
    else
      match centroids with
      | [] => some result
      | [_] => (fillWhile tol (fun _ => true)
          (fun val => probOf totalWeight (cdfSingle min max totalWeight val)) fuel
          (indexed, result)).map Prod.snd
      | first :: next :: rest => do
        let s ← fillWhile tol (fun val => val.lt (.fin min)) (fun _ => .fin 0) fuel
          (indexed, result)
        let s ← fillWhile tol (fun val => val.lt (.fin first.mean))
          (fun val => probOf totalWeight (cdfFirst tol first min val)) fuel s
        let s ← cdfMiddle tol totalWeight fuel first (next :: rest) 0 s
        cdfFinish tol ((next :: rest).getLastD first) max totalWeight fuel s

end

/-! ## The weight below a value -/

def unitClamp (q : ℚ) : ℚ := max 0 (min q 1)

theorem probOf_fin {totalWeight : ℚ} (h : totalWeight ≠ 0) (w : ℚ) :
    probOf totalWeight (.fin w) = .fin (unitClamp (w / totalWeight)) := by
  have hdiv : (ExactNum.fin w).div (.fin totalWeight) = .fin (w / totalWeight) := if_neg h
  rw [probOf, clampUnit, hdiv]
  simp only [ExactNum.lt, decide_eq_true_eq, unitClamp]
  split_ifs with h0 h1
  · rw [min_eq_left (h0.le.trans zero_le_one), max_eq_left h0.le]
  · rw [min_eq_right h1.le, max_eq_right zero_le_one]
  · rw [min_eq_left (not_lt.mp h1), max_eq_right (not_lt.mp h0)]

theorem along_fin {width : ℚ} (h : width ≠ 0) (left v : ℚ) :
    along left width (.fin v) = .fin ((v - left) / width) := by
  rw [along, sub_fin]
  exact if_neg h

theorem lerp_fin (a b t : ℚ) : lerp (.fin a) (.fin b) (.fin t) = .fin (a + t * (b - a)) := by
  rw [lerp, sub_fin]
  rfl

def lerpAt (a b left width v : ℚ) : ℚ := a + (v - left) / width * (b - a)

theorem lerp_along {width : ℚ} (h : width ≠ 0) (a b left v : ℚ) :
    lerp (.fin a) (.fin b) (along left width (.fin v)) = .fin (lerpAt a b left width v) := by
  rw [along_fin h, lerp_fin]
  rfl

theorem lerpAt_mono {a b left width v w : ℚ} (hw : 0 < width) (hab : a ≤ b) (hvw : v ≤ w) :
    lerpAt a b left width v ≤ lerpAt a b left width w := by
  unfold lerpAt
  have hdiv : (v - left) / width ≤ (w - left) / width :=
    div_le_div_of_nonneg_right (by linarith) hw.le
  have hmul := mul_le_mul_of_nonneg_right hdiv (sub_nonneg.mpr hab)
  linarith

theorem le_lerpAt {a b left width v : ℚ} (hw : 0 < width) (hab : a ≤ b) (hv : left ≤ v) :
    a ≤ lerpAt a b left width v := by
  have h := @lerpAt_mono _ _ left _ _ _ hw hab hv
  rwa [lerpAt, sub_self, zero_div, zero_mul, add_zero] at h

theorem lerpAt_le {a b left width v : ℚ} (hw : 0 < width) (hab : a ≤ b) (hv : v ≤ left + width) :
    lerpAt a b left width v ≤ b := by
  have h := @lerpAt_mono _ _ left _ _ _ hw hab hv
  have hone : lerpAt a b left width (left + width) = b := by
    rw [lerpAt, add_sub_cancel_left, div_self hw.ne']
    ring
  rwa [hone] at h

/-- Weights of at least one, in the order of their means, none of which is above `max`. -/
structure Rising (max : ℚ) (cs : List Centroid) : Prop where
  weights : ∀ c ∈ cs, 1 ≤ c.weight
  sorted : cs.Pairwise fun a b => a.mean ≤ b.mean
  below : ∀ c ∈ cs, c.mean ≤ max

theorem Rising.tail {max : ℚ} {c : Centroid} {cs : List Centroid} (h : Rising max (c :: cs)) :
    Rising max cs :=
  ⟨fun d hd => h.weights d (List.mem_cons_of_mem c hd), (List.pairwise_cons.mp h.sorted).2,
    fun d hd => h.below d (List.mem_cons_of_mem c hd)⟩

theorem Rising.weightSum_nonneg {max : ℚ} {cs : List Centroid} (h : Rising max cs) :
    0 ≤ weightSum cs := by
  refine List.sum_nonneg fun w hw => ?_
  obtain ⟨c, hc, rfl⟩ := List.mem_map.mp hw
  exact zero_le_one.trans (h.weights c hc)

section

variable {current next last : Centroid} {rest cs : List Centroid} {wsf max total v w : ℚ}

def interpolateWeight (current next : Centroid) (wsf leftExclude rightExclude v : ℚ) : ℚ :=
  let base := wsf + current.weight * (1 / 2) + leftExclude
  lerpAt base (base + ((current.weight + next.weight) * (1 / 2) - leftExclude - rightExclude))
    current.mean (next.mean - current.mean) v

def betweenWeight (current next : Centroid) (wsf v : ℚ) : ℚ :=
  if current.weight = 1 then
    if next.weight = 1 then wsf + 1 else interpolateWeight current next wsf (1 / 2) 0 v
  else if next.weight = 1 then interpolateWeight current next wsf 0 (1 / 2) v
  else interpolateWeight current next wsf 0 0 v

theorem cdfBetween_fin (h : current.mean < next.mean) (wsf v : ℚ) :
    cdfBetween current next wsf (.fin v) = .fin (betweenWeight current next wsf v) := by
  have hpos : 0 < next.mean - current.mean := sub_pos.mpr h
  simp only [cdfBetween, if_pos hpos, betweenWeight, cdfInterpolate, interpolateWeight,
    singletonBoundaryWeight, halfSingletonBoundaryWeight, lerp_along hpos.ne']
  split_ifs <;> rfl

/-- Between two means the weight grows from half of the left centroid to half of the right one. -/
theorem betweenWeight_mono (hc : 1 ≤ current.weight) (hn : 1 ≤ next.weight)
    (h : current.mean < next.mean) (hvw : v ≤ w) :
    betweenWeight current next wsf v ≤ betweenWeight current next wsf w := by
  have hpos : 0 < next.mean - current.mean := sub_pos.mpr h
  unfold betweenWeight
  split_ifs with h1 h2 h2
  · exact le_rfl
  · exact lerpAt_mono hpos (by linarith) hvw
  · exact lerpAt_mono hpos (by linarith) hvw
  · exact lerpAt_mono hpos (by linarith) hvw

theorem le_betweenWeight (hc : 1 ≤ current.weight) (hn : 1 ≤ next.weight)
    (h : current.mean < next.mean) (hv : current.mean ≤ v) :
    wsf + current.weight * (1 / 2) ≤ betweenWeight current next wsf v := by
  have hpos : 0 < next.mean - current.mean := sub_pos.mpr h
  unfold betweenWeight
  split_ifs with h1 h2 h2
  · linarith
  · refine le_trans ?_ (le_lerpAt hpos (by linarith) hv)
    linarith
  · refine le_trans ?_ (le_lerpAt hpos (by linarith) hv)
    linarith
  · refine le_trans ?_ (le_lerpAt hpos (by linarith) hv)
    linarith

theorem betweenWeight_le (hc : 1 ≤ current.weight) (hn : 1 ≤ next.weight)
    (h : current.mean < next.mean) (hv : v ≤ next.mean) :
    betweenWeight current next wsf v ≤ wsf + current.weight + next.weight * (1 / 2) := by
  have hpos : 0 < next.mean - current.mean := sub_pos.mpr h
  have hend : v ≤ current.mean + (next.mean - current.mean) := by linarith
  unfold betweenWeight
  split_ifs with h1 h2 h2
  · linarith
  · exact (lerpAt_le hpos (by linarith) hend).trans (by linarith)
  · exact (lerpAt_le hpos (by linarith) hend).trans (by linarith)
  · exact (lerpAt_le hpos (by linarith) hend).trans (by linarith)

def lastWeight (last : Centroid) (max total v : ℚ) : ℚ :=
  if v ≤ max then
    if v = last.mean then total - last.weight * (1 / 2)
    else if v = max then total - 1 / 2
    else lerpAt (total - last.weight * (1 / 2)) (total - 1 / 2) last.mean (max - last.mean) v
  else total

theorem le_lastWeight (hw : 1 ≤ last.weight) (hv : last.mean ≤ v) :
    total - last.weight * (1 / 2) ≤ lastWeight last max total v := by
  unfold lastWeight
  split_ifs with h1 h2 h3
  · exact le_rfl
  · linarith
  · have hpos : 0 < max - last.mean := sub_pos.mpr ((lt_of_le_of_ne hv (Ne.symm h2)).trans_le h1)
    exact le_lerpAt hpos (by linarith) hv
  · linarith

theorem lastWeight_mono (hw : 1 ≤ last.weight) (hv : last.mean ≤ v) (hvw : v ≤ w) :
    lastWeight last max total v ≤ lastWeight last max total w := by
  by_cases heq : v = last.mean
  · have hle := @le_lastWeight _ max total _ hw (hv.trans hvw)
    by_cases hm : v ≤ max
    · rwa [lastWeight, if_pos hm, if_pos heq]
    · have hm' : ¬w ≤ max := fun h => hm (hvw.trans h)
      rw [lastWeight, lastWeight, if_neg hm, if_neg hm']
  · have hlt : last.mean < v := lt_of_le_of_ne hv (Ne.symm heq)
    have hne : w ≠ last.mean := (hlt.trans_le hvw).ne'
    unfold lastWeight
    by_cases hwm : w ≤ max
    · have hpos : 0 < max - last.mean := sub_pos.mpr (hlt.trans_le (hvw.trans hwm))
      have hle : lerpAt (total - last.weight * (1 / 2)) (total - 1 / 2) last.mean
          (max - last.mean) v ≤ total - 1 / 2 :=
        lerpAt_le hpos (by linarith) (by linarith)
      rw [if_pos (hvw.trans hwm), if_pos hwm, if_neg heq, if_neg hne]
      by_cases hvm : v = max
      · rw [if_pos hvm, if_pos (le_antisymm hwm (hvm ▸ hvw))]
      · rw [if_neg hvm]
        split_ifs with hw'
        · exact hle
        · exact lerpAt_mono hpos (by linarith) hvw
    · rw [if_neg hwm]
      split_ifs with hvm hmax
      · linarith
      · have hpos : 0 < max - last.mean := sub_pos.mpr (hlt.trans_le hvm)
        exact (lerpAt_le hpos (by linarith) (by linarith)).trans (by linarith)
      · exact le_rfl

def equalWeight (mean : ℚ) (cs : List Centroid) : ℚ :=
  weightSum (cs.takeWhile fun c => decide (c.mean = mean))

theorem groupWeight_exact (mean : ℚ) (cs : List Centroid) :
    groupWeight .exact mean cs = equalWeight mean cs := by
  simp only [groupWeight, equalWeight, doubleEqual_fin]

def middleWeight (max total : ℚ) : Centroid → List Centroid → ℚ → ℚ → ℚ
  | current, [], _, v => lastWeight current max total v
  | current, next :: rest, wsf, v =>
    if v = current.mean then wsf + equalWeight current.mean (current :: next :: rest) * (1 / 2)
    else if v < next.mean then betweenWeight current next wsf v
    else middleWeight max total next rest (wsf + current.weight) v

theorem equalWeight_cons (current : Centroid) (cs : List Centroid) :
    equalWeight current.mean (current :: cs) = current.weight + equalWeight current.mean cs := by
  rw [equalWeight, List.takeWhile_cons_of_pos (by simp), weightSum_cons]
  rfl

theorem equalWeight_nonneg (h : Rising max cs) (mean : ℚ) : 0 ≤ equalWeight mean cs := by
  refine List.sum_nonneg fun w hw => ?_
  obtain ⟨c, hc, rfl⟩ := List.mem_map.mp hw
  exact zero_le_one.trans (h.weights c ((List.takeWhile_prefix _).subset hc))

theorem le_middleWeight (h : Rising max (current :: rest))
    (htotal : wsf + weightSum (current :: rest) = total) (hv : current.mean ≤ v) :
    wsf + current.weight * (1 / 2) ≤ middleWeight max total current rest wsf v := by
  induction rest generalizing current wsf with
  | nil =>
    have hle := @le_lastWeight _ max total _ (h.weights current (by simp)) hv
    rw [weightSum_cons, weightSum_nil] at htotal
    rw [middleWeight]
    linarith
  | cons next rest ih =>
    have hc := h.weights current (by simp)
    have hn := h.weights next (by simp)
    rw [middleWeight]
    split_ifs with heq hlt
    · rw [equalWeight_cons]
      have hnonneg := equalWeight_nonneg h.tail current.mean
      linarith
    · exact le_betweenWeight hc hn (hv.trans_lt hlt) hv
    · rw [weightSum_cons, ← add_assoc] at htotal
      have hrest := ih h.tail htotal (not_lt.mp hlt)
      linarith

theorem equalWeight_le_middleWeight (h : Rising max (current :: rest))
    (htotal : wsf + weightSum (current :: rest) = total) (hv : current.mean < v) :
    wsf + equalWeight current.mean (current :: rest) * (1 / 2) ≤
      middleWeight max total current rest wsf v := by
  induction rest generalizing current wsf with
  | nil =>
    have hle := le_middleWeight h htotal hv.le
    have hone : equalWeight current.mean [current] = current.weight := by
      rw [equalWeight_cons]
      exact add_zero _
    rwa [hone]
  | cons next rest ih =>
    have hc := h.weights current (by simp)
    have hn := h.weights next (by simp)
    have hle : current.mean ≤ next.mean := (List.pairwise_cons.mp h.sorted).1 next (by simp)
    have hsum := htotal
    rw [weightSum_cons, ← add_assoc] at hsum
    rw [middleWeight, if_neg hv.ne', equalWeight_cons]
    by_cases hgroup : next.mean = current.mean
    · rw [if_neg (by rw [hgroup]; exact not_lt.mpr hv.le)]
      have hrest := ih h.tail hsum (hgroup ▸ hv)
      rw [hgroup] at hrest
      linarith
    · have hlt : current.mean < next.mean := lt_of_le_of_ne hle (Ne.symm hgroup)
      have hzero : equalWeight current.mean (next :: rest) = 0 := by
        rw [equalWeight, List.takeWhile_cons_of_neg (by simpa using hgroup)]
        rfl
      rw [hzero]
      split_ifs with hvn
      · have hb := @le_betweenWeight _ _ wsf _ hc hn hlt hv.le
        linarith
      · have hrest := le_middleWeight h.tail hsum (not_lt.mp hvn)
        linarith

theorem middleWeight_mono (h : Rising max (current :: rest))
    (htotal : wsf + weightSum (current :: rest) = total) (hv : current.mean ≤ v) (hvw : v ≤ w) :
    middleWeight max total current rest wsf v ≤ middleWeight max total current rest wsf w := by
  induction rest generalizing current wsf with
  | nil => exact lastWeight_mono (h.weights current (by simp)) hv hvw
  | cons next rest ih =>
    rcases eq_or_lt_of_le hvw with rfl | hlt
    · exact le_rfl
    have hc := h.weights current (by simp)
    have hn := h.weights next (by simp)
    have hw : current.mean < w := hv.trans_lt hlt
    have hsum := htotal
    rw [weightSum_cons, ← add_assoc] at hsum
    by_cases heq : v = current.mean
    · have hle := equalWeight_le_middleWeight h htotal hw
      rwa [middleWeight, if_pos heq]
    · rw [middleWeight, middleWeight, if_neg heq, if_neg hw.ne']
      by_cases hvn : v < next.mean
      · have hcn : current.mean < next.mean := hv.trans_lt hvn
        rw [if_pos hvn]
        split_ifs with hwn
        · exact betweenWeight_mono hc hn hcn hvw
        · have hle := @betweenWeight_le _ _ wsf _ hc hn hcn hvn.le
          have hrest := le_middleWeight h.tail hsum (not_lt.mp hwn)
          linarith
      · have hnw : ¬w < next.mean := fun hwn => hvn (hlt.trans hwn)
        rw [if_neg hvn, if_neg hnw]
        exact ih h.tail hsum (not_lt.mp hvn)

end

end Wedb
