import Wedb.TDigest.Cdf

/-!
# Runs of the cumulative distribution

On finite inputs the five loops end and give every input the share of the weight below it. An
infinite input is never consumed, so that the last loop does not end.
-/

namespace Wedb

def probAt (total : ℚ) (weight : ℚ → ℚ) : ExactNum ℚ → ExactNum ℚ :=
  onFinite (fun v => .fin (unitClamp (weight v / total))) .nan

/-- Inputs that are not below a bound. -/
def From (bound : ℚ) (xs : List (ExactNum ℚ × ℕ)) : Prop := ∀ x ∈ xs, ∀ v, x.1 = .fin v → bound ≤ v

section

variable {current next last : Centroid} {rest : List Centroid} {wsf max total : ℚ}
  {xs : List (ExactNum ℚ × ℕ)} {fuel fuel' : ℕ}

theorem cdfLast_fin {v : ℚ} (hv : last.mean ≤ v) (hmax : v ≤ max) :
    cdfLast .exact last max total (.fin v) = .fin (lastWeight last max total v) := by
  simp only [cdfLast, lastWeight, doubleEqual_fin, decide_eq_true_eq, ExactNum.lt, if_pos hmax,
    halfSingletonBoundaryWeight]
  by_cases heq : v = last.mean
  · rw [if_pos heq, if_pos heq]
  · have hlt : last.mean < v := lt_of_le_of_ne hv (Ne.symm heq)
    have hpos : 0 < max - last.mean := sub_pos.mpr (hlt.trans_le hmax)
    rw [if_neg heq, if_neg heq, if_pos hlt, if_pos hpos, lerp_along hpos.ne']
    split_ifs <;> rfl

theorem cdfFinish_eq (hfin : AllFinite xs) (hs : SortedInputs xs) (hfrom : From last.mean xs)
    (htotal : total ≠ 0) (hfuel : xs.length < fuel) (result : List (ExactNum ℚ)) :
    cdfFinish .exact last max total fuel (xs, result) =
      some (scatter (probAt total (lastWeight last max total)) xs result) := by
  have hrest := List.dropWhile_suffix (l := xs) fun x => x.1.le (.fin max)
  have hlen := hrest.length_le
  unfold cdfFinish
  rw [fillWhile_eq hfin hfuel]
  simp only [Option.bind_eq_bind, Option.bind_some]
  rw [fillWhile_eq (hfin.of_suffix hrest) (by omega)]
  simp only [Option.bind_some, Option.pure_def, Option.some.injEq]
  have hfront : scatter (fun val => probOf total (cdfLast .exact last max total val))
      (xs.takeWhile fun x => x.1.le (.fin max)) result =
      scatter (probAt total (lastWeight last max total))
        (xs.takeWhile fun x => x.1.le (.fin max)) result := by
    refine scatter_congr fun x hx => ?_
    have hmem := (List.takeWhile_prefix _).subset hx
    have hle := List.mem_takeWhile_imp hx
    obtain ⟨v, hv⟩ := hfin x hmem
    rw [hv] at hle ⊢
    rw [cdfLast_fin (hfrom x hmem v hv) (by simpa [ExactNum.le] using hle), probOf_fin htotal]
    rfl
  have hback : scatter (fun _ => ExactNum.fin 1) (xs.dropWhile fun x => x.1.le (.fin max))
      (scatter (probAt total (lastWeight last max total))
        (xs.takeWhile fun x => x.1.le (.fin max)) result) =
      scatter (probAt total (lastWeight last max total))
        (xs.dropWhile fun x => x.1.le (.fin max))
        (scatter (probAt total (lastWeight last max total))
          (xs.takeWhile fun x => x.1.le (.fin max)) result) := by
    refine scatter_congr fun x hx => ?_
    obtain ⟨v, hv⟩ := hfin x (hrest.subset hx)
    have hgt := @not_of_mem_dropWhile _ (fun val => val.le (.fin max)) hs hfin
      (fun v w hvw hw => by
        simp only [ExactNum.le, decide_eq_true_eq] at hw ⊢
        exact hvw.trans hw) _ hx
    rw [hv] at hgt ⊢
    have hgt' : ¬v ≤ max := by simpa [ExactNum.le] using hgt
    change ExactNum.fin 1 = .fin (unitClamp (lastWeight last max total v / total))
    rw [lastWeight, if_neg hgt', div_self htotal]
    norm_num [unitClamp]
  have hall : (xs.dropWhile fun x => x.1.le (.fin max)).takeWhile (fun _ => true) =
      xs.dropWhile fun x => x.1.le (.fin max) := List.takeWhile_eq_self_iff.mpr fun _ _ => rfl
  rw [hall, hfront, hback, ← scatter_append, List.takeWhile_append_dropWhile]

theorem cdfMiddle_nil (s : Sweep (ExactNum ℚ)) :
    cdfMiddle .exact total (fuel + 1) current [] wsf s = some s := rfl

theorem cdfMiddle_done (result : List (ExactNum ℚ)) :
    cdfMiddle .exact total (fuel + 1) current rest wsf ([], result) = some ([], result) := by
  cases rest <;> rfl

theorem cdfMiddle_cons (x : ExactNum ℚ × ℕ) (result : List (ExactNum ℚ)) :
    cdfMiddle .exact total (fuel + 1) current (next :: rest) wsf (x :: xs, result) =
      if doubleEqual .exact x.1 (.fin current.mean) then
        cdfMiddle .exact total fuel current (next :: rest) wsf (fillGroup .exact x.1
          (probOf total (.fin (wsf + groupWeight .exact current.mean (current :: next :: rest) *
            (1 / 2)))) (x :: xs, result))
      else if (ExactNum.fin current.mean).lt x.1 && x.1.lt (.fin next.mean) then
        cdfMiddle .exact total fuel current (next :: rest) wsf
          (fillGroup .exact x.1 (probOf total (cdfBetween current next wsf x.1)) (x :: xs, result))
      else if (ExactNum.fin next.mean).le x.1 then
        cdfMiddle .exact total fuel next rest (wsf + current.weight) (x :: xs, result)
      else cdfMiddle .exact total fuel current (next :: rest) wsf (x :: xs, result) := rfl

theorem SortedInputs.from_of_head {x : ExactNum ℚ × ℕ} {bound v : ℚ} (hs : SortedInputs (x :: xs))
    (hx : x.1 = .fin v) (hv : bound ≤ v) : From bound (x :: xs) := by
  intro y hy w hw
  rcases List.mem_cons.mp hy with rfl | hy
  · rw [hx] at hw
    cases hw
    exact hv
  · have hle := (List.pairwise_cons.mp hs).1 y hy
    rw [hx, hw, totalKey_fin_le] at hle
    exact hv.trans hle

/-- From the first mean on, both cursors advance until the inputs are used up. -/
theorem cdfMiddle_finish (h : Rising max (current :: rest)) (hfin : AllFinite xs)
    (hs : SortedInputs xs) (hfrom : From current.mean xs)
    (hsum : wsf + weightSum (current :: rest) = total) (htotal : total ≠ 0)
    (hfuel : xs.length + rest.length < fuel) (hfuel' : xs.length < fuel')
    (result : List (ExactNum ℚ)) :
    ((cdfMiddle .exact total fuel current rest wsf (xs, result)).bind
        (cdfFinish .exact (rest.getLastD current) max total fuel')) =
      some (scatter (probAt total (middleWeight max total current rest wsf)) xs result) := by
  induction fuel generalizing current rest wsf xs result with
  | zero => omega
  | succ fuel ih =>
    cases rest with
    | nil =>
      rw [cdfMiddle_nil]
      exact cdfFinish_eq hfin hs hfrom htotal hfuel' result
    | cons next rest =>
      cases xs with
      | nil =>
        rw [cdfMiddle_done]
        exact @cdfFinish_eq ((next :: rest).getLastD current) _ _ _ _ hfin hs
          (fun x hx => absurd hx List.not_mem_nil) htotal hfuel' result
      | cons x xs =>
        obtain ⟨v, hv⟩ := hfin x (by simp)
        have hcv := hfrom x (by simp) v hv
        have hstep : ∀ val : ExactNum ℚ,
            val = probAt total (middleWeight max total current (next :: rest) wsf) x.1 →
            ((cdfMiddle .exact total fuel current (next :: rest) wsf
              (fillGroup .exact x.1 val (x :: xs, result))).bind
                (cdfFinish .exact ((next :: rest).getLastD current) max total fuel')) =
              some (scatter (probAt total (middleWeight max total current (next :: rest) wsf))
                (x :: xs) result) := by
          rintro val rfl
          obtain ⟨group, rest', hsplit, hlen, -, hfill⟩ := fillGroup_eq hfin
            (probAt total (middleWeight max total current (next :: rest) wsf)) result
          have hsub : rest' <:+ x :: xs := hsplit ▸ List.suffix_append group rest'
          simp only [List.length_cons] at hfuel hfuel'
          rw [hfill, ih h (hfin.of_suffix hsub) (hs.sublist hsub.sublist)
            (fun y hy => hfrom y (hsub.subset hy)) hsum
            (by rw [List.length_cons]; omega) (by omega), hsplit, scatter_append]
        rw [cdfMiddle_cons]
        have hcn : current.mean ≤ next.mean := (List.pairwise_cons.mp h.sorted).1 next (by simp)
        by_cases heq : v = current.mean
        · rw [if_pos (by rw [hv, doubleEqual_fin]; exact decide_eq_true heq)]
          refine hstep _ ?_
          rw [hv, probOf_fin htotal, groupWeight_exact]
          change _ = ExactNum.fin
            (unitClamp (middleWeight max total current (next :: rest) wsf v / total))
          rw [middleWeight, if_pos heq]
        · have hlt : current.mean < v := lt_of_le_of_ne hcv (Ne.symm heq)
          rw [if_neg (by rw [hv, doubleEqual_fin]; simpa using heq)]
          by_cases hvn : v < next.mean
          · rw [if_pos (by simp [hv, ExactNum.lt, hlt, hvn])]
            refine hstep _ ?_
            rw [hv, cdfBetween_fin (hlt.trans hvn), probOf_fin htotal]
            change _ = ExactNum.fin
              (unitClamp (middleWeight max total current (next :: rest) wsf v / total))
            rw [middleWeight, if_neg heq, if_pos hvn]
          · have hnext := not_lt.mp hvn
            rw [if_neg (by simp [hv, ExactNum.lt, hlt, hvn]),
              if_pos (by rw [hv]; simpa [ExactNum.le] using hnext)]
            have hsum' := hsum
            rw [weightSum_cons, ← add_assoc] at hsum'
            rw [List.length_cons] at hfuel
            have hrest := ih h.tail hfin hs (hs.from_of_head hv hnext) hsum'
              (by rw [List.length_cons] at hfuel ⊢; omega) hfuel' result
            have hlast : (next :: rest).getLastD current = rest.getLastD next := List.getLastD_cons
            rw [hlast, hrest, Option.some.injEq]
            refine scatter_congr fun y hy => ?_
            obtain ⟨w, hw⟩ := hfin y hy
            have hvw := hs.from_of_head hv le_rfl y hy w hw
            rw [hw]
            change ExactNum.fin (unitClamp (_ / total)) = ExactNum.fin (unitClamp (_ / total))
            rw [middleWeight, if_neg (hlt.trans_le hvw).ne',
              if_neg (not_lt.mpr (hnext.trans hvw))]

end

/-! ## The whole sweep -/

/-- Centroids in the order of their means between `min` and `max`. -/
structure Spread (min max : ℚ) (cs : List Centroid) : Prop where
  rising : Rising max cs
  above : ∀ c ∈ cs, min ≤ c.mean
  nonempty : cs ≠ []

theorem Spread.total_pos {min max : ℚ} {cs : List Centroid} (h : Spread min max cs) :
    0 < weightSum cs := by
  cases cs with
  | nil => exact absurd rfl h.nonempty
  | cons c cs =>
    have hc := h.rising.weights c (by simp)
    have hcs := h.rising.tail.weightSum_nonneg
    rw [weightSum_cons]
    linarith

section

variable {min max total v w : ℚ} {first next : Centroid} {rest cs : List Centroid} {fuel : ℕ}
  {inputs : List (ExactNum ℚ)}

def firstWeight (first : Centroid) (min v : ℚ) : ℚ :=
  if v = min then 1 / 2
  else lerpAt (1 / 2) (first.weight * (1 / 2)) min (first.mean - min) v

theorem cdfFirst_fin (hv : min ≤ v) (hlt : v < first.mean) :
    cdfFirst .exact first min (.fin v) = .fin (firstWeight first min v) := by
  have hpos : 0 < first.mean - min := sub_pos.mpr (hv.trans_lt hlt)
  simp only [cdfFirst, firstWeight, if_pos hpos, doubleEqual_fin, decide_eq_true_eq,
    halfSingletonBoundaryWeight, lerp_along hpos.ne']
  split_ifs <;> rfl

theorem firstWeight_mono (hw : 1 ≤ first.weight) (hv : min ≤ v) (hvw : v ≤ w)
    (hlt : w < first.mean) : firstWeight first min v ≤ firstWeight first min w := by
  have hpos : 0 < first.mean - min := sub_pos.mpr ((hv.trans hvw).trans_lt hlt)
  unfold firstWeight
  split_ifs with h1 h2 h2
  · exact le_rfl
  · exact le_lerpAt hpos (by linarith) (hv.trans hvw)
  · exact absurd (le_antisymm (h2 ▸ hvw) hv) h1
  · exact lerpAt_mono hpos (by linarith) hvw

theorem firstWeight_le (hw : 1 ≤ first.weight) (hv : min ≤ v) (hlt : v < first.mean) :
    firstWeight first min v ≤ first.weight * (1 / 2) := by
  have hpos : 0 < first.mean - min := sub_pos.mpr (hv.trans_lt hlt)
  unfold firstWeight
  split_ifs
  · linarith
  · exact lerpAt_le hpos (by linarith) (by linarith)

theorem firstWeight_nonneg (hw : 1 ≤ first.weight) (hv : min ≤ v) (hlt : v < first.mean) :
    0 ≤ firstWeight first min v := by
  have hpos : 0 < first.mean - min := sub_pos.mpr (hv.trans_lt hlt)
  unfold firstWeight
  split_ifs
  · norm_num
  · exact le_trans (by norm_num) (le_lerpAt hpos (by linarith) hv)

def cdfWeight (min max total : ℚ) : List Centroid → ℚ → ℚ
  | [], _ => 0
  | [_], v => if v < min then 0 else if max < v then total else total * (1 / 2)
  | first :: next :: rest, v =>
    if v < min then 0
    else if v < first.mean then firstWeight first min v
    else middleWeight max total first (next :: rest) 0 v

theorem cdfWeight_mono (h : Spread min max cs) (htotal : weightSum cs = total) (hvw : v ≤ w) :
    cdfWeight min max total cs v ≤ cdfWeight min max total cs w := by
  have hpos := h.total_pos
  rw [htotal] at hpos
  cases cs with
  | nil => exact le_rfl
  | cons c cs =>
    cases cs with
    | nil =>
      simp only [cdfWeight]
      split_ifs <;> linarith
    | cons next rest =>
      have hsum : 0 + weightSum (c :: next :: rest) = total := by rw [zero_add, htotal]
      have hw := h.rising.weights c (by simp)
      have hmiddle : ∀ {u : ℚ}, c.mean ≤ u →
          c.weight * (1 / 2) ≤ middleWeight max total c (next :: rest) 0 u := by
        intro u hu
        have hle := le_middleWeight h.rising hsum hu
        rwa [zero_add] at hle
      simp only [cdfWeight]
      by_cases hvmin : v < min
      · rw [if_pos hvmin]
        split_ifs with h1 h2
        · exact le_rfl
        · exact firstWeight_nonneg hw (not_lt.mp h1) h2
        · exact le_trans (by linarith) (hmiddle (not_lt.mp h2))
      · have hwmin : ¬w < min := fun hlt => hvmin (hvw.trans_lt hlt)
        rw [if_neg hvmin, if_neg hwmin]
        by_cases hvfirst : v < c.mean
        · rw [if_pos hvfirst]
          split_ifs with h2
          · exact firstWeight_mono hw (not_lt.mp hvmin) hvw h2
          · exact (firstWeight_le hw (not_lt.mp hvmin) hvfirst).trans (hmiddle (not_lt.mp h2))
        · have hwfirst : ¬w < c.mean := fun hlt => hvfirst (hvw.trans_lt hlt)
          rw [if_neg hvfirst, if_neg hwfirst]
          exact middleWeight_mono h.rising hsum (not_lt.mp hvfirst) hvw

theorem lt_bound (bound : ℚ) (v w : ℚ) (hvw : v ≤ w)
    (hw : (ExactNum.fin w).lt (.fin bound) = true) : (ExactNum.fin v).lt (.fin bound) = true := by
  simp only [ExactNum.lt, decide_eq_true_eq] at hw ⊢
  exact hvw.trans_lt hw

theorem cdfFront_eq {xs : List (ExactNum ℚ × ℕ)} (h : Spread min max (first :: next :: rest))
    (htotal : weightSum (first :: next :: rest) = total) (hfin : AllFinite xs)
    (hs : SortedInputs xs) (hfuel : xs.length < fuel) (result : List (ExactNum ℚ)) :
    ∃ front back, xs = front ++ back ∧ back <:+ xs ∧ From first.mean back ∧
      ((fillWhile .exact (fun val => val.lt (.fin min)) (fun _ => .fin 0) fuel (xs, result)).bind
        (fillWhile .exact (fun val => val.lt (.fin first.mean))
          (fun val => probOf total (cdfFirst .exact first min val)) fuel)) =
      some (back, scatter (probAt total (cdfWeight min max total (first :: next :: rest)))
        front result) := by
  have hne : total ≠ 0 := by
    rw [← htotal]
    exact h.total_pos.ne'
  have h₁ := List.dropWhile_suffix (l := xs) fun x => x.1.lt (.fin min)
  have hfin₁ := hfin.of_suffix h₁
  have hs₁ : SortedInputs (xs.dropWhile fun x => x.1.lt (.fin min)) := hs.sublist h₁.sublist
  generalize hx₁ : xs.dropWhile (fun x => x.1.lt (.fin min)) = xs₁ at h₁ hfin₁ hs₁
  have h₂ := List.dropWhile_suffix (l := xs₁) fun x => x.1.lt (.fin first.mean)
  have hmin : ∀ x ∈ xs₁, ¬x.1.lt (.fin min) = true := by
    intro x hx
    rw [← hx₁] at hx
    exact @not_of_mem_dropWhile _ (fun val => val.lt (.fin min)) hs hfin (lt_bound min) _ hx
  have hmean : ∀ x ∈ xs₁.dropWhile (fun x => x.1.lt (.fin first.mean)),
      ¬x.1.lt (.fin first.mean) = true := fun x hx =>
    @not_of_mem_dropWhile _ (fun val => val.lt (.fin first.mean)) hs₁ hfin₁
      (lt_bound first.mean) _ hx
  refine ⟨xs.takeWhile (fun x => x.1.lt (.fin min)) ++
      xs₁.takeWhile (fun x => x.1.lt (.fin first.mean)),
    xs₁.dropWhile fun x => x.1.lt (.fin first.mean), ?_, h₂.trans h₁, fun x hx v hv => ?_, ?_⟩
  · rw [List.append_assoc, List.takeWhile_append_dropWhile, ← hx₁, List.takeWhile_append_dropWhile]
  · have hge := hmean x hx
    rw [hv] at hge
    simpa [ExactNum.lt] using hge
  · have hlen := h₁.length_le
    rw [fillWhile_eq hfin hfuel, hx₁, Option.bind_some, fillWhile_eq hfin₁ (by omega),
      scatter_append, Option.some.injEq, Prod.mk.injEq]
    refine ⟨rfl, ?_⟩
    have hzero :
        scatter (fun _ => ExactNum.fin 0) (xs.takeWhile fun x => x.1.lt (.fin min)) result =
        scatter (probAt total (cdfWeight min max total (first :: next :: rest)))
          (xs.takeWhile fun x => x.1.lt (.fin min)) result := by
      refine scatter_congr fun x hx => ?_
      obtain ⟨v, hv⟩ := hfin x ((List.takeWhile_prefix _).subset hx)
      have hlt := List.mem_takeWhile_imp hx
      rw [hv] at hlt ⊢
      have hlt' : v < min := by simpa [ExactNum.lt] using hlt
      change ExactNum.fin 0 = .fin (unitClamp (_ / total))
      rw [cdfWeight, if_pos hlt', zero_div]
      norm_num [unitClamp]
    rw [hzero]
    refine scatter_congr fun x hx => ?_
    have hmem := (List.takeWhile_prefix _).subset hx
    obtain ⟨v, hv⟩ := hfin₁ x hmem
    have hlt := List.mem_takeWhile_imp hx
    have hge := hmin x hmem
    rw [hv] at hlt hge ⊢
    have hlt' : v < first.mean := by simpa [ExactNum.lt] using hlt
    have hge' : ¬v < min := by simpa [ExactNum.lt] using hge
    rw [cdfFirst_fin (not_lt.mp hge') hlt', probOf_fin hne]
    change ExactNum.fin _ = .fin (unitClamp (_ / total))
    rw [cdfWeight, if_neg hge', if_pos hlt']

theorem cdfSingle_fin (v : ℚ) :
    cdfSingle min max total (.fin v) =
      .fin (if v < min then 0 else if max < v then total else total * (1 / 2)) := by
  simp only [cdfSingle, ExactNum.lt, decide_eq_true_eq, sub_fin, ExactNum.le]
  split_ifs with h1 h2 h3
  · rfl
  · rfl
  · rfl
  · exact absurd (sub_le_sub_right (not_lt.mp h2) min) h3

/-- Finite inputs get the share of the weight below them, and the others stay what they are. -/
theorem tdigestCdfCalc_eq (h : Spread min max cs) (htotal : weightSum cs = total)
    (hinf : NoInfinity inputs) (hfuel : inputs.length + cs.length < fuel) :
    tdigestCdfCalc .exact fuel cs min max total inputs =
      some (inputs.map (probAt total (cdfWeight min max total cs))) := by
  have hpos := h.total_pos
  rw [htotal] at hpos
  generalize hxs : (numbersOf inputs).insertionSort (fun a b => totalKey a.1 ≤ totalKey b.1) = xs
  have hperm : xs.Perm (numbersOf inputs) := by
    rw [← hxs]
    exact List.perm_insertionSort _ _
  have hs : SortedInputs xs := by
    rw [← hxs]
    exact sortedInputs_insertionSort _
  have hfin : AllFinite xs := fun x hx => allFinite_numbersOf hinf x (hperm.mem_iff.mp hx)
  have hlen : xs.length ≤ inputs.length := by
    rw [hperm.length_eq, ← @List.length_zipIdx _ inputs 0]
    exact List.length_filter_le _ _
  have hmap : scatter (probAt total (cdfWeight min max total cs)) xs
      (List.replicate inputs.length .nan) =
        inputs.map (probAt total (cdfWeight min max total cs)) := by
    rw [scatter_eq_map (p := fun a => !a.isNan) _ _ hperm]
    refine List.map_congr_left fun a _ => ?_
    cases a <;> rfl
  unfold tdigestCdfCalc
  rw [if_neg (not_le.mpr hpos)]
  simp only [hxs]
  by_cases hnil : xs = []
  · rw [if_pos hnil, ← hmap, hnil]
    rfl
  · rw [if_neg hnil, ← hmap]
    cases cs with
    | nil => exact absurd rfl h.nonempty
    | cons c cs =>
      cases cs with
      | nil =>
        simp only []
        have hall : xs.takeWhile (fun _ => true) = xs := List.takeWhile_eq_self_iff.mpr fun _ _ => rfl
        rw [fillWhile_eq hfin (by omega), Option.map_some, hall, Option.some.injEq]
        dsimp only
        refine scatter_congr fun x hx => ?_
        obtain ⟨v, hv⟩ := hfin x hx
        rw [hv, cdfSingle_fin, probOf_fin hpos.ne']
        rfl
      | cons next rest =>
        obtain ⟨front, back, hsplit, hback, hfrom, hfront⟩ := @cdfFront_eq _ _ _ _ _ _ fuel _ h htotal
          hfin hs (by omega) (List.replicate inputs.length .nan)
        have hblen := hback.length_le
        have hmiddle := @cdfMiddle_finish _ _ _ _ _ _ fuel fuel h.rising
          (hfin.of_suffix hback) (hs.sublist hback.sublist) hfrom
          (show 0 + weightSum (c :: next :: rest) = total by rw [zero_add, htotal]) hpos.ne'
          (by rw [List.length_cons] at hfuel; omega) (by omega)
          (scatter (probAt total (cdfWeight min max total (c :: next :: rest))) front
            (List.replicate inputs.length .nan))
        simp only [Option.bind_eq_bind, ← Option.bind_assoc]
        rw [hfront, Option.bind_some]
        refine hmiddle.trans ?_
        rw [Option.some.injEq, hsplit, scatter_append]
        refine scatter_congr fun x hx => ?_
        obtain ⟨v, hv⟩ := hfin x (hback.subset hx)
        have hge := hfrom x hx v hv
        rw [hv]
        change ExactNum.fin (unitClamp (_ / total)) = ExactNum.fin (unitClamp (_ / total))
        rw [cdfWeight, if_neg (not_lt.mpr ((h.above c (by simp)).trans hge)),
          if_neg (not_lt.mpr hge)]

end

/-! ## Infinite inputs -/

theorem Waits.cdfMiddle {x : ExactNum ℚ × ℕ} {total wsf : ℚ} {current : Centroid}
    {rest : List Centroid} {fuel : ℕ} {s s' : Sweep (ExactNum ℚ)} (h : Waits x s)
    (hs : cdfMiddle .exact total fuel current rest wsf s = some s') : Waits x s' := by
  induction fuel generalizing current rest wsf s with
  | zero => cases hs
  | succ fuel ih =>
    obtain ⟨xs, result⟩ := s
    cases rest with
    | nil =>
      rw [cdfMiddle_nil] at hs
      cases hs
      exact h
    | cons next rest =>
      cases xs with
      | nil => exact absurd h.mem List.not_mem_nil
      | cons y ys =>
        have hy := h.numbers y (by simp)
        rw [cdfMiddle_cons] at hs
        split_ifs at hs
        · exact ih (h.fillGroup hy _) hs
        · exact ih (h.fillGroup hy _) hs
        · exact ih h hs
        · exact ih h hs

theorem Waits.cdfFinish {x : ExactNum ℚ × ℕ} {last : Centroid} {max total : ℚ} {fuel : ℕ}
    {s : Sweep (ExactNum ℚ)} (h : Waits x s) : cdfFinish .exact last max total fuel s = none := by
  unfold Wedb.cdfFinish
  refine Option.bind_eq_none_iff.mpr fun s' hs => ?_
  rw [(h.fillWhile hs).fillWhile_true]
  rfl

theorem tdigestCdfCalc_none {min max total : ℚ} {cs : List Centroid} (h : Spread min max cs)
    (htotal : weightSum cs = total) {inputs : List (ExactNum ℚ)} (hinf : ¬NoInfinity inputs)
    (fuel : ℕ) : tdigestCdfCalc .exact fuel cs min max total inputs = none := by
  have hpos := h.total_pos
  rw [htotal] at hpos
  generalize hxs : (numbersOf inputs).insertionSort (fun a b => totalKey a.1 ≤ totalKey b.1) = xs
  have hperm : xs.Perm (numbersOf inputs) := by
    rw [← hxs]
    exact List.perm_insertionSort _ _
  obtain ⟨x, hx⟩ := exists_waits hinf hperm (List.replicate inputs.length ExactNum.nan)
  have hne : xs ≠ [] := fun hnil => absurd hx.mem (by rw [hnil]; exact List.not_mem_nil)
  unfold tdigestCdfCalc
  rw [if_neg (not_le.mpr hpos)]
  simp only [hxs]
  rw [if_neg hne]
  cases cs with
  | nil => exact absurd rfl h.nonempty
  | cons c cs =>
    cases cs with
    | nil =>
      simp only []
      rw [hx.fillWhile_true]
      rfl
    | cons next rest =>
      simp only [Option.bind_eq_bind]
      refine Option.bind_eq_none_iff.mpr fun s₁ h₁ => ?_
      refine Option.bind_eq_none_iff.mpr fun s₂ h₂ => ?_
      refine Option.bind_eq_none_iff.mpr fun s₃ h₃ => ?_
      exact (((hx.fillWhile h₁).fillWhile h₂).cdfMiddle h₃).cdfFinish

/-! ## The answers -/

/-- One result for each input: not a number for what is not a number, and otherwise a share
that grows with the input. -/
structure CdfAnswers (inputs result : List (ExactNum ℚ)) : Prop where
  length : result.length = inputs.length
  nan : ∀ i : ℕ, inputs[i]? = some ExactNum.nan ↔ result[i]? = some ExactNum.nan
  unit : ∀ (i : ℕ) (p : ExactNum ℚ), result[i]? = some p → p ≠ .nan →
    (ExactNum.fin 0).le p = true ∧ p.le (.fin 1) = true
  mono : ∀ (i j : ℕ) (a b p q : ExactNum ℚ), inputs[i]? = some a → inputs[j]? = some b →
    result[i]? = some p → result[j]? = some q → a.le b = true → p.le q = true

/-- With enough rounds the calculation ends, always with the same result. -/
def EndsWith {γ : Type} (run : ℕ → Option γ) (result : γ) : Prop :=
  ∃ rounds, ∀ fuel, rounds ≤ fuel → run fuel = some result

theorem unitClamp_mono {p q : ℚ} (h : p ≤ q) : unitClamp p ≤ unitClamp q :=
  max_le_max le_rfl (min_le_min h le_rfl)

theorem probAt_eq_nan {total : ℚ} {weight : ℚ → ℚ} {a : ExactNum ℚ} (ha : ¬IsInfinite a) :
    probAt total weight a = .nan ↔ a = .nan := by
  cases a with
  | nan => exact ⟨fun _ => rfl, fun _ => rfl⟩
  | negInf => exact absurd (.inr rfl) ha
  | fin v => exact ⟨fun h => (by cases h), fun h => (by cases h)⟩
  | posInf => exact absurd (.inl rfl) ha

theorem cdfAnswers_map {total : ℚ} {weight : ℚ → ℚ} (htotal : 0 < total)
    (hmono : ∀ v w, v ≤ w → weight v ≤ weight w) {inputs : List (ExactNum ℚ)}
    (hinf : NoInfinity inputs) : CdfAnswers inputs (inputs.map (probAt total weight)) where
  length := List.length_map _
  nan i := by
    rw [List.getElem?_map]
    cases hi : inputs[i]? with
    | none => exact ⟨fun h => (by cases h), fun h => (by cases h)⟩
    | some a =>
      rw [Option.map_some, Option.some.injEq, Option.some.injEq,
        probAt_eq_nan (hinf a (List.mem_of_getElem? hi))]
  unit i p hp hne := by
    rw [List.getElem?_map, Option.map_eq_some_iff] at hp
    obtain ⟨a, -, rfl⟩ := hp
    cases a with
    | fin v =>
      refine ⟨decide_eq_true (le_max_left _ _), decide_eq_true ?_⟩
      exact max_le zero_le_one (min_le_right _ _)
    | nan => exact absurd rfl hne
    | negInf => exact absurd rfl hne
    | posInf => exact absurd rfl hne
  mono i j a b p q ha hb hp hq hab := by
    rw [List.getElem?_map, ha, Option.map_some, Option.some.injEq] at hp
    rw [List.getElem?_map, hb, Option.map_some, Option.some.injEq] at hq
    obtain rfl := hp
    obtain rfl := hq
    have hia := hinf a (List.mem_of_getElem? ha)
    have hib := hinf b (List.mem_of_getElem? hb)
    cases a with
    | nan => cases hab
    | negInf => exact absurd (.inr rfl) hia
    | posInf => exact absurd (.inl rfl) hia
    | fin v =>
      cases b with
      | nan => cases hab
      | negInf => exact absurd (.inr rfl) hib
      | posInf => exact absurd (.inl rfl) hib
      | fin w =>
        have hvw : v ≤ w := of_decide_eq_true hab
        exact decide_eq_true
          (unitClamp_mono (div_le_div_of_nonneg_right (hmono v w hvw) htotal.le))

theorem cdf_answers_iff {min max : ℚ} {cs : List Centroid} (h : Spread min max cs)
    (inputs : List (ExactNum ℚ)) :
    (∃ result, EndsWith (fun fuel =>
        tdigestCdfCalc .exact fuel cs min max (weightSum cs) inputs) result ∧
      CdfAnswers inputs result) ↔ NoInfinity inputs := by
  constructor
  · rintro ⟨result, ⟨rounds, hrounds⟩, -⟩
    by_contra hinf
    have hsome := hrounds rounds le_rfl
    simp only [tdigestCdfCalc_none h rfl hinf rounds] at hsome
    cases hsome
  · intro hinf
    refine ⟨inputs.map (probAt (weightSum cs) (cdfWeight min max (weightSum cs) cs)),
      ⟨inputs.length + cs.length + 1, fun fuel hfuel => ?_⟩, ?_⟩
    · exact tdigestCdfCalc_eq h rfl hinf (by omega)
    · exact cdfAnswers_map h.total_pos (fun v w hvw => cdfWeight_mono h rfl hvw) hinf

end Wedb
