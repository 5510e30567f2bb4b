import Wedb.Ordered.ExactNum
import Mathlib.Data.Rat.Floor
import Mathlib.Tactic

/-!
# Centroids

A centroid stands for `weight` values around `mean`. A merger appends centroids to its
output or lets the last one absorb them, as the scale function allows. Values are rationals,
and the scale function is left open.
-/

namespace Wedb

/-- The tolerances below which two doubles count as equal. -/
structure Tolerance where
  relEps : ℚ
  absEps : ℚ

def Tolerance.ofSource : Tolerance := ⟨1 / 10 ^ 12, 1 / 10 ^ 9⟩

def Tolerance.exact : Tolerance := ⟨0, 0⟩

def totalCmpNan (a b : ExactNum ℚ) : Ordering :=
  if a.isNan then (if b.isNan then .eq else .gt) else .lt

def doubleCompare (tol : Tolerance) (a b : ExactNum ℚ) : Ordering :=
  if a.isNan || b.isNan then totalCmpNan a b
  else
    let diff := a.sub b
    let adiff := diff.abs
    if adiff.le (.fin tol.absEps) then .eq
    else
      let maxab := if a.abs.lt b.abs then b.abs else a.abs
      if adiff.le (maxab.mul (.fin tol.relEps)) then .eq
      else if diff.lt (.fin 0) then .lt
      else .gt

def doubleEqual (tol : Tolerance) (a b : ExactNum ℚ) : Bool := doubleCompare tol a b == .eq

def lerp (a b t : ExactNum ℚ) : ExactNum ℚ := a.add (t.mul (b.sub a))

structure Centroid where
  mean : ℚ
  weight : ℚ
  deriving DecidableEq

def Centroid.merge (c other : Centroid) : Centroid :=
  let weight := c.weight + other.weight
  ⟨c.mean + (other.mean - c.mean) * other.weight / weight, weight⟩

def Centroid.below (tol : Tolerance) (a b : Centroid) : Bool :=
  doubleCompare tol (.fin a.mean) (.fin b.mean) == .lt

/-- The scale function and its inverse, for every compression. -/
structure Scaler where
  k : ℕ → ℚ → ℚ
  q : ℕ → ℚ → ℚ

def linearScaler : Scaler := ⟨fun _ q => q, fun _ k => k⟩

structure TDigestMerger where
  delta : ℕ
  totalWeight : ℚ
  weightSoFar : ℚ
  weightLimit : ℚ

namespace TDigestMerger

def new (delta : ℕ) : TDigestMerger := ⟨delta, 0, 0, -1⟩

def reset (m : TDigestMerger) (totalWeight : ℚ) : TDigestMerger :=
  { m with totalWeight := totalWeight, weightSoFar := 0, weightLimit := -1 }

def nextLimit (scaler : Scaler) (m : TDigestMerger) : ℚ :=
  let quantile := if 0 < m.totalWeight then m.weightSoFar / m.totalWeight else 0
  let nextK := scaler.k m.delta quantile + 1
  let nextWeightLimit := m.totalWeight * scaler.q m.delta nextK
  if nextWeightLimit ≤ m.weightLimit then m.totalWeight else nextWeightLimit

def add (scaler : Scaler) (m : TDigestMerger × List Centroid) (centroid : Centroid) :
    TDigestMerger × List Centroid :=
  let weight := m.1.weightSoFar + centroid.weight
  if weight ≤ m.1.weightLimit then
    match m.2.getLast? with
    | some last => ({ m.1 with weightSoFar := weight }, m.2.dropLast ++ [last.merge centroid])
    | none => ({ m.1 with weightSoFar := weight }, m.2 ++ [centroid])
  else
    ({ m.1 with weightLimit := nextLimit scaler m.1, weightSoFar := weight }, m.2 ++ [centroid])

def addTwo (scaler : Scaler) (tol : Tolerance) :
    List Centroid → List Centroid → TDigestMerger × List Centroid → TDigestMerger × List Centroid
  | c :: cs, d :: ds, m =>
    if c.below tol d then addTwo scaler tol cs (d :: ds) (add scaler m c)
    else addTwo scaler tol (c :: cs) ds (add scaler m d)
  | cs, [], m => cs.foldl (add scaler) m
  | [], ds, m => ds.foldl (add scaler) m
termination_by cs ds => cs.length + ds.length

end TDigestMerger

/-! ## What a merge keeps -/

def weightSum (cs : List Centroid) : ℚ := (cs.map Centroid.weight).sum

def momentSum (cs : List Centroid) : ℚ := (cs.map fun c => c.weight * c.mean).sum

/-- Centroids of some weight whose means lie between two bounds. -/
def Within (lo hi : ℚ) (cs : List Centroid) : Prop :=
  ∀ c ∈ cs, 0 < c.weight ∧ lo ≤ c.mean ∧ c.mean ≤ hi

theorem weightSum_append (cs ds : List Centroid) :
    weightSum (cs ++ ds) = weightSum cs + weightSum ds := by
  simp [weightSum]

theorem momentSum_append (cs ds : List Centroid) :
    momentSum (cs ++ ds) = momentSum cs + momentSum ds := by
  simp [momentSum]

@[simp] theorem weightSum_cons (c : Centroid) (cs : List Centroid) :
    weightSum (c :: cs) = c.weight + weightSum cs := by
  simp [weightSum]

@[simp] theorem momentSum_cons (c : Centroid) (cs : List Centroid) :
    momentSum (c :: cs) = c.weight * c.mean + momentSum cs := by
  simp [momentSum]

@[simp] theorem weightSum_nil : weightSum [] = 0 := rfl

@[simp] theorem momentSum_nil : momentSum [] = 0 := rfl

theorem Within.append {lo hi : ℚ} {cs ds : List Centroid} (hc : Within lo hi cs)
    (hd : Within lo hi ds) : Within lo hi (cs ++ ds) := by
  intro c hmem
  rcases List.mem_append.mp hmem with h | h
  · exact hc c h
  · exact hd c h

theorem Within.mono {lo hi lo' hi' : ℚ} {cs : List Centroid} (h : Within lo hi cs) (hlo : lo' ≤ lo)
    (hhi : hi ≤ hi') : Within lo' hi' cs := by
  intro c hc
  obtain ⟨hw, hl, hh⟩ := h c hc
  exact ⟨hw, hlo.trans hl, hh.trans hhi⟩

namespace Centroid

theorem merge_weight (c d : Centroid) : (c.merge d).weight = c.weight + d.weight := rfl

theorem merge_moment {c d : Centroid} (h : c.weight + d.weight ≠ 0) :
    (c.merge d).weight * (c.merge d).mean = c.weight * c.mean + d.weight * d.mean := by
  change (c.weight + d.weight) *
    (c.mean + (d.mean - c.mean) * d.weight / (c.weight + d.weight)) = _
  field_simp
  ring

theorem merge_mean_le {c d : Centroid} {hi : ℚ} (hc : 0 < c.weight) (hd : 0 < d.weight)
    (hcm : c.mean ≤ hi) (hdm : d.mean ≤ hi) : (c.merge d).mean ≤ hi := by
  have hw : 0 < c.weight + d.weight := add_pos hc hd
  have hmoment := merge_moment (c := c) (d := d) hw.ne'
  rw [merge_weight] at hmoment
  nlinarith [mul_le_mul_of_nonneg_left hcm hc.le, mul_le_mul_of_nonneg_left hdm hd.le]

theorem le_merge_mean {c d : Centroid} {lo : ℚ} (hc : 0 < c.weight) (hd : 0 < d.weight)
    (hcm : lo ≤ c.mean) (hdm : lo ≤ d.mean) : lo ≤ (c.merge d).mean := by
  have hw : 0 < c.weight + d.weight := add_pos hc hd
  have hmoment := merge_moment (c := c) (d := d) hw.ne'
  rw [merge_weight] at hmoment
  nlinarith [mul_le_mul_of_nonneg_left hcm hc.le, mul_le_mul_of_nonneg_left hdm hd.le]

end Centroid

/-- The output of a merger that was fed some centroids besides what it held. -/
structure Absorbs (lo hi : ℚ) (out fed result : List Centroid) : Prop where
  weight : weightSum result = weightSum out + weightSum fed
  moment : momentSum result = momentSum out + momentSum fed
  inside : Within lo hi result

namespace Absorbs

variable {lo hi : ℚ}

theorem concat {out : List Centroid} {c : Centroid} (hout : Within lo hi out)
    (hc : Within lo hi [c]) : Absorbs lo hi out [c] (out ++ [c]) :=
  ⟨weightSum_append out [c], momentSum_append out [c], hout.append hc⟩

theorem merge {out : List Centroid} {last c : Centroid} (hout : Within lo hi (out ++ [last]))
    (hc : Within lo hi [c]) : Absorbs lo hi (out ++ [last]) [c] (out ++ [last.merge c]) := by
  obtain ⟨hlw, hll, hlh⟩ := hout last (by simp)
  obtain ⟨hcw, hcl, hch⟩ := hc c (by simp)
  refine ⟨?_, ?_, ?_⟩
  · simp only [weightSum_append, weightSum_cons, weightSum_nil, Centroid.merge_weight]
    ring
  · simp only [momentSum_append, momentSum_cons, momentSum_nil,
      Centroid.merge_moment (add_pos hlw hcw).ne']
    ring
  · refine Within.append (fun d hd => hout d (List.mem_append_left _ hd)) fun d hd => ?_
    obtain rfl := List.mem_singleton.mp hd
    exact ⟨add_pos hlw hcw, Centroid.le_merge_mean hlw hcw hll hcl,
      Centroid.merge_mean_le hlw hcw hlh hch⟩

theorem trans {out fed mid fed' result : List Centroid} (h : Absorbs lo hi out fed mid)
    (h' : Absorbs lo hi mid fed' result) : Absorbs lo hi out (fed ++ fed') result := by
  refine ⟨?_, ?_, h'.inside⟩
  · rw [h'.weight, h.weight, weightSum_append, add_assoc]
  · rw [h'.moment, h.moment, momentSum_append, add_assoc]

theorem nil {out : List Centroid} (h : Within lo hi out) : Absorbs lo hi out [] out :=
  ⟨(add_zero _).symm, (add_zero _).symm, h⟩

theorem of_perm {out fed fed' result : List Centroid} (h : Absorbs lo hi out fed result)
    (hperm : fed.Perm fed') : Absorbs lo hi out fed' result := by
  refine ⟨?_, ?_, h.inside⟩
  · rw [h.weight, weightSum, weightSum, (hperm.map _).sum_eq]
    rfl
  · rw [h.moment, momentSum, momentSum, (hperm.map _).sum_eq]
    rfl

end Absorbs

namespace TDigestMerger

variable {scaler : Scaler} {tol : Tolerance} {m : TDigestMerger × List Centroid} {lo hi : ℚ}

theorem add_absorbs {c : Centroid} (hm : Within lo hi m.2) (hc : Within lo hi [c]) :
    Absorbs lo hi m.2 [c] (add scaler m c).2 := by
  unfold add
  by_cases hfits : m.1.weightSoFar + c.weight ≤ m.1.weightLimit
  · simp only [if_pos hfits]
    cases hlast : m.2.getLast? with
    | none => exact Absorbs.concat hm hc
    | some last =>
      have hsplit : m.2.dropLast ++ [last] = m.2 := List.dropLast_append_getLast? last hlast
      rw [← hsplit] at hm
      have h := Absorbs.merge hm hc
      rw [hsplit] at h
      exact h
  · simp only [if_neg hfits]
    exact Absorbs.concat hm hc

theorem foldl_add_absorbs {cs : List Centroid} (hm : Within lo hi m.2) (hcs : Within lo hi cs) :
    Absorbs lo hi m.2 cs (cs.foldl (add scaler) m).2 := by
  induction cs generalizing m with
  | nil => exact Absorbs.nil hm
  | cons c cs ih =>
    have hc := @add_absorbs scaler _ _ _ c hm fun d hd =>
      hcs d (List.mem_cons.mpr (.inl (List.mem_singleton.mp hd)))
    exact hc.trans (ih hc.inside fun d hd => hcs d (List.mem_cons_of_mem c hd))

theorem addTwo_absorbs {cs ds : List Centroid} (hm : Within lo hi m.2) (hcs : Within lo hi cs)
    (hds : Within lo hi ds) : Absorbs lo hi m.2 (cs ++ ds) (addTwo scaler tol cs ds m).2 := by
  induction cs, ds, m using addTwo.induct scaler tol with
  | case1 c cs d ds m hlt ih =>
    rw [addTwo, if_pos hlt]
    have hc := @add_absorbs scaler _ _ _ c hm fun e he =>
      hcs e (List.mem_cons.mpr (.inl (List.mem_singleton.mp he)))
    exact hc.trans (ih hc.inside (fun e he => hcs e (List.mem_cons_of_mem c he)) hds)
  | case2 c cs d ds m hlt ih =>
    rw [addTwo, if_neg hlt]
    have hd := @add_absorbs scaler _ _ _ d hm fun e he =>
      hds e (List.mem_cons.mpr (.inl (List.mem_singleton.mp he)))
    have h := hd.trans (ih hd.inside hcs fun e he => hds e (List.mem_cons_of_mem d he))
    exact h.of_perm (@List.perm_middle _ d (c :: cs) ds).symm
  | case3 cs m =>
    rw [addTwo, List.append_nil]
    exact foldl_add_absorbs hm hcs
  | case4 ds m hds' =>
    rw [addTwo]
    · exact foldl_add_absorbs hm hds
    · exact hds'

end TDigestMerger

end Wedb
