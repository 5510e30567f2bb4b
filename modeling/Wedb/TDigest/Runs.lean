import Wedb.TDigest.Conserved

/-!
# Runs of digests

Every command keeps the summary of a digest in step with its sample. Only the counter of
observations is a machine word, which merges alone can make wrap around.
-/

namespace Wedb

open Sample

variable {scaler : Scaler} {tol : Tolerance} {heap : CentroidHeap}

namespace TDigestState

/-- The summary and the content of a digest, with the counter modulo its width. -/
structure Keeps (td : TDigestState) (S : Sample) : Prop where
  proper : S.Proper
  weight : weightSum td.centroids + td.unmergedBuffer.length = S.weight
  moment : momentSum td.centroids + td.unmergedBuffer.sum = S.moment
  total : td.totalWeight = S.weight
  merged : td.mergedWeight = weightSum td.centroids
  observations : td.totalObservations = UInt64.ofNat S.length
  minimum : td.min = S.least
  maximum : td.max = S.greatest
  inside : Within td.min td.max td.centroids
  buffered : Within td.min td.max (singletons td.unmergedBuffer)

theorem keeps_nil {td : TDigestState} (hc : td.centroids = []) (hb : td.unmergedBuffer = [])
    (ht : td.totalWeight = 0) (hm : td.mergedWeight = 0) (ho : td.totalObservations = 0)
    (hmin : td.min = f64Max) (hmax : td.max = -f64Max) : td.Keeps [] where
  proper := fun _ hx => absurd hx List.not_mem_nil
  weight := by simp [hc, hb, Sample.weight]
  moment := by simp [hc, hb, Sample.moment]
  total := ht
  merged := by rw [hm, hc]; rfl
  observations := ho
  minimum := hmin
  maximum := hmax
  inside := by rw [hc]; exact within_nil _ _
  buffered := by rw [hb]; exact within_nil _ _

theorem keeps_new (compression : ℚ) : (new compression).Keeps [] :=
  keeps_nil rfl rfl rfl rfl rfl rfl rfl

theorem keeps_reset (td : TDigestState) : td.reset.Keeps [] :=
  keeps_nil rfl rfl rfl rfl rfl rfl rfl

variable {td : TDigestState} {S : Sample}

theorem Keeps.compress (h : td.Keeps S) : (td.compress scaler tol).Keeps S := by
  unfold TDigestState.compress
  by_cases hnil : td.unmergedBuffer = []
  · rw [if_pos hnil]
    exact h
  · rw [if_neg hnil]
    have hperm := CentroidsWithDelta.perm_singletons
      (List.perm_insertionSort (· ≤ ·) td.unmergedBuffer)
    have habs := (@TDigestMerger.addTwo_absorbs scaler tol
      ((TDigestMerger.new (Max.max (asU32 td.compression) 10)).reset td.totalWeight, []) _ _ _ _
      (within_nil _ _) h.inside (h.buffered.perm hperm.symm)).of_perm (hperm.append_left _)
    have hweight := habs.weight
    have hmoment := habs.moment
    rw [weightSum_append, weightSum_singletons, weightSum_nil, zero_add] at hweight
    rw [momentSum_append, momentSum_singletons, momentSum_nil, zero_add] at hmoment
    exact
      { proper := h.proper
        weight := by
          simp only [List.length_nil, Nat.cast_zero, add_zero]
          exact hweight.trans h.weight
        moment := by
          simp only [List.sum_nil, add_zero]
          exact hmoment.trans h.moment
        total := h.total
        merged := h.total.trans (h.weight.symm.trans hweight.symm)
        observations := h.observations
        minimum := h.minimum
        maximum := h.maximum
        inside := habs.inside
        buffered := within_nil _ _ }

theorem Keeps.ensureMerged (h : td.Keeps S) : (td.ensureMerged scaler tol).Keeps S := by
  unfold TDigestState.ensureMerged
  split_ifs
  · exact h
  · exact h.compress

theorem Keeps.compressIfFull (h : td.Keeps S) : (td.compressIfFull scaler tol).Keeps S := by
  unfold TDigestState.compressIfFull
  split_ifs
  · exact h.compress
  · exact h

theorem unmergedBuffer_compress (td : TDigestState) :
    (td.compress scaler tol).unmergedBuffer = [] := by
  unfold TDigestState.compress
  split_ifs with h
  · exact h
  · rfl

theorem unmergedBuffer_ensureMerged (td : TDigestState) :
    (td.ensureMerged scaler tol).unmergedBuffer = [] := by
  unfold TDigestState.ensureMerged
  split_ifs with h
  · exact h
  · exact unmergedBuffer_compress td

theorem length_ofNat_succ (n : ℕ) : UInt64.ofNat n + 1 = UInt64.ofNat (n + 1) := by
  rw [UInt64.ofNat_add]
  rfl

theorem least_concat {x : ℚ × ℚ} (hx : |x.1| ≤ f64Max) :
    least (S ++ [x]) = lower (least S) x.1 := by
  rw [least_append, lower_eq]
  congr 1
  exact min_eq_left (abs_le.mp hx).2

theorem greatest_concat {x : ℚ × ℚ} (hx : |x.1| ≤ f64Max) :
    greatest (S ++ [x]) = raise (greatest S) x.1 := by
  rw [greatest_append, raise_eq]
  congr 1
  exact max_eq_left (abs_le.mp hx).1

theorem Keeps.observe {stored : TDigestState} {val weight : ℚ} (h : td.Keeps S) (hw : 0 < weight)
    (hval : |val| ≤ f64Max)
    (hsummary : stored.totalWeight = td.totalWeight ∧
      stored.totalObservations = td.totalObservations ∧ stored.min = td.min ∧ stored.max = td.max)
    (hweight : weightSum stored.centroids + stored.unmergedBuffer.length =
      weightSum td.centroids + td.unmergedBuffer.length + weight)
    (hmoment : momentSum stored.centroids + stored.unmergedBuffer.sum =
      momentSum td.centroids + td.unmergedBuffer.sum + weight * val)
    (hmerged : stored.mergedWeight = weightSum stored.centroids)
    (hinside : ∀ c ∈ stored.centroids ++ singletons stored.unmergedBuffer,
      c ∈ td.centroids ++ singletons td.unmergedBuffer ∨ c = ⟨val, weight⟩) :
    (stored.observe val weight).Keeps (S ++ [(val, weight)]) := by
  obtain ⟨htotal, hobs, hmin, hmax⟩ := hsummary
  have hx : Proper [(val, weight)] := by
    intro x hx
    obtain rfl := List.mem_singleton.mp hx
    exact ⟨hw, hval⟩
  have hin : Within (lower td.min val) (raise td.max val)
      (stored.centroids ++ singletons stored.unmergedBuffer) := by
    intro c hc
    rw [lower_eq, raise_eq]
    rcases hinside c hc with hold | rfl
    · exact ((h.inside.append h.buffered).mono (min_le_left _ _) (le_max_left _ _)) c hold
    · exact ⟨hw, min_le_right _ _, le_max_right _ _⟩
  exact
    { proper := h.proper.append hx
      weight := by
        change weightSum stored.centroids + _ = _
        rw [weight_append]
        exact hweight.trans (by rw [h.weight]; simp [Sample.weight])
      moment := by
        change momentSum stored.centroids + _ = _
        rw [moment_append]
        exact hmoment.trans (by rw [h.moment]; simp [Sample.moment])
      total := by
        change stored.totalWeight + weight = _
        rw [htotal, h.total, weight_append]
        simp [Sample.weight]
      merged := hmerged
      observations := by
        change stored.totalObservations + 1 = _
        rw [hobs, h.observations, length_ofNat_succ, List.length_append]
        rfl
      minimum := by
        change lower stored.min val = _
        rw [hmin, h.minimum, least_concat (x := (val, weight)) hval]
      maximum := by
        change raise stored.max val = _
        rw [hmax, h.maximum, greatest_concat (x := (val, weight)) hval]
      inside := by
        change Within (lower stored.min val) (raise stored.max val) stored.centroids
        rw [hmin, hmax]
        exact fun c hc => hin c (List.mem_append_left _ hc)
      buffered := by
        change Within (lower stored.min val) (raise stored.max val) _
        rw [hmin, hmax]
        exact fun c hc => hin c (List.mem_append_right _ hc) }

theorem singletons_concat (values : List ℚ) (val : ℚ) :
    singletons (values ++ [val]) = singletons values ++ [⟨val, 1⟩] := List.map_append

theorem Keeps.push {val : ℚ} (h : td.Keeps S) (hval : |val| ≤ f64Max) :
    (TDigestState.observe { td with unmergedBuffer := td.unmergedBuffer ++ [val] } val 1).Keeps
      (S ++ [(val, 1)]) := by
  refine h.observe one_pos hval ⟨rfl, rfl, rfl, rfl⟩ ?_ ?_ h.merged fun c hc => ?_
  · simp only [List.length_append, List.length_singleton]
    push_cast
    ring
  · simp only [List.sum_append, List.sum_singleton]
    ring
  · simp only [singletons_concat, ← List.append_assoc] at hc
    rcases List.mem_append.mp hc with hc | hc
    · exact .inl hc
    · exact .inr (List.mem_singleton.mp hc)

theorem Keeps.add {val weight : ℚ} (h : td.Keeps S) (hw : 0 < weight) (hval : |val| ≤ f64Max) :
    (td.add scaler tol val weight).Keeps (S ++ [(val, weight)]) := by
  unfold TDigestState.add
  rw [if_neg (not_le.mpr hw)]
  apply Keeps.compressIfFull
  by_cases hone : weight = 1
  · rw [if_pos hone, hone]
    exact h.push hval
  · rw [if_neg hone]
    have hm := @Keeps.ensureMerged scaler tol _ _ h
    have hnil : (td.ensureMerged scaler tol).unmergedBuffer = [] := unmergedBuffer_ensureMerged td
    unfold TDigestState.compress
    rw [if_pos hnil]
    refine hm.observe hw hval ⟨rfl, rfl, rfl, rfl⟩ ?_ ?_ ?_ fun c hc => ?_
    · simp only [weightSum_append, weightSum_cons, weightSum_nil]
      ring
    · simp only [momentSum_append, momentSum_cons, momentSum_nil]
      ring
    · simp only [weightSum_append, weightSum_cons, weightSum_nil, hm.merged, add_zero]
    · simp only [hnil] at hc ⊢
      simpa [singletons] using hc

theorem Keeps.addBatch {values : List ℚ} (h : td.Keeps S) (hval : ∀ v ∈ values, |v| ≤ f64Max) :
    (td.addBatch scaler tol values).Keeps (S ++ ones values) := by
  unfold TDigestState.addBatch
  induction values generalizing td S with
  | nil =>
    rw [ones, List.map_nil, List.append_nil]
    exact h
  | cons v vs ih =>
    have hv := @Keeps.compressIfFull scaler tol _ _ (h.push (hval v (by simp)))
    have hvs := ih hv fun w hw => hval w (List.mem_cons_of_mem v hw)
    rw [List.append_assoc] at hvs
    exact hvs

theorem Keeps.eq_nil (h : td.Keeps S) (he : td.isEmpty = true) : S = [] := by
  by_contra hne
  have hpos := h.proper.weight_pos hne
  rw [← h.total] at hpos
  simp only [isEmpty, Bool.and_eq_true, decide_eq_true_eq] at he
  exact absurd hpos (not_lt.mpr he.2)

theorem Keeps.carries (h : td.Keeps S) (hnil : td.unmergedBuffer = []) :
    td.withDelta.Carries S := by
  have hweight := h.weight
  have hmoment := h.moment
  rw [hnil, List.length_nil, Nat.cast_zero, add_zero] at hweight
  rw [hnil, List.sum_nil, add_zero] at hmoment
  exact ⟨h.proper, hweight, hmoment, h.merged.trans hweight, h.minimum, h.maximum, h.inside⟩

theorem keeps_of_carries {list : CentroidsWithDelta} {obs : UInt64} (h : list.Carries S)
    (hobs : obs = UInt64.ofNat S.length)
    (hc : td.centroids = list.centroids) (hb : td.unmergedBuffer = [])
    (ht : td.totalWeight = list.totalWeight) (hm : td.mergedWeight = list.totalWeight)
    (ho : td.totalObservations = obs) (hmin : td.min = list.min) (hmax : td.max = list.max) :
    td.Keeps S where
  proper := h.proper
  weight := by
    rw [hc, hb, h.weight]
    simp
  moment := by
    rw [hc, hb, h.moment]
    simp
  total := ht.trans h.total
  merged := by rw [hm, hc, h.total, h.weight]
  observations := ho.trans hobs
  minimum := hmin.trans h.least
  maximum := hmax.trans h.greatest
  inside := by
    rw [hmin, hmax, hc]
    exact h.inside
  buffered := by
    rw [hb]
    exact within_nil _ _

theorem Keeps.mergeFrom {other : TDigestState} {T : Sample} (h : td.Keeps S) (hT : other.Keeps T) :
    (td.mergeFrom scaler tol heap other).1.Keeps (S ++ T) := by
  have hother := @Keeps.ensureMerged scaler tol _ _ hT
  have hself := @Keeps.ensureMerged scaler tol _ _ h
  unfold TDigestState.mergeFrom
  by_cases he : (other.ensureMerged scaler tol).isEmpty = true
  · rw [if_pos he, hother.eq_nil he, List.append_nil]
    exact h
  · rw [if_neg he]
    have hlists := List.Forall₂.cons (hself.carries (unmergedBuffer_ensureMerged td))
      (.cons (hother.carries (unmergedBuffer_ensureMerged other)) .nil)
    have hmerge := @CentroidsWithDelta.carries_tdigestMerge scaler tol heap [] _ _ hlists
      (fun _ hv => absurd hv List.not_mem_nil)
      (Max.max (asU32 (td.ensureMerged scaler tol).compression)
        (asU32 (other.ensureMerged scaler tol).compression))
    have hsample : ones [] ++ [S, T].flatten = S ++ T := by simp [ones]
    rw [hsample] at hmerge
    refine @keeps_of_carries _ _ _ (UInt64.ofNat (S ++ T).length) hmerge rfl rfl
      (unmergedBuffer_ensureMerged td) rfl rfl ?_ rfl rfl
    change (td.ensureMerged scaler tol).totalObservations + _ = _
    rw [hself.observations, hother.observations, List.length_append, UInt64.ofNat_add]

/-- Merged digests with what they stand for. -/
def Parts : List TDigestState → List Sample → Prop :=
  List.Forall₂ fun td S => td.Keeps S ∧ td.unmergedBuffer = []

theorem parts_ensureMerged {sources : List TDigestState} {samples : List Sample}
    (h : List.Forall₂ Keeps sources samples) :
    ∃ samples',
      Parts ((sources.map (ensureMerged scaler tol)).filter fun s => !s.isEmpty) samples' ∧
      samples'.flatten = samples.flatten := by
  induction h with
  | nil => exact ⟨[], .nil, rfl⟩
  | @cons td S sources samples htd _ ih =>
    obtain ⟨samples', hparts, hflat⟩ := ih
    have hm := @Keeps.ensureMerged scaler tol _ _ htd
    rw [List.map_cons]
    by_cases he : (td.ensureMerged scaler tol).isEmpty = true
    · refine ⟨samples', ?_, ?_⟩
      · rw [List.filter_cons_of_neg (by simp [he])]
        exact hparts
      · rw [List.flatten_cons, hm.eq_nil he, hflat]
        rfl
    · refine ⟨S :: samples', ?_, ?_⟩
      · rw [List.filter_cons_of_pos (by simpa using he)]
        exact .cons ⟨hm, unmergedBuffer_ensureMerged td⟩ hparts
      · rw [List.flatten_cons, List.flatten_cons, hflat]

theorem Parts.carries {parts : List TDigestState} {samples : List Sample}
    (h : Parts parts samples) :
    List.Forall₂ CentroidsWithDelta.Carries (parts.map withDelta) samples := by
  rw [List.forall₂_map_left_iff]
  exact h.imp fun td S htd => htd.1.carries htd.2

theorem Parts.observations {parts : List TDigestState} {samples : List Sample}
    (h : Parts parts samples) (n : ℕ) :
    parts.foldl (fun n s => n + s.totalObservations) (UInt64.ofNat n) =
      UInt64.ofNat (n + samples.flatten.length) := by
  induction h generalizing n with
  | nil => rfl
  | cons htd _ ih =>
    rw [List.foldl_cons, htd.1.observations, ← UInt64.ofNat_add, ih, List.flatten_cons,
      List.length_append, add_assoc]

def mergedSample (S : Sample) (samples : List Sample) (overrideDest destExisted : Bool) : Sample :=
  (if overrideDest || !destExisted then [] else S) ++ samples.flatten

theorem Keeps.parts (h : td.Keeps S) {sources : List TDigestState} {samples : List Sample}
    (hs : List.Forall₂ Keeps sources samples) (overrideDest destExisted : Bool) :
    ∃ samples',
      Parts ((if !overrideDest && destExisted && !(td.ensureMerged scaler tol).isEmpty then
        [td.ensureMerged scaler tol] else []) ++
          (sources.map (TDigestState.ensureMerged scaler tol)).filter fun s => !s.isEmpty)
        samples' ∧
      samples'.flatten = mergedSample S samples overrideDest destExisted := by
  have hm := @Keeps.ensureMerged scaler tol _ _ h
  obtain ⟨samples', hparts, hflat⟩ := @parts_ensureMerged scaler tol _ _ hs
  unfold mergedSample
  cases hd : (overrideDest || !destExisted) with
  | true =>
    refine ⟨samples', ?_, ?_⟩
    · rw [if_neg (by revert hd; cases overrideDest <;> cases destExisted <;> simp)]
      exact hparts
    · simpa using hflat
  | false =>
    have hkeep : (!overrideDest && destExisted) = true := by
      revert hd
      cases overrideDest <;> cases destExisted <;> simp
    rw [hkeep, Bool.true_and]
    by_cases he : (td.ensureMerged scaler tol).isEmpty = true
    · refine ⟨samples', ?_, ?_⟩
      · rw [if_neg (by simp [he])]
        exact hparts
      · simpa [hm.eq_nil he] using hflat
    · refine ⟨S :: samples', ?_, ?_⟩
      · rw [if_pos (by simpa using he)]
        exact .cons ⟨hm, unmergedBuffer_ensureMerged td⟩ hparts
      · simpa using hflat

theorem Keeps.mergeWithOptions {sources : List TDigestState} {samples : List Sample}
    (h : td.Keeps S) (hs : List.Forall₂ Keeps sources samples) (overrideDest : Bool)
    (compression : Option ℕ) (destExisted : Bool) :
    (td.mergeWithOptions scaler tol heap sources overrideDest compression destExisted).1.Keeps
      (mergedSample S samples overrideDest destExisted) := by
  obtain ⟨samples', hparts, hflat⟩ := @Keeps.parts scaler tol _ _ h _ _ hs overrideDest
    destExisted
  unfold TDigestState.mergeWithOptions
  simp only []
  generalize hp : (if !overrideDest && destExisted && !(td.ensureMerged scaler tol).isEmpty then
    [td.ensureMerged scaler tol] else []) ++
      (sources.map (TDigestState.ensureMerged scaler tol)).filter (fun s => !s.isEmpty) = parts
    at hparts ⊢
  by_cases hnil : parts = []
  · rw [if_pos hnil]
    rw [hnil] at hparts
    cases hparts
    rw [← hflat]
    exact keeps_nil rfl rfl rfl rfl rfl rfl rfl
  · rw [if_neg hnil, ← hflat]
    have hmerge := @CentroidsWithDelta.carries_tdigestMerge scaler tol heap [] _ _ hparts.carries
      fun _ hv => absurd hv List.not_mem_nil
    have hobs := hparts.observations 0
    rw [Nat.zero_add] at hobs
    exact keeps_of_carries (hmerge _) hobs rfl (unmergedBuffer_ensureMerged td) rfl rfl rfl rfl rfl

/-! ## Reachable digests -/

/-- The digests that commands produce, with the samples that went into them. -/
inductive Reach (scaler : Scaler) (tol : Tolerance) (heap : CentroidHeap) :
    TDigestState → Sample → Prop
  | new (compression : ℚ) : Reach scaler tol heap (.new compression) []
  | add {td : TDigestState} {S : Sample} (val weight : ℚ) (hw : 0 < weight)
      (hval : |val| ≤ f64Max) (h : Reach scaler tol heap td S) :
      Reach scaler tol heap (td.add scaler tol val weight) (S ++ [(val, weight)])
  | addBatch {td : TDigestState} {S : Sample} (values : List ℚ)
      (hval : ∀ v ∈ values, |v| ≤ f64Max) (h : Reach scaler tol heap td S) :
      Reach scaler tol heap (td.addBatch scaler tol values) (S ++ ones values)
  | compress {td : TDigestState} {S : Sample} (h : Reach scaler tol heap td S) :
      Reach scaler tol heap (td.compress scaler tol) S
  | query {td : TDigestState} {S : Sample} (h : Reach scaler tol heap td S) :
      Reach scaler tol heap (td.ensureMerged scaler tol) S
  | mergeFrom {td other : TDigestState} {S T : Sample} (h : Reach scaler tol heap td S)
      (hT : Reach scaler tol heap other T) :
      Reach scaler tol heap (td.mergeFrom scaler tol heap other).1 (S ++ T)
  | mergeWithOptions {td : TDigestState} {S : Sample} (sources : List (TDigestState × Sample))
      (overrideDest : Bool) (compression : Option ℕ) (destExisted : Bool)
      (h : Reach scaler tol heap td S)
      (hs : ∀ x ∈ sources, Reach scaler tol heap x.1 x.2) :
      Reach scaler tol heap
        (td.mergeWithOptions scaler tol heap (sources.map Prod.fst) overrideDest compression
          destExisted).1
        (mergedSample S (sources.map Prod.snd) overrideDest destExisted)
  | reset {td : TDigestState} {S : Sample} (h : Reach scaler tol heap td S) :
      Reach scaler tol heap td.reset []

theorem Reach.keeps (h : Reach scaler tol heap td S) : td.Keeps S := by
  induction h with
  | new compression => exact keeps_new compression
  | add val weight hw hval _ ih => exact ih.add hw hval
  | addBatch values hval _ ih => exact ih.addBatch hval
  | compress _ ih => exact ih.compress
  | query _ ih => exact ih.ensureMerged
  | mergeFrom _ _ ih ihT => exact ih.mergeFrom ihT
  | mergeWithOptions sources overrideDest compression destExisted _ _ ih ihs =>
    refine ih.mergeWithOptions ?_ overrideDest compression destExisted
    rw [List.forall₂_map_left_iff, List.forall₂_map_right_iff, List.forall₂_same]
    exact ihs
  | reset _ ih => exact keeps_reset _

/-- The summary tells the truth about the sample. -/
structure Conserves (td : TDigestState) (S : Sample) : Prop where
  total : td.totalWeight = weightSum td.centroids + td.unmergedBuffer.length
  merged : td.mergedWeight = weightSum td.centroids
  moment : momentSum td.centroids + td.unmergedBuffer.sum = S.moment
  observations : td.totalObservations.toNat = S.length
  minimum : S ≠ [] → IsLeast {v | v ∈ S.map Prod.fst} td.min
  maximum : S ≠ [] → IsGreatest {v | v ∈ S.map Prod.fst} td.max
  inside : ∀ c ∈ td.centroids, td.min ≤ c.mean ∧ c.mean ≤ td.max

theorem Keeps.conserves_iff (h : td.Keeps S) : td.Conserves S ↔ S.length < 2 ^ 64 := by
  have hobs : td.totalObservations.toNat = S.length % 2 ^ 64 := by
    rw [h.observations]
    exact UInt64.toNat_ofNat
  refine ⟨fun hc => ?_, fun hlen => ?_⟩
  · have hlt := td.totalObservations.toNat_lt
    rw [hc.observations] at hlt
    exact hlt
  · refine ⟨?_, h.merged, h.moment, ?_, fun hne => ⟨?_, ?_⟩, fun hne => ⟨?_, ?_⟩, fun c hc => ?_⟩
    · exact h.total.trans h.weight.symm
    · rw [hobs, Nat.mod_eq_of_lt hlen]
    · obtain ⟨x, hx, heq⟩ := exists_least h.proper hne
      exact List.mem_map.mpr ⟨x, hx, heq.trans h.minimum.symm⟩
    · intro v hv
      obtain ⟨x, hx, rfl⟩ := List.mem_map.mp hv
      exact h.minimum.le.trans (least_le hx)
    · obtain ⟨x, hx, heq⟩ := exists_greatest h.proper hne
      exact List.mem_map.mpr ⟨x, hx, heq.trans h.maximum.symm⟩
    · intro v hv
      obtain ⟨x, hx, rfl⟩ := List.mem_map.mp hv
      exact (le_greatest hx).trans h.maximum.ge
    · exact (h.inside c hc).2

/-- A digest conserves its sample as long as the sample can be counted. -/
theorem reach_conserves_iff (h : Reach scaler tol heap td S) :
    td.Conserves S ↔ S.length < 2 ^ 64 := h.keeps.conserves_iff

theorem le_f64Max {v : ℚ} (h : |v| ≤ 2 ^ 53 - 1) : |v| ≤ f64Max := by
  have hone : (1 : ℚ) ≤ 2 ^ 971 := one_le_pow₀ (by norm_num)
  have hnonneg : (0 : ℚ) ≤ 2 ^ 53 - 1 := by norm_num
  exact h.trans (le_mul_of_one_le_right hnonneg hone)

def listHeap : CentroidHeap := .ofSelectMax _

theorem reach_conserves_iff_five :
    ((new 100).add linearScaler .ofSource 5 1).Conserves [(5, 1)] :=
  (@reach_conserves_iff _ _ listHeap _ _ (.add 5 1 one_pos (le_f64Max (by norm_num))
    (.new 100))).mpr (by decide)

theorem reach_doubled (k : ℕ) :
    ∃ td S, Reach linearScaler .ofSource listHeap td S ∧ S.length = 2 ^ k := by
  induction k with
  | zero =>
    exact ⟨_, _, .add 5 1 one_pos (le_f64Max (by norm_num)) (.new 100), rfl⟩
  | succ k ih =>
    obtain ⟨td, S, h, hlen⟩ := ih
    refine ⟨_, _, .mergeWithOptions [(td, S)] false none true h fun x hx => ?_, ?_⟩
    · obtain rfl := List.mem_singleton.mp hx
      exact h
    · simp [mergedSample, hlen, pow_succ]
      omega

/-- Merging a digest into itself 64 times brings its counter back to zero. -/
theorem not_reach_conserves :
    ¬∀ scaler tol heap td S, Reach scaler tol heap td S → td.Conserves S := by
  intro hall
  obtain ⟨td, S, h, hlen⟩ := reach_doubled 64
  have hlt := h.keeps.conserves_iff.mp (hall _ _ _ td S h)
  omega

end TDigestState

end Wedb
