import Wedb.TDigest.State

/-!
# What digests keep

A digest summarises the sample that went into it: the values with their weights since the
last reset, together with the samples of the digests that were merged into it.
-/

namespace Wedb

variable {scaler : Scaler} {tol : Tolerance} {heap : CentroidHeap} {lo hi : ℚ}

/-! ## Merging streams -/

/-- A stream that is not exhausted has an item in the heap. -/
def Streams.Announced (s : Streams) : Prop :=
  ∀ i c rest, s.lists[i]? = some (c :: rest) → ∃ it ∈ s.items, it.listIdx = i

theorem Streams.announced_pull {s : Streams} {items : List CentroidHeapItem}
    {it : CentroidHeapItem} (h : s.Announced) (hpop : heap.pop s.items = some (it, items)) :
    (s.pull scaler heap items it.listIdx).Announced := by
  have hkeep : ∀ i c rest, s.lists[i]? = some (c :: rest) → i ≠ it.listIdx →
      ∃ it' ∈ items, it'.listIdx = i := by
    intro i c rest hi hne
    obtain ⟨it', hmem, hidx⟩ := h i c rest hi
    rcases (heap.mem_of_pop hpop).mp hmem with rfl | hmem
    · exact absurd hidx.symm hne
    · exact ⟨it', hmem, hidx⟩
  intro i c rest hi
  unfold pull at hi ⊢
  cases hlist : s.lists[it.listIdx]? with
  | none =>
    simp only [hlist] at hi ⊢
    exact hkeep i c rest hi (fun he => by rw [he, hlist] at hi; cases hi)
  | some list =>
    cases list with
    | nil =>
      simp only [hlist] at hi ⊢
      exact hkeep i c rest hi (fun he => by rw [he, hlist] at hi; cases hi)
    | cons d ds =>
      simp only [hlist] at hi ⊢
      by_cases he : it.listIdx = i
      · subst he
        have hlt := (List.getElem?_eq_some_iff.mp hlist).1
        rw [List.getElem?_set_self hlt] at hi
        obtain rfl := Option.some.inj hi
        exact ⟨_, heap.mem_push.mpr (.inl rfl), rfl⟩
      · rw [List.getElem?_set_ne he] at hi
        obtain ⟨it', hmem, hidx⟩ := hkeep i c rest hi fun h' => he h'.symm
        refine ⟨it', ?_, hidx⟩
        cases ds with
        | nil => exact hmem
        | cons e es => exact heap.mem_push.mpr (.inr hmem)

theorem Streams.flatten_of_none {s : Streams} (h : s.Announced) (hpop : heap.pop s.items = none) :
    s.lists.flatten = [] := by
  have hitems : s.items = [] := by
    by_contra hne
    obtain ⟨it, items, hsome⟩ := heap.exists_pop hne
    rw [hpop] at hsome
    cases hsome
  rw [List.flatten_eq_nil_iff]
  intro list hmem
  obtain ⟨i, hi⟩ := List.mem_iff_getElem?.mp hmem
  cases list with
  | nil => rfl
  | cons c rest =>
    obtain ⟨it, hit, -⟩ := h i c rest hi
    rw [hitems] at hit
    cases hit

theorem within_nil (lo hi : ℚ) : Within lo hi [] := fun _ hc => absurd hc List.not_mem_nil

theorem Within.perm {cs ds : List Centroid} (h : Within lo hi cs) (hperm : cs.Perm ds) :
    Within lo hi ds := fun c hc => h c (hperm.mem_iff.mpr hc)

theorem Streams.pull_absorbs {s : Streams} (items : List CentroidHeapItem) (listIdx : ℕ)
    (hm : Within lo hi s.merger.2) (hlists : Within lo hi s.lists.flatten) :
    ∃ fed, s.lists.flatten.Perm (fed ++ (s.pull scaler heap items listIdx).lists.flatten) ∧
      Absorbs lo hi s.merger.2 fed (s.pull scaler heap items listIdx).merger.2 := by
  unfold pull
  cases hlist : s.lists[listIdx]? with
  | none => exact ⟨[], .refl _, .nil hm⟩
  | some list =>
    cases list with
    | nil => exact ⟨[], .refl _, .nil hm⟩
    | cons c rest =>
      have hperm := flatten_set_perm hlist
      refine ⟨[c], hperm, TDigestMerger.add_absorbs hm fun d hd => ?_⟩
      obtain rfl := List.mem_singleton.mp hd
      exact hlists d (hperm.mem_iff.mpr (by simp))

theorem addHeap_of_none {s : Streams} (buffer : List ℚ) (hpop : heap.pop s.items = none) :
    addHeap scaler tol heap s buffer =
      (singletons buffer).foldl (TDigestMerger.add scaler) s.merger := by
  induction buffer generalizing s with
  | nil =>
    rw [addHeap]
    split
    · rfl
    · simp_all
  | cons v vs ih =>
    rw [addHeap]
    split
    · exact ih (s := { s with merger := TDigestMerger.add scaler s.merger ⟨v, 1⟩ }) hpop
    · simp_all

theorem addHeap_nil {s : Streams} {item : CentroidHeapItem} {items : List CentroidHeapItem}
    (hpop : heap.pop s.items = some (item, items)) :
    addHeap scaler tol heap s [] =
      addHeap scaler tol heap (s.pull scaler heap items item.listIdx) [] := by
  rw [addHeap]
  split
  · simp_all
  · rename_i item' items' hpop'
    rw [hpop] at hpop'
    cases hpop'
    rfl

theorem addHeap_cons {s : Streams} {item : CentroidHeapItem} {items : List CentroidHeapItem}
    (hpop : heap.pop s.items = some (item, items)) (v : ℚ) (vs : List ℚ) :
    addHeap scaler tol heap s (v :: vs) =
      if doubleCompare tol (.fin item.mean) (.fin v) = .lt then
        addHeap scaler tol heap (s.pull scaler heap items item.listIdx) (v :: vs)
      else
        addHeap scaler tol heap
          { s with merger := TDigestMerger.add scaler s.merger ⟨v, 1⟩ } vs := by
  rw [addHeap]
  split
  · simp_all
  · rename_i item' items' hpop'
    rw [hpop] at hpop'
    cases hpop'
    rfl

theorem Absorbs.of_add {m : TDigestMerger × List Centroid} {c : Centroid}
    {xs ys result : List Centroid}
    (hm : Within lo hi m.2) (hc : Within lo hi [c])
    (h : Within lo hi (TDigestMerger.add scaler m c).2 →
      Absorbs lo hi (TDigestMerger.add scaler m c).2 (xs ++ ys) result) :
    Absorbs lo hi m.2 (xs ++ c :: ys) result := by
  have hadd := @TDigestMerger.add_absorbs scaler _ _ _ _ hm hc
  exact (hadd.trans (h hadd.inside)).of_perm (@List.perm_middle _ c xs ys).symm

theorem Absorbs.of_pull {s : Streams} {items : List CentroidHeapItem} {listIdx : ℕ}
    {rest result : List Centroid} (hm : Within lo hi s.merger.2)
    (hlists : Within lo hi s.lists.flatten)
    (h : Within lo hi (s.pull scaler heap items listIdx).merger.2 →
      Within lo hi (s.pull scaler heap items listIdx).lists.flatten →
      Absorbs lo hi (s.pull scaler heap items listIdx).merger.2
        ((s.pull scaler heap items listIdx).lists.flatten ++ rest) result) :
    Absorbs lo hi s.merger.2 (s.lists.flatten ++ rest) result := by
  obtain ⟨fed, hperm, hfed⟩ := @Streams.pull_absorbs scaler heap _ _ _ items
    listIdx hm hlists
  have hrest := h hfed.inside fun c hc => (hlists.perm hperm) c (List.mem_append_right _ hc)
  refine (hfed.trans hrest).of_perm ?_
  rw [← List.append_assoc]
  exact hperm.symm.append_right _

theorem addHeap_absorbs {s : Streams} {buffer : List ℚ} (hs : s.Announced)
    (hm : Within lo hi s.merger.2) (hlists : Within lo hi s.lists.flatten)
    (hbuf : Within lo hi (singletons buffer)) :
    Absorbs lo hi s.merger.2 (s.lists.flatten ++ singletons buffer)
      (addHeap scaler tol heap s buffer).2 := by
  induction s, buffer using addHeap.induct scaler tol heap with
  | case1 s hpop =>
    rw [addHeap_of_none _ hpop, Streams.flatten_of_none hs hpop]
    exact .nil hm
  | case2 s hpop v vs ih =>
    rw [addHeap_of_none _ hpop, Streams.flatten_of_none hs hpop]
    exact TDigestMerger.foldl_add_absorbs hm hbuf
  | case3 s item items hpop ih =>
    rw [addHeap_nil hpop]
    exact .of_pull hm hlists fun hm' hl' => ih (Streams.announced_pull hs hpop) hm' hl' hbuf
  | case4 s item items hpop v vs hlt ih =>
    rw [addHeap_cons hpop, if_pos hlt]
    exact .of_pull hm hlists fun hm' hl' => ih (Streams.announced_pull hs hpop) hm' hl' hbuf
  | case5 s item items hpop v vs hlt ih =>
    rw [addHeap_cons hpop, if_neg hlt]
    refine .of_add hm (fun d hd => ?_) fun hm' => ih hs hm' hlists fun d hd => ?_
    · exact hbuf d (List.mem_cons.mpr (.inl (List.mem_singleton.mp hd)))
    · exact hbuf d (List.mem_cons_of_mem _ hd)

theorem mem_pushFirsts {items : List CentroidHeapItem} {i : ℕ} {lists : List (List Centroid)} :
    (∀ it ∈ items, it ∈ pushFirsts heap items i lists) ∧
      ∀ j c rest, lists[j]? = some (c :: rest) →
        ∃ it ∈ pushFirsts heap items i lists, it.listIdx = i + j := by
  induction lists generalizing items i with
  | nil => exact ⟨fun _ h => h, fun _ _ _ h => by cases h⟩
  | cons list lists ih =>
    cases list with
    | nil =>
      obtain ⟨hkeep, hnew⟩ := @ih items (i + 1)
      refine ⟨hkeep, fun j c rest hj => ?_⟩
      cases j with
      | zero => cases hj
      | succ j =>
        obtain ⟨it, hit, hidx⟩ := hnew j c rest hj
        exact ⟨it, hit, by omega⟩
    | cons d ds =>
      obtain ⟨hkeep, hnew⟩ := @ih (heap.push items ⟨d.mean, i⟩) (i + 1)
      refine ⟨fun it hit => hkeep it (heap.mem_push.mpr (.inr hit)), fun j c rest hj => ?_⟩
      cases j with
      | zero => exact ⟨_, hkeep _ (heap.mem_push.mpr (.inl rfl)), rfl⟩
      | succ j =>
        obtain ⟨it, hit, hidx⟩ := hnew j c rest hj
        exact ⟨it, hit, by omega⟩

theorem announced_pushFirsts (lists : List (List Centroid)) (m : TDigestMerger × List Centroid) :
    Streams.Announced ⟨pushFirsts heap [] 0 lists, lists, m⟩ := by
  intro i c rest hi
  obtain ⟨it, hit, hidx⟩ := mem_pushFirsts.2 i c rest hi
  exact ⟨it, hit, by omega⟩

/-! ## Samples -/

/-- Values with the weights they were given. -/
abbrev Sample := List (ℚ × ℚ)

namespace Sample

def weight (S : Sample) : ℚ := (S.map Prod.snd).sum

def moment (S : Sample) : ℚ := (S.map fun x => x.2 * x.1).sum

def least (S : Sample) : ℚ := S.foldr (fun x m => min x.1 m) f64Max

def greatest (S : Sample) : ℚ := S.foldr (fun x m => max x.1 m) (-f64Max)

/-- Positive weights and finite values. -/
def Proper (S : Sample) : Prop := ∀ x ∈ S, 0 < x.2 ∧ |x.1| ≤ f64Max

def ones (values : List ℚ) : Sample := values.map fun v => (v, 1)

variable {S T : Sample}

theorem weight_append (S T : Sample) : weight (S ++ T) = weight S + weight T := by
  simp [weight]

theorem moment_append (S T : Sample) : moment (S ++ T) = moment S + moment T := by
  simp [moment]

theorem Proper.append (hS : Proper S) (hT : Proper T) : Proper (S ++ T) := by
  intro x hx
  rcases List.mem_append.mp hx with h | h
  · exact hS x h
  · exact hT x h

theorem Proper.tail {x : ℚ × ℚ} (h : Proper (x :: S)) : Proper S :=
  fun y hy => h y (List.mem_cons_of_mem x hy)

theorem least_le_f64Max (S : Sample) : least S ≤ f64Max := by
  induction S with
  | nil => exact le_rfl
  | cons x S ih => exact (min_le_right _ _).trans ih

theorem le_greatest_f64Max (S : Sample) : -f64Max ≤ greatest S := by
  induction S with
  | nil => exact le_rfl
  | cons x S ih => exact ih.trans (le_max_right _ _)

theorem least_append (S T : Sample) : least (S ++ T) = min (least S) (least T) := by
  induction S with
  | nil => exact (min_eq_right (least_le_f64Max T)).symm
  | cons x S ih =>
    change min x.1 (least (S ++ T)) = min (min x.1 (least S)) (least T)
    rw [ih, min_assoc]

theorem greatest_append (S T : Sample) : greatest (S ++ T) = max (greatest S) (greatest T) := by
  induction S with
  | nil => exact (max_eq_right (le_greatest_f64Max T)).symm
  | cons x S ih =>
    change max x.1 (greatest (S ++ T)) = max (max x.1 (greatest S)) (greatest T)
    rw [ih, max_assoc]

theorem least_le {x : ℚ × ℚ} (hx : x ∈ S) : least S ≤ x.1 := by
  induction S with
  | nil => cases hx
  | cons y S ih =>
    rcases List.mem_cons.mp hx with rfl | hx
    · exact min_le_left _ _
    · exact (min_le_right _ _).trans (ih hx)

theorem le_greatest {x : ℚ × ℚ} (hx : x ∈ S) : x.1 ≤ greatest S := by
  induction S with
  | nil => cases hx
  | cons y S ih =>
    rcases List.mem_cons.mp hx with rfl | hx
    · exact le_max_left _ _
    · exact (ih hx).trans (le_max_right _ _)

theorem exists_least (hS : Proper S) (hne : S ≠ []) : ∃ x ∈ S, x.1 = least S := by
  induction S with
  | nil => exact absurd rfl hne
  | cons x S ih =>
    rcases S.eq_nil_or_concat with rfl | hcons
    · exact ⟨x, by simp, (min_eq_left (abs_le.mp (hS x (by simp)).2).2).symm⟩
    · obtain ⟨y, hy, heq⟩ := ih hS.tail (by rintro rfl; simp at hcons)
      rcases min_choice x.1 (least S) with h | h
      · exact ⟨x, by simp, h.symm⟩
      · exact ⟨y, List.mem_cons_of_mem x hy, heq.trans h.symm⟩

theorem exists_greatest (hS : Proper S) (hne : S ≠ []) : ∃ x ∈ S, x.1 = greatest S := by
  induction S with
  | nil => exact absurd rfl hne
  | cons x S ih =>
    rcases S.eq_nil_or_concat with rfl | hcons
    · exact ⟨x, by simp, (max_eq_left (abs_le.mp (hS x (by simp)).2).1).symm⟩
    · obtain ⟨y, hy, heq⟩ := ih hS.tail (by rintro rfl; simp at hcons)
      rcases max_choice x.1 (greatest S) with h | h
      · exact ⟨x, by simp, h.symm⟩
      · exact ⟨y, List.mem_cons_of_mem x hy, heq.trans h.symm⟩

theorem Proper.weight_nonneg (hS : Proper S) : 0 ≤ weight S := by
  refine List.sum_nonneg fun w hw => ?_
  obtain ⟨x, hx, rfl⟩ := List.mem_map.mp hw
  exact (hS x hx).1.le

theorem Proper.weight_pos (hS : Proper S) (hne : S ≠ []) : 0 < weight S := by
  cases S with
  | nil => exact absurd rfl hne
  | cons x S =>
    have hx := (hS x (by simp)).1
    have hrest := hS.tail.weight_nonneg
    change 0 < weight ([x] ++ S)
    rw [weight_append]
    have hone : weight [x] = x.2 := by simp [weight]
    linarith

theorem proper_ones {values : List ℚ} (h : ∀ v ∈ values, |v| ≤ f64Max) : Proper (ones values) := by
  intro x hx
  obtain ⟨v, hv, rfl⟩ := List.mem_map.mp hx
  exact ⟨one_pos, h v hv⟩

end Sample

theorem lower_eq (m v : ℚ) : lower m v = min m v := by
  unfold lower
  split_ifs with h
  · exact (min_eq_right h.le).symm
  · exact (min_eq_left (not_lt.mp h)).symm

theorem raise_eq (m v : ℚ) : raise m v = max m v := by
  unfold raise
  split_ifs with h
  · exact (max_eq_right h.le).symm
  · exact (max_eq_left (not_lt.mp h)).symm

theorem weightSum_singletons (values : List ℚ) : weightSum (singletons values) = values.length := by
  induction values with
  | nil => simp [singletons]
  | cons v values ih =>
    change weightSum (⟨v, 1⟩ :: singletons values) = _
    rw [weightSum_cons, ih, List.length_cons]
    push_cast
    ring

theorem momentSum_singletons (values : List ℚ) : momentSum (singletons values) = values.sum := by
  induction values with
  | nil => simp [singletons]
  | cons v values ih =>
    change momentSum (⟨v, 1⟩ :: singletons values) = _
    rw [momentSum_cons, ih, List.sum_cons, one_mul]

/-! ## Merging digests -/

/-- Centroids with a summary, and the sample that they stand for. -/
structure CentroidsWithDelta.Carries (list : CentroidsWithDelta) (S : Sample) : Prop where
  proper : S.Proper
  weight : weightSum list.centroids = S.weight
  moment : momentSum list.centroids = S.moment
  total : list.totalWeight = S.weight
  least : list.min = S.least
  greatest : list.max = S.greatest
  inside : Within list.min list.max list.centroids

namespace CentroidsWithDelta

theorem Carries.eq_nil {list : CentroidsWithDelta} {S : Sample} (h : list.Carries S)
    (hnil : list.centroids = []) : S = [] := by
  by_contra hne
  have hpos := h.proper.weight_pos hne
  rw [← h.weight, hnil] at hpos
  exact lt_irrefl _ hpos

/-- The lists that have centroids, taken together. -/
structure Carry (lists : List CentroidsWithDelta) (S : Sample) : Prop where
  proper : S.Proper
  weight : weightSum (lists.flatMap centroids) = S.weight
  moment : momentSum (lists.flatMap centroids) = S.moment
  total : (lists.map totalWeight).sum = S.weight
  least : lists.foldr (fun list m => Min.min list.min m) f64Max = S.least
  greatest : lists.foldr (fun list m => Max.max list.max m) (-f64Max) = S.greatest
  inside : Within S.least S.greatest (lists.flatMap centroids)

theorem carry_active {lists : List CentroidsWithDelta} {samples : List Sample}
    (h : List.Forall₂ Carries lists samples) :
    Carry (lists.filter fun list => !list.centroids.isEmpty) samples.flatten := by
  induction h with
  | nil =>
    exact ⟨fun _ hx => absurd hx List.not_mem_nil, rfl, rfl, rfl, rfl, rfl,
      fun _ hc => absurd hc List.not_mem_nil⟩
  | @cons list S lists samples hlist hrest ih =>
    rw [List.flatten_cons]
    by_cases hnil : list.centroids = []
    · rw [List.filter_cons_of_neg (by simp [hnil]), hlist.eq_nil hnil]
      exact ih
    · rw [List.filter_cons_of_pos (by simpa using hnil)]
      refine ⟨hlist.proper.append ih.proper, ?_, ?_, ?_, ?_, ?_, ?_⟩
      · rw [List.flatMap_cons, weightSum_append, hlist.weight, ih.weight, Sample.weight_append]
      · rw [List.flatMap_cons, momentSum_append, hlist.moment, ih.moment, Sample.moment_append]
      · rw [List.map_cons, List.sum_cons, hlist.total, ih.total, Sample.weight_append]
      · rw [List.foldr_cons, ih.least, hlist.least, Sample.least_append]
      · rw [List.foldr_cons, ih.greatest, hlist.greatest, Sample.greatest_append]
      · rw [List.flatMap_cons, Sample.least_append, Sample.greatest_append, ← hlist.least,
          ← hlist.greatest]
        exact (hlist.inside.mono (min_le_left _ _) (le_max_left _ _)).append
          (ih.inside.mono (min_le_right _ _) (le_max_right _ _))

theorem foldl_lower {α : Type*} (f : α → ℚ) {a : ℚ} (ha : a ≤ f64Max) (xs : List α) :
    xs.foldl (fun m x => lower m (f x)) a =
      Min.min a (xs.foldr (fun x m => Min.min (f x) m) f64Max) := by
  induction xs generalizing a with
  | nil => exact (min_eq_left ha).symm
  | cons x xs ih =>
    rw [List.foldl_cons, lower_eq, ih ((min_le_left _ _).trans ha), List.foldr_cons, min_assoc]

theorem foldl_raise {α : Type*} (f : α → ℚ) {a : ℚ} (ha : -f64Max ≤ a) (xs : List α) :
    xs.foldl (fun m x => raise m (f x)) a =
      Max.max a (xs.foldr (fun x m => Max.max (f x) m) (-f64Max)) := by
  induction xs generalizing a with
  | nil => exact (max_eq_left ha).symm
  | cons x xs ih =>
    rw [List.foldl_cons, raise_eq, ih (ha.trans (le_max_left _ _)), List.foldr_cons, max_assoc]

theorem foldl_lower_buffer (buffer : List ℚ) :
    buffer.foldl lower f64Max = Sample.least (Sample.ones buffer) := by
  have h := foldl_lower id le_rfl buffer
  simp only [id] at h
  change buffer.foldl (fun m x => lower m x) f64Max = _
  rw [h, Sample.least, Sample.ones, List.foldr_map, min_eq_right]
  have hle := Sample.least_le_f64Max (Sample.ones buffer)
  rwa [Sample.least, Sample.ones, List.foldr_map] at hle

theorem foldl_raise_buffer (buffer : List ℚ) :
    buffer.foldl raise (-f64Max) = Sample.greatest (Sample.ones buffer) := by
  have h := foldl_raise id le_rfl buffer
  simp only [id] at h
  change buffer.foldl (fun m x => raise m x) (-f64Max) = _
  rw [h, Sample.greatest, Sample.ones, List.foldr_map, max_eq_right]
  have hle := Sample.le_greatest_f64Max (Sample.ones buffer)
  rwa [Sample.greatest, Sample.ones, List.foldr_map] at hle

theorem foldl_totalWeight (a : ℚ) (lists : List CentroidsWithDelta) :
    lists.foldl (fun w list => w + list.totalWeight) a = a + (lists.map totalWeight).sum := by
  induction lists generalizing a with
  | nil => exact (add_zero a).symm
  | cons list lists ih =>
    rw [List.foldl_cons, ih, List.map_cons, List.sum_cons, add_assoc]

theorem perm_singletons {xs ys : List ℚ} (h : xs.Perm ys) : (singletons xs).Perm (singletons ys) :=
  h.map _

theorem tdigestMerge_eq (buffer : List ℚ) (lists : List CentroidsWithDelta) (delta : ℕ) :
    ∃ out, tdigestMergeBufferAndCentroids scaler tol heap buffer lists delta =
        ⟨out, Max.max delta 10,
          (lists.filter fun list => !list.centroids.isEmpty).foldl (fun m list => lower m list.min)
            (buffer.foldl lower f64Max),
          (lists.filter fun list => !list.centroids.isEmpty).foldl (fun m list => raise m list.max)
            (buffer.foldl raise (-f64Max)),
          (lists.filter fun list => !list.centroids.isEmpty).foldl
            (fun w list => w + list.totalWeight) (buffer.length : ℚ)⟩ ∧
      ∀ lo hi, Within lo hi ((lists.filter fun list => !list.centroids.isEmpty).flatMap centroids) →
        Within lo hi (singletons buffer) →
        Absorbs lo hi [] ((lists.filter fun list => !list.centroids.isEmpty).flatMap centroids ++
          singletons buffer) out := by
  generalize hact : lists.filter (fun list => !list.centroids.isEmpty) = active
  have hperm := perm_singletons (List.perm_insertionSort (· ≤ ·) buffer)
  unfold tdigestMergeBufferAndCentroids
  simp only [hact]
  generalize hbuf : buffer.insertionSort (· ≤ ·) = buf at hperm ⊢
  split
  · have hnil : buffer = [] := by
      rw [← List.length_eq_zero_iff, ← List.length_insertionSort (· ≤ ·) buffer, hbuf]
      rfl
    refine ⟨[], by rw [hnil]; rfl, fun lo hi _ _ => ?_⟩
    rw [hnil]
    exact .nil fun c hc => absurd hc List.not_mem_nil
  · refine ⟨_, rfl, fun lo hi _ hb => ?_⟩
    exact (TDigestMerger.foldl_add_absorbs (m := (_, [])) (within_nil lo hi)
      (hb.perm hperm.symm)).of_perm hperm
  · rename_i list
    rw [List.flatMap_singleton]
    split_ifs with hfast
    · refine ⟨_, rfl, fun lo hi hl hb => ?_⟩
      have hnil : singletons buffer = [] := by
        rw [hfast.1] at hperm
        exact List.nil_perm.mp hperm
      rw [hnil, List.append_nil]
      exact ⟨(zero_add _).symm, (zero_add _).symm, hl⟩
    · refine ⟨_, rfl, fun lo hi hl hb => ?_⟩
      exact (TDigestMerger.addTwo_absorbs (m := (_, [])) (within_nil lo hi) hl
        (hb.perm hperm.symm)).of_perm (hperm.append_left _)
  · rename_i list₀ list₁
    refine ⟨_, rfl, fun lo hi hl hb => ?_⟩
    have hnil : singletons buffer = [] := List.nil_perm.mp hperm
    have hflat : [list₀, list₁].flatMap centroids = list₀.centroids ++ list₁.centroids := by simp
    rw [hflat] at hl
    rw [hnil, List.append_nil, hflat]
    exact @TDigestMerger.addTwo_absorbs _ _ (_, []) _ _ _ _ (within_nil lo hi)
      (fun c hc => hl c (List.mem_append_left _ hc)) fun c hc => hl c (List.mem_append_right _ hc)
  · refine ⟨_, rfl, fun lo hi hl hb => ?_⟩
    have h := @addHeap_absorbs scaler tol heap lo hi _ _
      (@announced_pushFirsts heap (active.map centroids)
        ((TDigestMerger.new (Max.max delta 10)).reset (active.foldl
          (fun w list => w + list.totalWeight) (buffer.length : ℚ)), [])) (within_nil lo hi) hl
      (hb.perm hperm.symm)
    exact h.of_perm (hperm.append_left _)

theorem carries_tdigestMerge {buffer : List ℚ} {lists : List CentroidsWithDelta}
    {samples : List Sample} (h : List.Forall₂ Carries lists samples)
    (hbuf : ∀ v ∈ buffer, |v| ≤ f64Max) (delta : ℕ) :
    (tdigestMergeBufferAndCentroids scaler tol heap buffer lists delta).Carries
      (Sample.ones buffer ++ samples.flatten) := by
  have hcarry := carry_active h
  obtain ⟨out, heq, habs⟩ := @tdigestMerge_eq scaler tol heap buffer lists
    delta
  have hones : Sample.Proper (Sample.ones buffer) := Sample.proper_ones hbuf
  have hmin := Sample.least_append (Sample.ones buffer) samples.flatten
  have hmax := Sample.greatest_append (Sample.ones buffer) samples.flatten
  have hin := habs _ _ (hcarry.inside.mono (hmin ▸ min_le_right _ _) (hmax ▸ le_max_right _ _))
    (fun c hc => by
      obtain ⟨v, hv, rfl⟩ := List.mem_map.mp hc
      have hmem : (v, (1 : ℚ)) ∈ Sample.ones buffer ++ samples.flatten :=
        List.mem_append_left _ (List.mem_map.mpr ⟨v, hv, rfl⟩)
      exact ⟨one_pos, Sample.least_le hmem, Sample.le_greatest hmem⟩)
  have hweight : Sample.weight (Sample.ones buffer) = buffer.length := by
    rw [← weightSum_singletons]
    simp [Sample.weight, Sample.ones, weightSum, singletons, Function.comp_def]
  have hmoment : Sample.moment (Sample.ones buffer) = buffer.sum := by
    simp [Sample.moment, Sample.ones, Function.comp_def]
  rw [heq, foldl_lower_buffer, foldl_raise_buffer, foldl_lower _ (Sample.least_le_f64Max _),
    foldl_raise _ (Sample.le_greatest_f64Max _), foldl_totalWeight, hcarry.least, hcarry.greatest,
    hcarry.total]
  refine ⟨hones.append hcarry.proper, ?_, ?_, ?_, hmin.symm, hmax.symm, ?_⟩
  · change weightSum out = _
    rw [hin.weight, weightSum_append, hcarry.weight, weightSum_singletons, Sample.weight_append,
      hweight, weightSum_nil]
    ring
  · change momentSum out = _
    rw [hin.moment, momentSum_append, hcarry.moment, momentSum_singletons, Sample.moment_append,
      hmoment, momentSum_nil]
    ring
  · rw [Sample.weight_append, hweight]
  · change Within (Min.min _ _) (Max.max _ _) out
    rw [← hmin, ← hmax]
    exact hin.inside

end CentroidsWithDelta

end Wedb
