import Wedb.Ordered.Under

/-!
# Scans and prefix bounds

A scan passes a state over a list until a step says to stop. A scan that skips
some elements and stops after enough of them cuts a window out of the list. The
keys below the upper bound of a prefix are those up to the prefix and those that
extend it.
-/

universe u v w

def foldBreak {σ : Type u} {α : Type v} (step : σ → α → σ × Bool) : σ → List α → σ
  | s, [] => s
  | s, x :: xs => if (step s x).2 then foldBreak step (step s x).1 xs else (step s x).1

def sliceWindow {α : Type u} (offset : ℕ) (limit : Option ℕ) (xs : List α) : List α :=
  match limit with
  | none => xs.drop offset
  | some n => (xs.drop offset).take n

def windowStep {α : Type u} {β : Type v} (g : α → β) (offset : ℕ) (limit : Option ℕ)
    (st : ℕ × List β) (x : α) : (ℕ × List β) × Bool :=
  if st.1 < offset then ((st.1 + 1, st.2), true)
  else ((st.1, st.2 ++ [g x]), limit.all fun n => decide (st.2.length + 1 < n))

section
variable {σ : Type u} {α : Type v} {β : Type w}

theorem foldBreak_congr {step step' : σ → α → σ × Bool} {xs : List α}
    (h : ∀ s, ∀ x ∈ xs, step s x = step' s x) (s : σ) :
    foldBreak step s xs = foldBreak step' s xs := by
  induction xs generalizing s with
  | nil => rfl
  | cons x xs ih =>
    rw [foldBreak, foldBreak, h s x (by simp), ih fun t y hy => h t y (by simp [hy])]

def logStep (step : σ → α → σ × Bool) (st : σ × List α) (x : α) : (σ × List α) × Bool :=
  (((step st.1 x).1, st.2 ++ [x]), (step st.1 x).2)

/-- A scan visits a prefix, the whole list unless a step says to stop. -/
theorem foldBreak_logStep (step : σ → α → σ × Bool) (s : σ) (log xs : List α) :
    ∃ seen, foldBreak (logStep step) (s, log) xs = (foldBreak step s xs, log ++ seen) ∧
      seen <+: xs ∧ foldBreak step s xs = seen.foldl (fun t x => (step t x).1) s ∧
      (seen ≠ xs → ∃ t x, (step t x).2 = false ∧ (step t x).1 = foldBreak step s xs) := by
  induction xs generalizing s log with
  | nil => exact ⟨[], by rw [List.append_nil]; rfl, List.prefix_rfl, rfl, fun h => absurd rfl h⟩
  | cons x xs ih =>
    by_cases hgo : (step s x).2 = true
    · obtain ⟨seen, hrun, hpre, hfold, hstop⟩ := ih (step s x).1 (log ++ [x])
      refine ⟨x :: seen, ?_, (List.prefix_cons_inj x).mpr hpre, ?_, fun hne => ?_⟩
      · rw [foldBreak, foldBreak, logStep]
        simp only [hgo, if_true]
        rw [hrun, List.append_assoc, List.singleton_append]
      · rw [foldBreak, if_pos hgo, hfold, List.foldl_cons]
      · rw [foldBreak, if_pos hgo]
        exact hstop fun heq => hne (by rw [heq])
    · refine ⟨[x], ?_, (List.prefix_cons_inj x).mpr List.nil_prefix, ?_, fun _ => ⟨s, x, ?_, ?_⟩⟩
      · rw [foldBreak, foldBreak, logStep]
        simp only [hgo, Bool.false_eq_true, if_false]
      · rw [foldBreak, if_neg hgo]
        rfl
      · exact Bool.eq_false_of_not_eq_true hgo
      · rw [foldBreak, if_neg hgo]

theorem foldBreak_map {step : σ → β → σ × Bool} (g : α → β) (s : σ) (xs : List α) :
    foldBreak step s (xs.map g) = foldBreak (fun t x => step t (g x)) s xs := by
  induction xs generalizing s with
  | nil => rfl
  | cons x xs ih => rw [List.map_cons, foldBreak, foldBreak, ih]

theorem foldBreak_filterMap {step : σ → α → σ × Bool} {step' : σ → β → σ × Bool} (sel : α → Option β)
    {xs : List α} (h : ∀ s, ∀ x ∈ xs, step s x = ((sel x).map (step' s)).getD (s, true)) (s : σ) :
    foldBreak step s xs = foldBreak step' s (xs.filterMap sel) := by
  induction xs generalizing s with
  | nil => rfl
  | cons x xs ih =>
    have hxs : ∀ t, ∀ y ∈ xs, step t y = ((sel y).map (step' t)).getD (t, true) :=
      fun t y hy => h t y (by simp [hy])
    rw [foldBreak, h s x (by simp)]
    cases hsel : sel x with
    | none =>
      rw [List.filterMap_cons_none hsel]
      exact ih hxs s
    | some y =>
      rw [List.filterMap_cons_some hsel, foldBreak, ← ih hxs]
      rfl

theorem foldBreak_takeWhile {step step' : σ → α → σ × Bool} (stop : α → Bool) {xs : List α}
    (h : ∀ s, ∀ x ∈ xs, step s x = if stop x then (s, false) else step' s x) (s : σ) :
    foldBreak step s xs = foldBreak step' s (xs.takeWhile fun x => !stop x) := by
  induction xs generalizing s with
  | nil => rfl
  | cons x xs ih =>
    have hxs : ∀ t, ∀ y ∈ xs, step t y = if stop y then (t, false) else step' t y :=
      fun t y hy => h t y (by simp [hy])
    rw [foldBreak, h s x (by simp), List.takeWhile_cons]
    by_cases hstop : stop x = true
    · simp [hstop, foldBreak]
    · simp only [Bool.not_eq_true] at hstop
      simp only [hstop, Bool.false_eq_true, if_false, Bool.not_false, if_true, foldBreak]
      rw [ih hxs]

theorem foldBreak_filter {step : σ → α → σ × Bool} (sel : α → Bool) (s : σ) (xs : List α) :
    foldBreak (fun t x => if sel x then step t x else (t, true)) s xs =
      foldBreak step s (xs.filter sel) := by
  induction xs generalizing s with
  | nil => rfl
  | cons x xs ih =>
    by_cases hx : sel x = true
    · rw [foldBreak, if_pos hx, List.filter_cons_of_pos hx, foldBreak, ih]
    · rw [foldBreak, if_neg hx, List.filter_cons_of_neg hx, if_pos rfl, ih]

/-- Where nothing selected follows a stop, a scan need not stop to miss nothing. -/
theorem filter_takeWhile {sel stop : α → Bool} {xs : List α}
    (hstop : xs.Pairwise fun x y => stop x = true → stop y = true)
    (hsel : ∀ x ∈ xs, sel x = true → stop x = false) :
    (xs.takeWhile fun x => !stop x).filter sel = xs.filter sel := by
  induction xs with
  | nil => rfl
  | cons x xs ih =>
    obtain ⟨hx, hxs⟩ := List.pairwise_cons.mp hstop
    by_cases hs : stop x = true
    · have hnone : ∀ y ∈ x :: xs, ¬sel y = true := by
        intro y hy hsely
        have hstopy : stop y = true := by
          rcases List.mem_cons.mp hy with rfl | hy'
          · exact hs
          · exact hx y hy' hs
        rw [hsel y hy hsely] at hstopy
        cases hstopy
      rw [List.takeWhile_cons_of_neg (by simp [hs]), List.filter_nil,
        List.filter_eq_nil_iff.mpr hnone]
    · have hrest := ih hxs fun y hy => hsel y (by simp [hy])
      rw [List.takeWhile_cons_of_pos (by simpa using hs), List.filter_cons, List.filter_cons, hrest]

theorem foldBreak_true (step : σ → α → σ) (s : σ) (xs : List α) :
    foldBreak (fun t x => (step t x, true)) s xs = xs.foldl step s := by
  induction xs generalizing s with
  | nil => rfl
  | cons x xs ih =>
    rw [foldBreak, if_pos rfl, ih]
    rfl

theorem foldBreak_collect (g : α → β) {offset k : ℕ} (hk : offset ≤ k) {limit : Option ℕ}
    (acc : List β) (hlimit : ∀ n ∈ limit, acc.length < n) (xs : List α) :
    (foldBreak (windowStep g offset limit) (k, acc) xs).2 =
      acc ++ (sliceWindow 0 (limit.map fun n => n - acc.length) xs).map g := by
  induction xs generalizing acc with
  | nil => cases limit <;> simp [foldBreak, sliceWindow]
  | cons x xs ih =>
    rw [foldBreak, windowStep, if_neg hk.not_gt]
    dsimp only
    cases limit with
    | none =>
      rw [Option.all_none, if_pos rfl, ih (acc ++ [g x]) (by simp)]
      simp [sliceWindow]
    | some n =>
      have hacc : acc.length < n := hlimit n rfl
      by_cases hn : acc.length + 1 < n
      · rw [if_pos (by simpa using hn), ih (acc ++ [g x]) (by simpa using hn)]
        have hsub : n - acc.length = n - (acc ++ [g x]).length + 1 := by
          rw [List.length_append, List.length_singleton]
          omega
        simp only [sliceWindow, Option.map_some, List.drop_zero, hsub, List.take_succ_cons, List.map_cons,
          List.append_assoc, List.singleton_append]
      · have hsub : n - acc.length = 0 + 1 := by omega
        rw [if_neg (by simpa using hn)]
        simp only [sliceWindow, Option.map_some, List.drop_zero, hsub, List.take_succ_cons, List.take_zero,
          List.map_cons, List.map_nil]

theorem foldBreak_slice (g : α → β) (offset : ℕ) {limit : Option ℕ} (hlimit : limit ≠ some 0)
    (xs : List α) : (foldBreak (windowStep g offset limit) (0, []) xs).2 =
      (sliceWindow offset limit xs).map g := by
  have hpos : ∀ n ∈ limit, ([] : List β).length < n := by
    intro n hn
    rw [Option.mem_def] at hn
    rw [hn] at hlimit
    exact Nat.pos_of_ne_zero fun h => hlimit (by rw [h])
  have hskip : ∀ k, k ≤ offset → (foldBreak (windowStep g offset limit) (k, []) xs).2 =
      (sliceWindow (offset - k) limit xs).map g := by
    induction xs with
    | nil =>
      intro k _
      cases limit <;> simp [foldBreak, sliceWindow]
    | cons x xs ih =>
      intro k hk
      by_cases hlt : k < offset
      · have hstep : windowStep g offset limit (k, []) x = ((k + 1, []), true) := by
          rw [windowStep, if_pos hlt]
        have hsub : offset - k = offset - (k + 1) + 1 := by omega
        rw [foldBreak, hstep, if_pos rfl, ih (k + 1) hlt, hsub]
        cases limit <;> simp [sliceWindow]
      · have hsub : offset - k = 0 := by omega
        have hmap : (limit.map fun n => n - ([] : List β).length) = limit := by
          cases limit <;> simp
        rw [foldBreak_collect g (not_lt.mp hlt) [] hpos, hmap, hsub, List.nil_append]
  exact hskip 0 (Nat.zero_le _)

theorem foldBreak_sim {τ : Type w} {step : σ → α → σ × Bool} {step' : τ → α → τ × Bool}
    (R : σ → τ → Prop)
    (h : ∀ s t x, R s t → R (step s x).1 (step' t x).1 ∧ (step s x).2 = (step' t x).2)
    {s : σ} {t : τ} (hst : R s t) (xs : List α) : R (foldBreak step s xs) (foldBreak step' t xs) := by
  induction xs generalizing s t with
  | nil => exact hst
  | cons x xs ih =>
    obtain ⟨hstep, hgo⟩ := h s t x hst
    rw [foldBreak, foldBreak, hgo]
    by_cases hx : (step' t x).2 = true
    · rw [if_pos hx, if_pos hx]
      exact ih hstep
    · rw [if_neg hx, if_neg hx]
      exact hstep

def rankStep (g : α → β) (start stop count : ℕ) (st : ℕ × List β) (x : α) : (ℕ × List β) × Bool :=
  let items := if st.1 ≥ start then st.2 ++ [g x] else st.2
  if st.1 ≥ start ∧ items.length ≥ count then ((st.1, items), false)
  else ((st.1 + 1, items), decide (st.1 + 1 ≤ stop))

theorem foldBreak_rank (g : α → β) {start stop : ℕ} (hle : start ≤ stop) {i : ℕ} (hi : i ≤ stop)
    (acc : List β) (hacc : acc.length = i - start) (xs : List α) :
    (foldBreak (rankStep g start stop (stop - start + 1)) (i, acc) xs).2 =
      acc ++ ((xs.drop (start - i)).take (stop - start + 1 - acc.length)).map g := by
  induction xs generalizing i acc with
  | nil => simp [foldBreak]
  | cons x xs ih =>
    rw [foldBreak, rankStep]
    dsimp only
    by_cases hlt : i < start
    · have hnot : ¬i ≥ start := not_le.mpr hlt
      have hgo : i + 1 ≤ stop := by omega
      have hdrop : start - i = start - (i + 1) + 1 := by omega
      simp only [hnot, false_and, if_false, hgo, decide_true, if_true]
      rw [ih hgo acc (by omega), hdrop, List.drop_succ_cons]
    · have hge : i ≥ start := not_lt.mp hlt
      have hdrop : start - i = 0 := Nat.sub_eq_zero_of_le hge
      have htake : stop - start + 1 - acc.length = stop - start + 1 - (acc ++ [g x]).length + 1 := by
        rw [List.length_append, List.length_singleton]
        omega
      simp only [hge, true_and, if_true]
      rw [hdrop, List.drop_zero, htake, List.take_succ_cons, List.map_cons]
      by_cases hfull : (acc ++ [g x]).length ≥ stop - start + 1
      · have hzero : stop - start + 1 - (acc ++ [g x]).length = 0 := Nat.sub_eq_zero_of_le hfull
        rw [if_pos hfull, hzero, List.take_zero, List.map_nil]
        rfl
      · have hlen : (acc ++ [g x]).length = i + 1 - start := by
          rw [List.length_append, List.length_singleton]
          omega
        have hgo : i + 1 ≤ stop := by omega
        have hnext : start - (i + 1) = 0 := by omega
        rw [if_neg hfull]
        simp only [hgo, decide_true, if_true]
        rw [ih hgo _ hlen, hnext, List.drop_zero, List.append_assoc, List.singleton_append]

/-! ## Looking for an element -/

theorem foldBreak_position {step : ℕ × Bool → α → (ℕ × Bool) × Bool} {ys : List α} {x : α}
    (hys : ∀ y ∈ ys, ∀ n, step (n, false) y = ((n + 1, false), true))
    (hx : ∀ n, step (n, false) x = ((n, true), false)) (zs : List α) (n : ℕ) :
    foldBreak step (n, false) (ys ++ x :: zs) = (n + ys.length, true) := by
  induction ys generalizing n with
  | nil =>
    rw [List.nil_append, foldBreak, hx]
    rfl
  | cons y ys ih =>
    rw [List.cons_append, foldBreak, hys y (by simp), if_pos rfl,
      ih (fun z hz => hys z (by simp [hz])), List.length_cons, Nat.add_right_comm, Nat.add_assoc]

theorem foldBreak_stopped {step : ℕ × Bool → α → (ℕ × Bool) × Bool} {ys : List α}
    (hys : ∀ y ∈ ys, ∀ n, step (n, false) y = ((n + 1, false), true) ∨
      step (n, false) y = ((n, false), false))
    {y : α} (hy : y ∈ ys) (hstop : ∀ n, step (n, false) y = ((n, false), false)) (zs : List α)
    (n : ℕ) : (foldBreak step (n, false) (ys ++ zs)).2 = false := by
  induction ys generalizing n with
  | nil => cases hy
  | cons z ys ih =>
    rw [List.cons_append, foldBreak]
    rcases hys z (by simp) n with hz | hz
    · have hne : y ≠ z := by
        rintro rfl
        rw [hstop] at hz
        cases hz
      rw [hz, if_pos rfl]
      exact ih (fun t ht => hys t (by simp [ht])) ((List.mem_cons.mp hy).resolve_left hne) (n + 1)
    · rw [hz]
      rfl

/-! ## Windows of appended lists -/

theorem length_sliceWindow_none (offset : ℕ) (xs : List α) :
    (sliceWindow offset none xs).length = xs.length - offset := List.length_drop

theorem length_sliceWindow_some (offset n : ℕ) (xs : List α) :
    (sliceWindow offset (some n) xs).length = min n (xs.length - offset) := by
  rw [sliceWindow, List.length_take, List.length_drop]

theorem sliceWindow_eq_nil {offset : ℕ} {limit : Option ℕ} {xs : List α} :
    sliceWindow offset limit xs = [] ↔ limit = some 0 ∨ xs.length ≤ offset := by
  rw [← List.length_eq_zero_iff]
  cases limit with
  | none =>
    rw [length_sliceWindow_none]
    simp only [reduceCtorEq, false_or]
    omega
  | some n =>
    rw [length_sliceWindow_some, Option.some.injEq]
    omega

theorem sliceWindow_getD {offset n : ℕ} {limit : Option ℕ} {xs : List α} (h : xs.length ≤ n) :
    sliceWindow offset (some (limit.getD n)) xs = sliceWindow offset limit xs := by
  cases limit with
  | none =>
    refine List.take_of_length_le ?_
    rw [List.length_drop]
    exact (Nat.sub_le _ _).trans h
  | some n => rfl

theorem sliceWindow_append_eq_iff {offset : ℕ} {limit : Option ℕ} {xs ys : List α} :
    sliceWindow offset limit (xs ++ ys) = sliceWindow offset limit xs ↔
      ys.length = 0 ∨ limit = some 0 ∨ xs.length + ys.length ≤ offset ∨
        ∃ n ∈ limit, offset + n ≤ xs.length := by
  constructor
  · intro h
    have hlen := congrArg List.length h
    cases limit with
    | none =>
      rw [length_sliceWindow_none, length_sliceWindow_none, List.length_append] at hlen
      simp only [reduceCtorEq, Option.mem_def, false_and, exists_false, or_false, false_or]
      omega
    | some n =>
      rw [length_sliceWindow_some, length_sliceWindow_some, List.length_append] at hlen
      simp only [Option.some.injEq, Option.mem_def, exists_eq_left']
      omega
  · rintro (hnil | rfl | hle | ⟨n, hn, hle⟩)
    · rw [List.length_eq_zero_iff.mp hnil, List.append_nil]
    · rfl
    · rw [sliceWindow_eq_nil.mpr (Or.inr (by rwa [List.length_append])),
        sliceWindow_eq_nil.mpr (Or.inr (by omega))]
    · cases hn
      have htake : (xs.drop offset ++ ys).take n = (xs.drop offset).take n :=
        List.take_append_of_le_length (by
          rw [List.length_drop]
          omega)
      by_cases hoff : offset ≤ xs.length
      · rw [sliceWindow, List.drop_append_of_le_length hoff]
        exact htake
      · omega

theorem getElem?_zero_sliceWindow {offset : ℕ} {limit : Option ℕ} (hlimit : limit ≠ some 0)
    (xs : List α) : (sliceWindow offset limit xs)[0]? = xs[offset]? := by
  cases limit with
  | none => rw [sliceWindow, List.getElem?_drop, Nat.add_zero]
  | some n =>
    have hpos : 0 < n := Nat.pos_of_ne_zero fun h => hlimit (by rw [h])
    rw [sliceWindow, List.getElem?_take_of_lt hpos, List.getElem?_drop, Nat.add_zero]

/-- Elements before a list shift its window unless both windows are empty. -/
theorem sliceWindow_prepend_eq_iff {offset : ℕ} {limit : Option ℕ} {xs ys : List α}
    (hnodup : (ys ++ xs).Nodup) :
    sliceWindow offset limit (ys ++ xs) = sliceWindow offset limit xs ↔
      ys.length = 0 ∨ limit = some 0 ∨ xs.length + ys.length ≤ offset := by
  constructor
  · intro h
    by_cases hlimit : limit = some 0
    · exact Or.inr (Or.inl hlimit)
    by_cases hlt : offset < (ys ++ xs).length
    · have hget : (ys ++ xs)[offset]? = (ys ++ xs)[ys.length + offset]? := by
        rw [← getElem?_zero_sliceWindow hlimit, h, getElem?_zero_sliceWindow hlimit,
          List.getElem?_append_right (Nat.le_add_right _ _), Nat.add_sub_cancel_left]
      refine Or.inl ?_
      have := (List.getElem?_inj hlt hnodup).mp hget
      omega
    · rw [List.length_append] at hlt
      exact Or.inr (Or.inr (by omega))
  · rintro (hnil | rfl | hle)
    · rw [List.length_eq_zero_iff.mp hnil, List.nil_append]
    · rfl
    · rw [sliceWindow_eq_nil.mpr (Or.inr (by rw [List.length_append]; omega)),
        sliceWindow_eq_nil.mpr (Or.inr (by omega))]

theorem filter_or_eq_append {p q : α → Bool} {xs : List α}
    (h : xs.Pairwise fun x y => q x = true → p y = false) (hpq : ∀ x ∈ xs, p x = true → q x = false) :
    xs.filter (fun x => p x || q x) = xs.filter p ++ xs.filter q := by
  induction xs with
  | nil => rfl
  | cons x xs ih =>
    obtain ⟨hx, hxs⟩ := List.pairwise_cons.mp h
    have hrest := ih hxs fun y hy => hpq y (by simp [hy])
    by_cases hp : p x = true
    · have hq := hpq x (by simp) hp
      rw [List.filter_cons_of_pos (by simp [hp]), List.filter_cons_of_pos hp,
        List.filter_cons_of_neg (by simp [hq]), hrest, List.cons_append]
    · by_cases hq : q x = true
      · have hnil : xs.filter p = [] :=
          List.filter_eq_nil_iff.mpr fun y hy => by simp [hx y hy hq]
        rw [List.filter_cons_of_pos (by simp [hq]), List.filter_cons_of_neg hp,
          List.filter_cons_of_pos hq, hrest, hnil, List.nil_append, List.nil_append]
      · rw [List.filter_cons_of_neg (by simp [hp, hq]), List.filter_cons_of_neg hp,
          List.filter_cons_of_neg hq, hrest]

end

/-! ## Prefix bounds -/

/-- The bound above the prefix whose bytes are given last one first. -/
def upperBoundOfReverse : Bytes → Bound Bytes
  | [] => .unbounded
  | last :: rest =>
    if last < 0xFF then .excluded (((last + 1) :: rest).reverse) else upperBoundOfReverse rest

def prefixUpperBound (pre : Bytes) : Bound Bytes := upperBoundOfReverse pre.reverse

theorem Bytes.lt_succ_byte {c : UInt8} (hc : c < 0xFF) {t : Bytes} :
    t < [c + 1] ↔ t ≤ [c] ∨ [c] <+: t := by
  have hnat : (c + 1).toNat = c.toNat + 1 := by
    rw [UInt8.lt_iff_toNat_lt] at hc
    rw [UInt8.toNat_add]
    exact Nat.mod_eq_of_lt (Nat.add_lt_add_right hc 1)
  cases t with
  | nil => exact iff_of_true (List.nil_lt_cons _ _) (Or.inl (Bytes.le_append [] [c]))
  | cons b t =>
    rw [List.cons_lt_cons_iff, ← not_lt (a := [c]), List.cons_lt_cons_iff, List.cons_prefix_cons,
      UInt8.lt_iff_toNat_lt, UInt8.lt_iff_toNat_lt, hnat, ← UInt8.toNat_inj, ← UInt8.toNat_inj, hnat]
    by_cases hb : b.toNat = c.toNat
    · simp [hb]
    · simp only [List.nil_prefix, and_true, List.not_lt_nil, and_false, or_false]
      omega

theorem Bytes.append_zero_le_iff {p k : Bytes} : p ++ [0] ≤ k ↔ p < k := by
  rw [← not_lt, ← not_le (a := k), not_iff_not]
  constructor
  · intro hlt
    refine le_of_not_gt fun hgt => ?_
    obtain ⟨t, rfl⟩ := Bytes.prefix_of_between (List.prefix_refl p) (List.prefix_append p [0]) hgt.le
      hlt.le
    rw [Bytes.append_lt_append_iff] at hlt
    cases t with
    | nil => simp at hgt
    | cons b t =>
      rw [List.cons_lt_cons_iff] at hlt
      rcases hlt with hb | ⟨-, ht⟩
      · exact absurd hb (not_lt.mpr (UInt8.le_iff_toNat_le.mpr (Nat.zero_le _)))
      · exact List.not_lt_nil t ht
  · intro hle
    refine hle.trans_lt ?_
    have hnil : ([] : Bytes) < [0] := List.nil_lt_cons _ _
    simpa using Bytes.append_lt_append_iff (p := p).mpr hnil

theorem endsAt_prefixUpperBound (pre k : Bytes) :
    (prefixUpperBound pre).endsAt k = true ↔ k ≤ pre ∨ pre <+: k := by
  rw [prefixUpperBound]
  induction pre using List.reverseRecOn with
  | nil => simp [upperBoundOfReverse, Bound.endsAt]
  | append_singleton q c ih =>
    rw [List.reverse_append, List.reverse_singleton, List.singleton_append, upperBoundOfReverse]
    by_cases hc : c < 0xFF
    · have hrev : ((c + 1) :: q.reverse).reverse = q ++ [c + 1] := by simp
      have hlow : q ++ [c] < q ++ [c + 1] := by
        rw [Bytes.append_lt_append_iff, Bytes.lt_succ_byte hc]
        exact Or.inl le_rfl
      rw [if_pos hc, hrev]
      simp only [Bound.endsAt, decide_eq_true_eq]
      by_cases hq : q <+: k
      · obtain ⟨t, rfl⟩ := hq
        rw [Bytes.append_lt_append_iff, Bytes.lt_succ_byte hc, Bytes.append_le_append_iff,
          List.prefix_append_right_inj]
      · constructor
        · intro hlt
          refine Or.inl (le_of_not_gt fun hgt => hq ?_)
          exact Bytes.prefix_of_between (List.prefix_append q [c]) (List.prefix_append q [c + 1])
            hgt.le hlt.le
        · rintro (hle | hpre)
          · exact hle.trans_lt hlow
          · exact absurd ((List.prefix_append q [c]).trans hpre) hq
    · have htop : c = 0xFF := by
        rw [UInt8.lt_iff_toNat_lt] at hc
        refine UInt8.toNat_inj.mp (le_antisymm ?_ (not_lt.mp hc))
        exact Nat.le_of_lt_succ c.toNat_lt
      rw [if_neg hc, ih]
      by_cases hq : q <+: k
      · obtain ⟨t, rfl⟩ := hq
        rw [Bytes.append_le_append_iff, List.prefix_append_right_inj]
        refine iff_of_true (Or.inr (List.prefix_append q t)) ?_
        cases t with
        | nil => exact Or.inl (Bytes.le_append [] [c])
        | cons b t =>
          rw [← not_lt, List.cons_lt_cons_iff, List.cons_prefix_cons, htop]
          have hb : b.toNat < 256 := b.toNat_lt
          by_cases heq : (0xFF : UInt8) = b
          · exact Or.inr ⟨heq, List.nil_prefix⟩
          · refine Or.inl ?_
            rintro (hlt | ⟨h, -⟩)
            · rw [UInt8.lt_iff_toNat_lt] at hlt
              exact absurd hlt (not_lt.mpr (Nat.le_of_lt_succ hb))
            · exact heq h
      · have hnot : ¬q ++ [c] <+: k := fun hp => hq ((List.prefix_append q [c]).trans hp)
        simp only [hq, hnot, or_false]
        constructor
        · exact fun hle => hle.trans (Bytes.le_append q [c])
        · intro hle
          refine le_of_not_gt fun hgt => hq ?_
          exact Bytes.prefix_of_between (List.prefix_refl q) (List.prefix_append q [c]) hgt.le hle

theorem startsAt_prefixUpperBound {p : Bytes} (hp : prefixUpperBound p ≠ .unbounded) (k : Bytes) :
    (prefixUpperBound p).startsAt k = true ↔
      ¬(k ≤ p ∨ p <+: k) ∧ prefixUpperBound p ≠ .excluded k := by
  rw [← endsAt_prefixUpperBound]
  cases hb : prefixUpperBound p with
  | unbounded => exact absurd hb hp
  | included b =>
    have hnot : ∀ q : Bytes, upperBoundOfReverse q ≠ .included b := by
      intro q
      induction q with
      | nil => exact fun h => by cases h
      | cons c q ih =>
        rw [upperBoundOfReverse]
        split_ifs
        · exact fun h => by cases h
        · exact ih
    exact absurd hb (hnot _)
  | excluded b =>
    simp only [Bound.startsAt, Bound.endsAt, decide_eq_true_eq, not_lt, ne_eq, Bound.excluded.injEq]
    constructor
    · intro hlt
      exact ⟨hlt.le, hlt.ne⟩
    · rintro ⟨hle, hne⟩
      exact lt_of_le_of_ne hle hne

theorem upperBoundOfReverse_append {q : Bytes} {b : Bytes} (h : upperBoundOfReverse q = .excluded b)
    (r : Bytes) : upperBoundOfReverse (q ++ r) = .excluded (r.reverse ++ b) := by
  induction q with
  | nil => cases h
  | cons c q ih =>
    rw [upperBoundOfReverse] at h
    rw [List.cons_append, upperBoundOfReverse]
    by_cases hc : c < 0xFF
    · rw [if_pos hc] at h ⊢
      cases h
      rw [List.reverse_cons, List.reverse_append, List.reverse_cons, List.append_assoc]
    · rw [if_neg hc] at h ⊢
      exact ih h

theorem prefixUpperBound_append {p b : Bytes} (h : prefixUpperBound p = .excluded b) (pre : Bytes) :
    prefixUpperBound (pre ++ p) = .excluded (pre ++ b) := by
  rw [prefixUpperBound] at h
  rw [prefixUpperBound, List.reverse_append, upperBoundOfReverse_append h, List.reverse_reverse]

theorem length_le_of_upperBoundOfReverse {q b : Bytes} (h : upperBoundOfReverse q = .excluded b) :
    b.length ≤ q.length := by
  induction q with
  | nil => cases h
  | cons c q ih =>
    rw [upperBoundOfReverse] at h
    split_ifs at h
    · cases h
      simp
    · exact (ih h).trans (Nat.le_succ _)

theorem length_le_of_prefixUpperBound {p b : Bytes} (h : prefixUpperBound p = .excluded b) :
    b.length ≤ p.length := by
  simpa using length_le_of_upperBoundOfReverse h

theorem upperBoundOfReverse_append_of_ne {q : Bytes} (h : ∀ b, upperBoundOfReverse q ≠ .excluded b)
    (r : Bytes) : upperBoundOfReverse (q ++ r) = upperBoundOfReverse r := by
  induction q with
  | nil => rfl
  | cons c q ih =>
    rw [upperBoundOfReverse] at h
    split_ifs at h with hc
    · exact absurd rfl (h _)
    · rw [List.cons_append, upperBoundOfReverse, if_neg hc, ih h]

theorem prefixUpperBound_append_eq_iff {pre p k : Bytes} (hk : p.length ≤ k.length)
    (hp : p ≠ []) : prefixUpperBound (pre ++ p) = .excluded (pre ++ k) ↔
      prefixUpperBound p = .excluded k := by
  constructor
  · intro h
    by_cases hb : ∃ b, prefixUpperBound p = .excluded b
    · obtain ⟨b, hb⟩ := hb
      rw [prefixUpperBound_append hb, Bound.excluded.injEq, List.append_cancel_left_eq] at h
      rw [hb, h]
    · rw [not_exists] at hb
      rw [prefixUpperBound, List.reverse_append, upperBoundOfReverse_append_of_ne hb] at h
      have hlen := length_le_of_upperBoundOfReverse h
      have hpos := List.length_pos_iff.mpr hp
      rw [List.length_append, List.length_reverse] at hlen
      omega
  · exact fun h => prefixUpperBound_append h pre

theorem upperBoundOfReverse_ne_unbounded {q : Bytes} {c : UInt8} (hc : c ∈ q) (hlt : c < 0xFF) :
    upperBoundOfReverse q ≠ .unbounded := by
  induction q with
  | nil => cases hc
  | cons d q ih =>
    rw [upperBoundOfReverse]
    by_cases hd : d < 0xFF
    · rw [if_pos hd]
      exact fun h => by cases h
    · rw [if_neg hd]
      rcases List.mem_cons.mp hc with rfl | hc
      · exact absurd hlt hd
      · exact ih hc

theorem prefixUpperBound_ne_unbounded {p : Bytes} {c : UInt8} (hc : c ∈ p) (hlt : c < 0xFF) :
    prefixUpperBound p ≠ .unbounded :=
  upperBoundOfReverse_ne_unbounded (List.mem_reverse.mpr hc) hlt

theorem Bytes.prefix_of_le_append {pre k t : Bytes} (hle : pre ≤ k) (hk : k ≤ pre ++ t) : pre <+: k :=
  Bytes.prefix_of_between (List.prefix_refl pre) (List.prefix_append pre t) hle hk

theorem prefix_of_endsAt {pre k t : Bytes} (hle : pre ≤ k)
    (hhi : (prefixUpperBound (pre ++ t)).endsAt k = true ∨ k ≤ pre ++ t) : pre <+: k := by
  rcases hhi with hhi | hhi
  · rcases (endsAt_prefixUpperBound _ k).mp hhi with hkp | hp
    · exact Bytes.prefix_of_le_append hle hkp
    · exact (List.prefix_append pre t).trans hp
  · exact Bytes.prefix_of_le_append hle hhi

theorem SortedMap.range_eq_map_under {β : Type v} {p : Bytes} {lo hi : Bound Bytes}
    (h : ∀ k, lo.startsAt k = true → hi.endsAt k = true → p <+: k) (m : SortedMap Bytes β) :
    m.range lo hi = ((under p m).entries.filter fun x =>
      lo.startsAt (p ++ x.1) && hi.endsAt (p ++ x.1)).map fun x => (p ++ x.1, x.2) := by
  refine eq_of_mem_iff (range_sorted _ _ _) ?_ fun x => ?_
  · rw [List.pairwise_map]
    exact ((under p m).sorted.filter _).imp fun hlt => Bytes.append_lt_append_iff.mpr hlt
  · simp only [mem_range, List.mem_map, List.mem_filter, Bool.and_eq_true]
    constructor
    · rintro ⟨hg, hlo, hhi⟩
      obtain ⟨s, hs⟩ := h x.1 hlo hhi
      obtain ⟨k, v⟩ := x
      subst hs
      refine ⟨(s, v), ⟨?_, hlo, hhi⟩, rfl⟩
      rw [← get_eq_some, get_under]
      exact hg
    · rintro ⟨y, ⟨hy, hlo, hhi⟩, rfl⟩
      rw [← get_eq_some, get_under] at hy
      exact ⟨hy, hlo, hhi⟩

/-- A scan of a range that starts at or above the prefix and leaves at the first key without
it runs over the keys under the prefix. -/
theorem foldBreak_range_under {σ : Type u} {α : Type v} {β : Type w} {pre : Bytes} {lo hi : Bound Bytes}
    (hlo : ∀ k, lo.startsAt k = true → pre ≤ k) {m : SortedMap Bytes β}
    {step : σ → Bytes × β → σ × Bool} {step' : σ → α → σ × Bool} (sel : Bytes → β → Option α)
    (hstep : ∀ st x, step st x = if ¬pre <+: x.1 then (st, false)
      else ((sel (x.1.drop pre.length) x.2).map (step' st)).getD (st, true)) (st : σ) :
    foldBreak step st (m.range lo hi) =
      foldBreak step' st (((SortedMap.under pre m).entries.filter fun x =>
        lo.startsAt (pre ++ x.1) && hi.endsAt (pre ++ x.1)).filterMap fun x => sel x.1 x.2) := by
  have hstop : ∀ st, ∀ x ∈ m.range lo hi, step st x =
      if !decide (pre <+: x.1) then (st, false)
        else ((sel (x.1.drop pre.length) x.2).map (step' st)).getD (st, true) := by
    intro st x _
    rw [hstep]
    by_cases hp : pre <+: x.1 <;> simp [hp]
  have hpair : (m.range lo hi).Pairwise fun x y =>
      (!decide (pre <+: x.1)) = true → (!decide (pre <+: y.1)) = true := by
    refine List.Pairwise.imp_of_mem (fun {x y} hx hy hlt hstopx => ?_) (m.range_sorted lo hi)
    simp only [Bool.not_eq_true', decide_eq_false_iff_not] at hstopx ⊢
    intro hpy
    have hle := hlo x.1 (SortedMap.mem_range.mp hx).2.1
    exact hstopx (Bytes.prefix_of_between (List.prefix_refl pre) hpy hle hlt.le)
  have hrange : (m.range lo hi).filter (fun x => decide (pre <+: x.1)) =
      ((SortedMap.under pre m).entries.filter fun x =>
        lo.startsAt (pre ++ x.1) && hi.endsAt (pre ++ x.1)).map fun x => (pre ++ x.1, x.2) := by
    have hboth : (m.range lo hi).filter (fun x => decide (pre <+: x.1)) =
        (SortedMap.prefixed pre m).filter fun x => lo.startsAt x.1 && hi.endsAt x.1 := by
      rw [SortedMap.range, SortedMap.prefixed, List.filter_filter, List.filter_filter]
      exact List.filter_congr fun x _ => Bool.and_comm _ _
    rw [hboth, SortedMap.prefixed_eq_map_under, List.filter_map]
    rfl
  have htake : ((m.range lo hi).takeWhile fun x => !!decide (pre <+: x.1)) =
      (m.range lo hi).filter fun x => decide (pre <+: x.1) := by
    have hself : ((m.range lo hi).takeWhile fun x => !!decide (pre <+: x.1)) =
        (((m.range lo hi).takeWhile fun x => !!decide (pre <+: x.1)).filter
          fun x => decide (pre <+: x.1)) := by
      refine (List.filter_eq_self.mpr fun x hx => ?_).symm
      simpa using List.all_eq_true.mp List.all_takeWhile x hx
    rw [hself]
    exact filter_takeWhile hpair fun x _ hp => by simp [of_decide_eq_true hp]
  rw [foldBreak_takeWhile _ hstop, htake, hrange, foldBreak_map]
  refine foldBreak_filterMap _ (fun t x _ => ?_) st
  rw [List.drop_left]
