import Wedb.Hash.Runs
import Wedb.ZSet.Impl

/-!
# Ranges of fields

A query between two bounds scans the stored fields in name order, skips those that
are not live and cuts out a window. The scan ends at the successor of a closed
upper bound, so it also meets the fields that extend the bound; the answer is
exact where none of them falls into the window.
-/

namespace Wedb

abbrev HashFieldPair := Bytes × Bytes

def hashLexRangeBounds (pre : Bytes) (spec : RangeLex) : Bound Bytes × Bound Bytes :=
  (if spec.minInfinite then .included pre
    else if spec.minex then .included (pre ++ spec.min ++ [0x00])
    else .included (pre ++ spec.min),
  if spec.maxInfinite then prefixUpperBound pre
    else if spec.maxex then .excluded (pre ++ spec.max)
    else prefixUpperBound (pre ++ spec.max))

def hrangeProcessEntry (pre : Bytes) (hm : HashMeta) (nowMs : UInt64) (spec : RangeLex) (limit : ℕ)
    (st : ℕ × List HashFieldPair) (x : Bytes × Bytes) : (ℕ × List HashFieldPair) × Bool :=
  if ¬pre <+: x.1 then (st, false)
  else
    match hm.decodeLiveSubkeyValue x.2 nowMs with
    | some (_, payload) =>
      if st.1 < spec.offset then ((st.1 + 1, st.2), true)
      else
        let matching := st.2 ++ [(x.1.drop pre.length, payload)]
        ((st.1, matching), !decide (matching.length ≥ limit))
    | none => (st, true)

section
variable (s : Store) (kc : KeyComposer) (key : Key) (nowMs : UInt64) (spec : RangeLex)

def hrangeByLex : Except Error (List HashFieldPair) := do
  match ← getHashMeta s kc key nowMs with
  | none => return []
  | some hm =>
    if hm.base.size > 0 then
      if hm.upper ≠ 0 ∧ nowMs > hm.upper ∧ hm.persist = 0 then return []
      else
        let pre := composeHashPrefix kc key
        let (startBound, endBound) := hashLexRangeBounds pre spec
        let limit := spec.count.getD usizeMax
        if limit = 0 then return []
        else
          let entries := s.data.range startBound endBound
          let entries := if spec.reversed then entries.reverse else entries
          return (foldBreak (hrangeProcessEntry pre hm nowMs spec limit) (0, []) entries).2
    else return []

def liveFields (hm : HashMeta) : List HashFieldPair :=
  (s.family kc key .hashData).entries.filterMap fun x =>
    (hm.decodeLiveSubkeyValue x.2 nowMs).map fun y => (x.1, y.2)

end

def RangeLex.window {α : Type} (spec : RangeLex) (xs : List α) : List α :=
  sliceWindow spec.offset spec.count (if spec.reversed then xs.reverse else xs)

def RangeLex.overruns (spec : RangeLex) (field : Bytes) : Bool :=
  !spec.maxInfinite && !spec.maxex && decide (spec.max <+: field ∧ field ≠ spec.max)

/-- The window reaches some of the elements that follow those in range. -/
def RangeLex.Reaches (spec : RangeLex) (inRange beyond : ℕ) : Prop :=
  0 < beyond ∧ spec.count ≠ some 0 ∧ spec.offset < inRange + beyond ∧
    (spec.reversed = false → ∀ n ∈ spec.count, inRange < spec.offset + n)

def HashMeta.sendsAway (hm : HashMeta) (nowMs : UInt64) : Prop :=
  ¬hm.base.size > 0 ∨ hm.upper ≠ 0 ∧ nowMs > hm.upper ∧ hm.persist = 0

instance (hm : HashMeta) (nowMs : UInt64) : Decidable (hm.sendsAway nowMs) :=
  inferInstanceAs (Decidable (¬hm.base.size > 0 ∨ hm.upper ≠ 0 ∧ nowMs > hm.upper ∧ hm.persist = 0))

section
variable (s : Store) (kc : KeyComposer) (key : Key) (nowMs : UInt64) (spec : RangeLex)

def liveFieldsInRange : Except Error (List HashFieldPair) :=
  (getHashMeta s kc key nowMs).map fun found =>
    match found with
    | none => []
    | some hm => spec.window ((liveFields s kc key nowMs hm).filter fun f => spec.check f.1)

/-- Counters that send a query away keep no field of its window back, and no other
query reaches a field beyond its upper bound. -/
def LexRangeSafe : Prop :=
  ∀ hm, getHashMeta s kc key nowMs = .ok (some hm) →
    let inRange := ((liveFields s kc key nowMs hm).filter fun f => spec.check f.1).length
    let beyond :=
      ((liveFields s kc key nowMs hm).filter fun f => spec.minOk f.1 && spec.overruns f.1).length
    (hm.sendsAway nowMs → spec.count = some 0 ∨ inRange ≤ spec.offset) ∧
      (¬hm.sendsAway nowMs → ¬spec.Reaches inRange beyond)

end

variable {s : Store} {kc : KeyComposer} {key : Key} {nowMs : UInt64} {spec : RangeLex} {hm : HashMeta}
  {pre f : Bytes}

/-! ## Bounds -/

theorem startsAt_hashLexRangeBounds (pre f : Bytes) (spec : RangeLex) :
    (hashLexRangeBounds pre spec).1.startsAt (pre ++ f) = spec.minOk f := by
  rw [hashLexRangeBounds, RangeLex.minOk]
  dsimp only
  by_cases hinf : spec.minInfinite = true
  · rw [if_pos hinf, if_pos hinf]
    exact decide_eq_true (Bytes.le_append pre f)
  · rw [if_neg hinf, if_neg hinf]
    by_cases hex : spec.minex = true
    · rw [if_pos hex, if_pos hex, List.append_assoc]
      refine decide_eq_decide.mpr ?_
      rw [Bytes.append_le_append_iff, Bytes.append_zero_le_iff]
    · rw [if_neg hex, if_neg hex]
      exact decide_eq_decide.mpr Bytes.append_le_append_iff

theorem endsAt_hashLexRangeBounds (pre f : Bytes) (spec : RangeLex) :
    (hashLexRangeBounds pre spec).2.endsAt (pre ++ f) = (spec.maxOk f || spec.overruns f) := by
  rw [hashLexRangeBounds, RangeLex.maxOk, RangeLex.overruns]
  dsimp only
  by_cases hinf : spec.maxInfinite = true
  · rw [if_pos hinf, if_pos hinf, (endsAt_prefixUpperBound pre _).mpr (Or.inr (List.prefix_append _ _)),
      Bool.true_or]
  · rw [if_neg hinf, if_neg hinf]
    by_cases hex : spec.maxex = true
    · rw [if_pos hex, if_pos hex, hex, Bool.not_true, Bool.and_false, Bool.false_and, Bool.or_false]
      exact decide_eq_decide.mpr Bytes.append_lt_append_iff
    · rw [Bool.not_eq_true] at hinf hex
      rw [if_neg (by simp [hex]), if_neg (by simp [hex]), Bool.eq_iff_iff, endsAt_prefixUpperBound,
        Bytes.append_le_append_iff, List.prefix_append_right_inj]
      simp only [hinf, hex, Bool.not_false, Bool.true_and, Bool.or_eq_true, decide_eq_true_eq]
      by_cases heq : f = spec.max
      · simp [heq]
      · simp [heq]

theorem prefix_of_hashLexRangeBounds {k : Bytes}
    (hlo : (hashLexRangeBounds pre spec).1.startsAt k = true)
    (hhi : (hashLexRangeBounds pre spec).2.endsAt k = true) : pre <+: k := by
  have hle : pre ≤ k := by
    rw [hashLexRangeBounds] at hlo
    dsimp only at hlo
    split_ifs at hlo
    · exact of_decide_eq_true hlo
    · refine le_trans ?_ (of_decide_eq_true hlo)
      rw [List.append_assoc]
      exact Bytes.le_append _ _
    · exact (Bytes.le_append _ _).trans (of_decide_eq_true hlo)
  have hbelow : ∀ {c : Bytes}, k ≤ pre ++ c → pre <+: k := fun hkc =>
    Bytes.prefix_of_between (List.prefix_refl pre) (List.prefix_append pre _) hle hkc
  rw [hashLexRangeBounds] at hhi
  dsimp only at hhi
  split_ifs at hhi
  · rcases (endsAt_prefixUpperBound pre k).mp hhi with hkp | hp
    · rw [le_antisymm hkp hle]
    · exact hp
  · simp only [Bound.endsAt, decide_eq_true_eq] at hhi
    exact hbelow hhi.le
  · rcases (endsAt_prefixUpperBound _ k).mp hhi with hkp | hp
    · exact hbelow hkp
    · exact (List.prefix_append pre spec.max).trans hp

/-! ## The scan -/

theorem range_hashLexRangeBounds (s : Store) (kc : KeyComposer) (key : Key) (spec : RangeLex) :
    s.data.range (hashLexRangeBounds (composeHashPrefix kc key) spec).1
        (hashLexRangeBounds (composeHashPrefix kc key) spec).2 =
      ((s.family kc key .hashData).entries.filter fun x =>
        spec.check x.1 || spec.minOk x.1 && spec.overruns x.1).map
          fun x => (composeHashPrefix kc key ++ x.1, x.2) := by
  rw [SortedMap.range_eq_map_under fun k => prefix_of_hashLexRangeBounds]
  refine congrArg _ (List.filter_congr fun x _ => ?_)
  rw [startsAt_hashLexRangeBounds, endsAt_hashLexRangeBounds, RangeLex.check, Bool.and_or_distrib_left]

theorem foldBreak_hrangeProcessEntry {limit : ℕ} (hlimit : limit ≠ 0) (hm : HashMeta)
    (xs : List (Bytes × Bytes)) :
    (foldBreak (hrangeProcessEntry pre hm nowMs spec limit) (0, [])
        (xs.map fun x => (pre ++ x.1, x.2))).2 =
      sliceWindow spec.offset (some limit) (xs.filterMap fun x =>
        (hm.decodeLiveSubkeyValue x.2 nowMs).map fun y => (x.1, y.2)) := by
  have hstep : ∀ (st : ℕ × List HashFieldPair), ∀ x ∈ xs.map (fun x => (pre ++ x.1, x.2)),
      hrangeProcessEntry pre hm nowMs spec limit st x =
        (((hm.decodeLiveSubkeyValue x.2 nowMs).map fun y => (x.1.drop pre.length, y.2)).map
          (windowStep id spec.offset (some limit) st)).getD (st, true) := by
    intro st x hx
    obtain ⟨y, -, rfl⟩ := List.mem_map.mp hx
    rw [hrangeProcessEntry, if_neg (not_not.mpr (List.prefix_append pre y.1))]
    cases hm.decodeLiveSubkeyValue y.2 nowMs with
    | none => rfl
    | some z =>
      simp only [Option.map_some, Option.getD_some, windowStep, List.length_append,
        List.length_singleton, Option.all_some, id_eq]
      by_cases hlt : st.1 < spec.offset
      · rw [if_pos hlt, if_pos hlt]
      · rw [if_neg hlt, if_neg hlt]
        refine Prod.ext rfl ?_
        rw [← decide_not]
        exact decide_eq_decide.mpr not_le
  rw [foldBreak_filterMap _ hstep, foldBreak_slice id _ (by simpa using hlimit), List.map_id,
    List.filterMap_map]
  refine congrArg _ (List.filterMap_congr fun x _ => ?_)
  simp only [Function.comp_apply, List.drop_left]

theorem liveFields_sorted (s : Store) (kc : KeyComposer) (key : Key) (nowMs : UInt64) (hm : HashMeta) :
    (liveFields s kc key nowMs hm).Pairwise fun x y => x.1 < y.1 := by
  refine List.Pairwise.filterMap _ (fun x x' hlt y hy y' hy' => ?_) (s.family kc key .hashData).sorted
  obtain ⟨z, -, rfl⟩ := Option.map_eq_some_iff.mp hy
  obtain ⟨z', -, rfl⟩ := Option.map_eq_some_iff.mp hy'
  exact hlt

theorem liveFields_met (hm : HashMeta) :
    ((s.family kc key .hashData).entries.filter fun x =>
        spec.check x.1 || spec.minOk x.1 && spec.overruns x.1).filterMap (fun x =>
          (hm.decodeLiveSubkeyValue x.2 nowMs).map fun y => (x.1, y.2)) =
      (liveFields s kc key nowMs hm).filter (fun f => spec.check f.1) ++
        (liveFields s kc key nowMs hm).filter fun f => spec.minOk f.1 && spec.overruns f.1 := by
  have hmax : ∀ {f : Bytes}, spec.overruns f = true → spec.max < f ∧ spec.maxOk f = false := by
    intro f hf
    simp only [RangeLex.overruns, Bool.and_eq_true, Bool.not_eq_true', decide_eq_true_eq] at hf
    obtain ⟨⟨hinf, hex⟩, hpre, hne⟩ := hf
    have hlt : spec.max < f := lt_of_le_of_ne (Bytes.le_of_prefix hpre) hne.symm
    refine ⟨hlt, ?_⟩
    rw [RangeLex.maxOk, hinf, hex]
    exact decide_eq_false hlt.not_ge
  rw [← filter_or_eq_append, liveFields, List.filter_filterMap, List.filterMap_filter]
  · refine List.filterMap_congr fun x _ => ?_
    cases hm.decodeLiveSubkeyValue x.2 nowMs with
    | none => simp
    | some z => simp only [Option.map_some, Option.filter_some]
  · refine (liveFields_sorted s kc key nowMs hm).imp fun {x y} hlt hx => ?_
    simp only [Bool.and_eq_true] at hx
    have hy : spec.maxOk y.1 = false := by
      have hinf := hx.2
      simp only [RangeLex.overruns, Bool.and_eq_true, Bool.not_eq_true'] at hinf
      rw [RangeLex.maxOk, hinf.1.1, hinf.1.2]
      exact decide_eq_false ((hmax hx.2).1.trans hlt).not_ge
    rw [RangeLex.check, hy, Bool.and_false]
  · intro x _ hx
    rw [RangeLex.check, Bool.and_eq_true] at hx
    by_contra hne
    rw [Bool.not_eq_false, Bool.and_eq_true] at hne
    rw [(hmax hne.2).2] at hx
    exact Bool.false_ne_true hx.2

/-! ## The answer -/

theorem window_append_eq_iff {xs ys : List HashFieldPair} (hnodup : (xs ++ ys).Nodup) :
    spec.window (xs ++ ys) = spec.window xs ↔ ¬spec.Reaches xs.length ys.length := by
  rw [RangeLex.window, RangeLex.window, RangeLex.Reaches]
  cases spec.reversed with
  | false =>
    simp only [Bool.false_eq_true, if_false, forall_const]
    rw [sliceWindow_append_eq_iff]
    simp only [not_and_or, Nat.pos_iff_ne_zero, not_not, not_lt, ne_eq, not_forall, exists_prop]
  | true =>
    simp only [if_true, reduceCtorEq, false_imp_iff, and_true]
    rw [List.reverse_append, sliceWindow_prepend_eq_iff (by
      rw [← List.reverse_append]
      exact List.nodup_reverse.mpr hnodup), List.length_reverse, List.length_reverse]
    simp only [not_and_or, Nat.pos_iff_ne_zero, not_not, not_lt, ne_eq]

theorem hrangeByLex_eq {e : Engine} (hget : getHashMeta e.store kc key nowMs = .ok (some hm))
    (haway : ¬hm.sendsAway nowMs) : hrangeByLex e.store kc key nowMs spec =
      .ok (spec.window ((liveFields e.store kc key nowMs hm).filter (fun f => spec.check f.1) ++
        (liveFields e.store kc key nowMs hm).filter fun f => spec.minOk f.1 && spec.overruns f.1)) := by
  rw [HashMeta.sendsAway, not_or, not_not] at haway
  rw [hrangeByLex, hget]
  simp only [bind, Except.bind, if_pos haway.1, if_neg haway.2]
  rw [range_hashLexRangeBounds, ← liveFields_met]
  set met := (e.store.family kc key .hashData).entries.filter fun x =>
    spec.check x.1 || spec.minOk x.1 && spec.overruns x.1 with hmet
  have hlen : (met.filterMap fun x =>
      (hm.decodeLiveSubkeyValue x.2 nowMs).map fun y => (x.1, y.2)).length ≤ usizeMax := by
    have hfits := e.fits.length_family_lt kc key .hashData
    refine (List.length_filterMap_le _ _).trans ((List.length_filter_le _ _).trans ?_)
    exact Nat.le_pred_of_lt hfits
  by_cases hzero : spec.count.getD usizeMax = 0
  · have hcount : spec.count = some 0 := by
      cases hc : spec.count with
      | none =>
        rw [hc] at hzero
        exact absurd hzero (by decide)
      | some n =>
        rw [hc] at hzero
        exact congrArg some hzero
    rw [if_pos hzero, RangeLex.window, sliceWindow_eq_nil.mpr (Or.inl hcount)]
    rfl
  · rw [if_neg hzero]
    have hdir : (if spec.reversed = true then
        (met.map fun x => (composeHashPrefix kc key ++ x.1, x.2)).reverse
        else met.map fun x => (composeHashPrefix kc key ++ x.1, x.2)) =
        (if spec.reversed = true then met.reverse else met).map
          fun x => (composeHashPrefix kc key ++ x.1, x.2) := by
      split_ifs
      · rw [List.map_reverse]
      · rfl
    rw [hdir, foldBreak_hrangeProcessEntry hzero, RangeLex.window, sliceWindow_getD]
    · refine congrArg Except.ok (congrArg _ ?_)
      split_ifs
      · rw [List.filterMap_reverse]
      · rfl
    · split_ifs
      · rw [List.filterMap_reverse, List.length_reverse]
        exact hlen
      · exact hlen

theorem hrangeByLex_away {e : Engine} (hget : getHashMeta e.store kc key nowMs = .ok (some hm))
    (haway : hm.sendsAway nowMs) : hrangeByLex e.store kc key nowMs spec = .ok [] := by
  rw [hrangeByLex, hget]
  simp only [bind, Except.bind]
  rcases haway with hsize | hexp
  · rw [if_neg hsize]
    rfl
  · rw [if_pos hexp]
    split_ifs <;> rfl

/-- A range of fields is exact where the counters hold no field back and the window
reaches none that extends the upper bound. -/
theorem hrangeByLex_exact_iff (e : Engine) (kc : KeyComposer) (key : Key) (nowMs : UInt64)
    (spec : RangeLex) : hrangeByLex e.store kc key nowMs spec =
      liveFieldsInRange e.store kc key nowMs spec ↔ LexRangeSafe e.store kc key nowMs spec := by
  cases hget : getHashMeta e.store kc key nowMs with
  | error err =>
    refine iff_of_true ?_ fun hm h => by rw [hget] at h; cases h
    rw [hrangeByLex, liveFieldsInRange, hget]
    rfl
  | ok found =>
    cases found with
    | none =>
      refine iff_of_true ?_ fun hm h => by rw [hget] at h; cases h
      rw [hrangeByLex, liveFieldsInRange, hget]
      rfl
    | some hm =>
      rw [LexRangeSafe, liveFieldsInRange, hget]
      simp only [Except.map, Except.ok.injEq, Option.some.injEq, forall_eq']
      set inRange := (liveFields e.store kc key nowMs hm).filter fun f => spec.check f.1 with hin
      by_cases haway : hm.sendsAway nowMs
      · rw [hrangeByLex_away hget haway, Except.ok.injEq, eq_comm, RangeLex.window, sliceWindow_eq_nil]
        simp only [haway, not_true_eq_false, false_imp_iff, and_true, forall_const]
        split_ifs
        · rw [List.length_reverse]
        · rfl
      · rw [hrangeByLex_eq hget haway, Except.ok.injEq, window_append_eq_iff]
        · simp only [haway, not_false_eq_true, false_imp_iff, true_and, forall_const, hin]
        · rw [← liveFields_met]
          have hsorted := ((e.store.family kc key .hashData).sorted.filter fun x =>
            spec.check x.1 || spec.minOk x.1 && spec.overruns x.1)
          refine List.Pairwise.filterMap _ (fun x x' hlt y hy y' hy' hne => ?_) hsorted
          obtain ⟨z, -, rfl⟩ := Option.map_eq_some_iff.mp hy
          obtain ⟨z', -, rfl⟩ := Option.map_eq_some_iff.mp hy'
          exact hlt.ne (Prod.ext_iff.mp hne).1

def sampleFields : HashCall :=
  ⟨⟨0, 0⟩, sampleKey, 1, 1, .hset [([97], [1]), ([98], [2]), ([98, 97], [3])]⟩

/-- A range closed at a field also returns the field that extends it. -/
theorem hrangeByLex_overruns :
    ∃ e, HashReachable (fun _ => none) (fun _ _ => true) e ∧
      hrangeByLex e.store ⟨0, 0⟩ sampleKey 2 { min := [97], max := [98] } ≠
        liveFieldsInRange e.store ⟨0, 0⟩ sampleKey 2 { min := [97], max := [98] } := by
  have hrun : (replay (fun _ => none) (fun _ _ => true) .empty [sampleFields]).map (fun e =>
      ((hrangeByLex e.store ⟨0, 0⟩ sampleKey 2 { min := [97], max := [98] }).toOption.map List.length,
        (liveFieldsInRange e.store ⟨0, 0⟩ sampleKey 2
          { min := [97], max := [98] }).toOption.map List.length)) = some (some 3, some 2) := by
    decide +kernel
  obtain ⟨e, he, hlens⟩ := Option.map_eq_some_iff.mp hrun
  refine ⟨e, .replay .start he, fun heq => ?_⟩
  rw [heq] at hlens
  simp only [Prod.mk.injEq] at hlens
  rw [hlens.2] at hlens
  exact absurd hlens.1 (by decide)

end Wedb
