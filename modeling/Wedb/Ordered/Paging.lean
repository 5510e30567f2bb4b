import Wedb.Ordered.Scan

/-!
# Pages of a sorted list

A page is the first elements after a cursor, and a full page hands its last name
out as the next cursor. When the cursor of a page stands for the elements after
its name, feeding cursors back runs through the list once; a cursor that stands
for itself again never ends.
-/

universe u v w

/-- What the pages from a cursor on return, when some page hands out no cursor. -/
inductive Iterates {ε : Type u} {γ : Type v} {κ : Type v} {α : Type w}
    (step : γ → Option (Except ε (Option κ × List α))) (feed : κ → γ) : γ → List α → Prop
  | last {c : γ} {items : List α} : step c = some (.ok (none, items)) → Iterates step feed c items
  | more {c : γ} {k : κ} {items rest : List α} : step c = some (.ok (some k, items)) →
      Iterates step feed (feed k) rest → Iterates step feed c (items ++ rest)

section
variable {ε : Type u} {γ κ : Type v} {α : Type w} {step : γ → Option (Except ε (Option κ × List α))}
  {feed : κ → γ} {c : γ} {k : κ} {items rest : List α}

/-- A page whose cursor stands for the page itself is returned for ever. -/
theorem Iterates.not_of_feed (hstep : step c = some (.ok (some k, items))) (hfeed : feed k = c)
    (h : Iterates step feed c rest) : False := by
  induction h with
  | last hlast =>
    rw [hstep] at hlast
    cases hlast
  | more hmore hrest ih =>
    rw [hstep] at hmore
    cases hmore
    rw [hfeed] at ih hrest
    exact ih hstep rfl

theorem Iterates.step_ok (h : Iterates step feed c rest) : ∃ page, step c = some (.ok page) := by
  cases h with
  | last hlast => exact ⟨_, hlast⟩
  | more hmore hrest => exact ⟨_, hmore⟩

theorem Iterates.eq_of_last (hstep : step c = some (.ok (none, items)))
    (h : Iterates step feed c rest) : rest = items := by
  cases h with
  | last hlast =>
    rw [hstep] at hlast
    cases hlast
    rfl
  | more hmore hrest =>
    rw [hstep] at hmore
    cases hmore

end

section
variable {α : Type u} {κ : Type v} (limit : ℕ) (name : α → κ)

def collectStep (found : List α) (x : α) : List α × Bool :=
  (found ++ [x], !decide ((found ++ [x]).length ≥ limit))

def pageStep (st : List α × Option κ) (x : α) : (List α × Option κ) × Bool :=
  if (st.1 ++ [x]).length ≥ limit then ((st.1 ++ [x], some (name x)), false)
  else ((st.1 ++ [x], st.2), true)

def nextCursor (items : List α) : Option κ :=
  if items.length = limit then items.getLast?.map name else none

def pageOf (rest : List α) : Option κ × List α :=
  (nextCursor limit name (rest.take limit), rest.take limit)

variable {limit name}

theorem foldBreak_collectStep {found : List α} (h : found.length < limit) (xs : List α) :
    foldBreak (collectStep limit) found xs = found ++ xs.take (limit - found.length) := by
  induction xs generalizing found with
  | nil => rw [foldBreak, List.take_nil, List.append_nil]
  | cons x xs ih =>
    have hlen : (found ++ [x]).length = found.length + 1 := by simp
    have hsub : limit - found.length = limit - (found ++ [x]).length + 1 := by omega
    rw [foldBreak, collectStep, hsub, List.take_succ_cons]
    dsimp only
    by_cases hfull : (found ++ [x]).length ≥ limit
    · have hzero : limit - (found ++ [x]).length = 0 := by omega
      rw [if_neg (by simpa using hfull), hzero, List.take_zero]
    · rw [if_pos (by simpa using hfull), ih (by omega), List.append_assoc, List.singleton_append]

theorem foldBreak_pageStep {found : List α} (h : found.length < limit) (xs : List α) :
    foldBreak (pageStep limit name) (found, none) xs =
      (found ++ xs.take (limit - found.length),
        nextCursor limit name (found ++ xs.take (limit - found.length))) := by
  induction xs generalizing found with
  | nil =>
    rw [foldBreak, List.take_nil, List.append_nil, nextCursor, if_neg h.ne]
  | cons x xs ih =>
    have hlen : (found ++ [x]).length = found.length + 1 := by simp
    have hsub : limit - found.length = limit - (found ++ [x]).length + 1 := by omega
    rw [hsub, List.take_succ_cons]
    by_cases hfull : (found ++ [x]).length ≥ limit
    · have hstep : pageStep limit name (found, none) x = ((found ++ [x], some (name x)), false) :=
        if_pos hfull
      have hzero : limit - (found ++ [x]).length = 0 := by omega
      have heq : (found ++ [x]).length = limit := by omega
      rw [foldBreak, hstep, if_neg Bool.false_ne_true, hzero, List.take_zero, nextCursor, if_pos heq,
        List.getLast?_concat]
      rfl
    · have hstep : pageStep limit name (found, none) x = ((found ++ [x], none), true) :=
        if_neg hfull
      rw [foldBreak, hstep, if_pos rfl, ih (by omega), List.append_assoc, List.singleton_append]

end

/-! ## Running through a list -/

section
variable {ε : Type u} {γ κ : Type v} {α : Type w} [LinearOrder κ] {limit : ℕ} {name : α → κ}
  {step : γ → Option (Except ε (Option κ × List α))} {feed : κ → γ} {L : List α}

theorem filter_after_append {front rest : List α} {x : α}
    (hsorted : (front ++ x :: rest).Pairwise fun y z => name y < name z) :
    (front ++ x :: rest).filter (fun y => name x < name y) = rest := by
  have hparts := List.pairwise_append.mp hsorted
  have hrest := List.pairwise_cons.mp hparts.2.1
  have hfront : front.filter (fun y => decide (name x < name y)) = [] := by
    refine List.filter_eq_nil_iff.mpr fun y hy => ?_
    have hlt := hparts.2.2 y hy x (List.mem_cons_self ..)
    simpa using hlt.le
  rw [List.filter_append, hfront, List.nil_append,
    List.filter_cons_of_neg (by simp), List.filter_eq_self]
  intro y hy
  simpa using hrest.1 y hy

/-- Pages whose cursors stand for what follows them run through the list. -/
theorem iterates_of_pages (hlimit : 1 ≤ limit)
    (hsorted : L.Pairwise fun y z => name y < name z) (after : γ → List α)
    (hstep : ∀ c, step c = some (.ok (pageOf limit name (after c))))
    (hfeed : ∀ x ∈ L, (limit = 1 ∨ ∃ y ∈ L, name y < name x) →
      after (feed (name x)) = L.filter fun y => name x < name y)
    {c : γ} (hc : after c <:+ L) : Iterates step feed c (after c) := by
  induction hn : (after c).length using Nat.strong_induction_on generalizing c with
  | _ n ih =>
    by_cases hfull : ((after c).take limit).length = limit
    · have hne : (after c).take limit ≠ [] := by
        intro hnil
        rw [hnil, List.length_nil] at hfull
        omega
      obtain ⟨front, x, hpage⟩ := (List.eq_nil_or_concat ((after c).take limit)).resolve_left hne
      rw [List.concat_eq_append] at hpage
      obtain ⟨before, hbefore⟩ := hc
      have hsplit : after c = front ++ x :: (after c).drop limit := by
        conv_lhs => rw [← List.take_append_drop limit (after c), hpage]
        rw [List.append_assoc, List.singleton_append]
      have hall : L = (before ++ front) ++ x :: (after c).drop limit := by
        rw [← hbefore, List.append_assoc, ← hsplit]
      have hrest : after (feed (name x)) = (after c).drop limit := by
        refine (hfeed x (by rw [hall]; simp) ?_).trans ?_
        · cases front with
          | nil =>
            left
            rw [hpage] at hfull
            exact hfull.symm
          | cons y front =>
            right
            refine ⟨y, by rw [hall]; simp, ?_⟩
            rw [hall] at hsorted
            exact (List.pairwise_append.mp hsorted).2.2 y (by simp) x (by simp)
        · rw [hall] at hsorted ⊢
          exact filter_after_append hsorted
      have hcursor : step c = some (.ok (some (name x), (after c).take limit)) := by
        rw [hstep, pageOf, nextCursor, if_pos hfull, hpage, List.getLast?_concat]
        rfl
      have hlong : limit ≤ (after c).length := by
        rw [List.length_take] at hfull
        omega
      have hnext := ih ((after c).drop limit).length (by rw [List.length_drop]; omega)
        (c := feed (name x)) (by rw [hrest]; exact ⟨before ++ (after c).take limit, by
          rw [List.append_assoc, List.take_append_drop, hbefore]⟩) (by rw [hrest])
      rw [hrest] at hnext
      have hiter := Iterates.more hcursor hnext
      rwa [List.take_append_drop] at hiter
    · have hshort : (after c).take limit = after c := by
        refine List.take_of_length_le ?_
        rw [List.length_take] at hfull
        omega
      refine .last ?_
      rw [hstep, pageOf, nextCursor, if_neg hfull, hshort]

end

/-! ## Scanning the keys under a prefix -/

def cursorBound (pre : Bytes) (cursor : Option Bytes) : Bound Bytes :=
  match cursor with
  | some c => .excluded (pre ++ c)
  | none => .included pre

def pastCursor (cursor : Option Bytes) (name : Bytes) : Bool := cursor.all fun c => decide (c < name)

section
variable {σ : Type u} {α : Type v} {β : Type w} {pre : Bytes} {cursor : Option Bytes}

theorem pastCursor_some {c name : Bytes} : pastCursor (some c) name = true ↔ c < name := by
  rw [pastCursor, Option.all_some, decide_eq_true_iff]

theorem startsAt_cursorBound (pre name : Bytes) (cursor : Option Bytes) :
    (cursorBound pre cursor).startsAt (pre ++ name) = pastCursor cursor name := by
  cases cursor with
  | none => exact decide_eq_true (Bytes.le_append pre name)
  | some c => exact decide_eq_decide.mpr Bytes.append_lt_append_iff

theorem le_of_startsAt_cursorBound {k : Bytes} (h : (cursorBound pre cursor).startsAt k = true) :
    pre ≤ k := by
  cases cursor with
  | none => exact of_decide_eq_true h
  | some c =>
    simp only [cursorBound, Bound.startsAt, decide_eq_true_eq] at h
    exact (Bytes.le_append pre c).trans h.le

/-- A scan of a range that leaves at the first key without the prefix runs over the keys
under it. -/
theorem foldBreak_under {m : SortedMap Bytes β} {hi : Bound Bytes}
    (hhi : ∀ k, pre <+: k → hi.endsAt k = true) {step : σ → Bytes × β → σ × Bool}
    {step' : σ → α → σ × Bool} (sel : Bytes → β → Option α)
    (hstep : ∀ st x, step st x = if ¬pre <+: x.1 then (st, false)
      else ((sel (x.1.drop pre.length) x.2).map (step' st)).getD (st, true)) (st : σ) :
    foldBreak step st (m.range (cursorBound pre cursor) hi) =
      foldBreak step' st (((SortedMap.under pre m).entries.filter fun x =>
        pastCursor cursor x.1).filterMap fun x => sel x.1 x.2) := by
  rw [foldBreak_range_under (fun k => le_of_startsAt_cursorBound) sel hstep]
  congr 2
  refine List.filter_congr fun x _ => ?_
  rw [startsAt_cursorBound, hhi _ (List.prefix_append pre x.1), Bool.and_true]

end

/-- What is selected keeps its name, so names can be cut off after the selection. -/
theorem filterMap_filter_name {α : Type u} {β : Type v} {κ : Type w} {sel : κ × β → Option α}
    {name : α → κ} (hname : ∀ x y, sel x = some y → name y = x.1) (p : κ → Bool) (xs : List (κ × β)) :
    (xs.filter fun x => p x.1).filterMap sel = (xs.filterMap sel).filter fun y => p (name y) := by
  induction xs with
  | nil => rfl
  | cons x xs ih =>
    cases hsel : sel x with
    | none =>
      rw [List.filterMap_cons_none hsel, ← ih, List.filter_cons]
      split_ifs
      · rw [List.filterMap_cons_none hsel]
      · rfl
    | some y =>
      rw [List.filterMap_cons_some hsel, List.filter_cons, List.filter_cons, hname x y hsel, ← ih]
      split_ifs
      · rw [List.filterMap_cons_some hsel]
      · rfl
