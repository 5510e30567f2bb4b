import Wedb.Hash.Lex
import Wedb.KeyComposer.Glob
import Wedb.Ordered.Paging
import Wedb.Set.Impl

/-!
# Scans by cursor

A scan of a hash, a set or a sorted set returns a page of matching names and the last
name of a full page as the next cursor. Sets start from no cursor at all; hashes start
from the empty name, which is also what a page ending in the empty field hands out.
-/

namespace Wedb

/-- Room for a vector of the elements: `Vec::with_capacity` panics beyond `isize::MAX` bytes. -/
def vecFits (elementSize capacity : ℕ) : Bool := decide (capacity * elementSize < 2 ^ 63)

def vecSize : ℕ := 24
def fieldPairSize : ℕ := 48
def memberScoreSize : ℕ := 32

section
variable (s : Store) (kc : KeyComposer) (key : Key) (nowMs : UInt64)

def hscanStep (pre : Bytes) (hm : HashMeta) (nowMs : UInt64) (pattern : Option Bytes) (limit : ℕ)
    (matched : List HashFieldPair) (x : Bytes × Bytes) : List HashFieldPair × Bool :=
  if ¬pre <+: x.1 then (matched, false)
  else
    let field := x.1.drop pre.length
    match hm.decodeLiveSubkeyValue x.2 nowMs with
    | some (_, payload) =>
      if scanMatches pattern field then collectStep limit matched (field, payload)
      else (matched, true)
    | none => (matched, true)

def hscanByField (cursorField : Bytes) (limit : ℕ) (pattern : Option Bytes) :
    Option (Except Error (Option Bytes × List HashFieldPair)) :=
  if limit = 0 then some (.ok (none, []))
  else
    match getHashMeta s kc key nowMs with
    | .error err => some (.error err)
    | .ok none => some (.ok (none, []))
    | .ok (some hm) =>
      if hm.base.size > 0 then
        if hm.upper ≠ 0 ∧ nowMs > hm.upper ∧ hm.persist = 0 then some (.ok (none, []))
        else
          let pre := composeHashPrefix kc key
          let startRef := if cursorField.isEmpty then .included pre
            else .excluded (keyForField kc key cursorField)
          if vecFits fieldPairSize limit then
            let matched := foldBreak (hscanStep pre hm nowMs pattern limit) []
              (s.data.range startRef (prefixUpperBound pre))
            some (.ok (if matched.length = limit then matched.getLast?.map Prod.fst else none, matched))
          else none
      else some (.ok (none, []))

def memberStart (pre : Bytes) (cursor : Option Bytes) (keyOf : Bytes → Bytes) : Bound Bytes :=
  match cursor with
  | some c => .excluded (keyOf c)
  | none => .included pre

def memberLimit (count : Option ℕ) : ℕ := max (count.getD 10) 1

def sscanStep (pre : Bytes) (pattern : Option Bytes) (limit : ℕ) (st : List Bytes × Option Bytes)
    (x : Bytes × Bytes) : (List Bytes × Option Bytes) × Bool :=
  if ¬pre <+: x.1 then (st, false)
  else
    let member := x.1.drop pre.length
    if scanMatches pattern member then pageStep limit id st member else (st, true)

def sscanByMember (cursor : Option Bytes) (pattern : Option Bytes) (count : Option ℕ) :
    Option (Except Error (Option Bytes × List Bytes)) :=
  match getSetMeta s kc key nowMs with
  | .error err => some (.error err)
  | .ok none => some (.ok (none, []))
  | .ok (some m) =>
    if m.base.size > 0 then
      let limit := memberLimit count
      let pre := composeSetPrefix kc key
      if vecFits vecSize limit then
        let (matched, nextCursor) := foldBreak (sscanStep pre pattern limit) ([], none)
          (s.data.range (memberStart pre cursor (composeSetKey kc key)) .unbounded)
        some (.ok (nextCursor, matched))
      else none
    else some (.ok (none, []))

def zscanStep (pre : Bytes) (pattern : Option Bytes) (limit : ℕ)
    (st : List ZSetMemberScore × Option Bytes) (x : Bytes × Bytes) :
    (List ZSetMemberScore × Option Bytes) × Bool :=
  if ¬pre <+: x.1 then (st, false)
  else
    let member := x.1.drop pre.length
    if scanMatches pattern member then
      pageStep limit Prod.fst st (member, (decodeSortableF64Slice x.2).getD .zero)
    else (st, true)

def zscanByMember (cursor : Option Bytes) (pattern : Option Bytes) (count : Option ℕ) :
    Option (Except Error (Option Bytes × List ZSetMemberScore)) :=
  match getZsetMeta s kc key nowMs with
  | .error err => some (.error err)
  | .ok none => some (.ok (none, []))
  | .ok (some m) =>
    if m.base.size > 0 then
      let limit := memberLimit count
      let pre := composeZsetPrefix kc key
      if vecFits memberScoreSize limit then
        let (results, nextCursor) := foldBreak (zscanStep pre pattern limit) ([], none)
          (s.data.range (memberStart pre cursor (composeZsetKey kc key)) (prefixUpperBound pre))
        some (.ok (nextCursor, results))
      else none
    else some (.ok (none, []))

/-! ## What a scan should return -/

def matchingFields (pattern : Option Bytes) : Except Error (List HashFieldPair) :=
  (getHashMeta s kc key nowMs).map fun found =>
    match found with
    | none => []
    | some hm => (liveFields s kc key nowMs hm).filter fun x => scanMatches pattern x.1

def matchingMembers (pattern : Option Bytes) : Except Error (List Bytes) :=
  (getSetMeta s kc key nowMs).map fun found =>
    match found with
    | none => []
    | some _ => (setMembers s kc key).filter (scanMatches pattern)

def matchingScores (pattern : Option Bytes) : Except Error (List ZSetMemberScore) :=
  (getZsetMeta s kc key nowMs).map fun found =>
    match found with
    | none => []
    | some _ => ((s.family kc key .zSetData).entries.map fun x =>
        (x.1, (decodeSortableF64Slice x.2).getD .zero)).filter fun x => scanMatches pattern x.1

end

inductive CursorScan
  | hscanByField (limit : ℕ)
  | sscanByMember (count : Option ℕ)
  | zscanByMember (count : Option ℕ)

def CursorScan.limit : CursorScan → ℕ
  | hscanByField limit => limit
  | sscanByMember count | zscanByMember count => memberLimit count

section
variable (s : Store) (kc : KeyComposer) (key : Key) (nowMs : UInt64) (pattern : Option Bytes)

/-- Feeding cursors back from the start ends, with every match once and in order. -/
def CursorScan.Completes : CursorScan → Prop
  | hscanByField limit => ∀ xs, matchingFields s kc key nowMs pattern = .ok xs →
      Iterates (fun c => Wedb.hscanByField s kc key nowMs c limit pattern) id [] xs
  | sscanByMember count => ∀ xs, matchingMembers s kc key nowMs pattern = .ok xs →
      Iterates (fun c => Wedb.sscanByMember s kc key nowMs c pattern count) some none xs
  | zscanByMember count => ∀ xs, matchingScores s kc key nowMs pattern = .ok xs →
      Iterates (fun c => Wedb.zscanByMember s kc key nowMs c pattern count) some none xs

/-- A page fits its vector, and a hash is not read one field at a time from an empty
name on, nor turned away with fields that match. -/
def CursorScan.Safe : CursorScan → Prop
  | hscanByField limit => ∀ hm, getHashMeta s kc key nowMs = .ok (some hm) →
      let fields := (liveFields s kc key nowMs hm).filter fun x => scanMatches pattern x.1
      if hm.sendsAway nowMs then fields = []
      else vecFits fieldPairSize limit = true ∧ ¬(limit = 1 ∧ ∃ x ∈ fields, x.1 = [])
  | sscanByMember count => ∀ m, getSetMeta s kc key nowMs = .ok (some m) →
      vecFits vecSize (memberLimit count) = true
  | zscanByMember count => ∀ m, getZsetMeta s kc key nowMs = .ok (some m) →
      vecFits memberScoreSize (memberLimit count) = true

end

variable {s : Store} {kc : KeyComposer} {key : Key} {now : UInt64} {pattern : Option Bytes}

/-! ## Pages -/

theorem prefixUpperBound_endsAt (pre : Bytes) : ∀ k, pre <+: k → (prefixUpperBound pre).endsAt k = true :=
  fun k hk => (endsAt_prefixUpperBound pre k).mpr (Or.inr hk)

theorem memberStart_eq (kc : KeyComposer) (key : Key) (tag : KeyTag) (cursor : Option Bytes) :
    memberStart (kc.composePrefixStack tag.asSlice key.bytes) cursor
        (kc.composeSubkeyStack tag.asSlice key.bytes) =
      cursorBound (kc.composePrefixStack tag.asSlice key.bytes) cursor := by
  cases cursor with
  | none => rfl
  | some c => exact congrArg Bound.excluded (KeyComposer.composeSubkeyStack_eq kc _ _ c)

def hashCursor (cursorField : Bytes) : Option Bytes :=
  if cursorField.isEmpty then none else some cursorField

section
variable {hm : HashMeta} {limit : ℕ}

theorem hscanByField_page (hlimit : 1 ≤ limit) (hget : getHashMeta s kc key now = .ok (some hm))
    (hshown : ¬hm.sendsAway now) (hfits : vecFits fieldPairSize limit = true) (c : Bytes) :
    hscanByField s kc key now c limit pattern = some (.ok (pageOf limit Prod.fst
      (((liveFields s kc key now hm).filter fun x => scanMatches pattern x.1).filter fun x =>
        pastCursor (hashCursor c) x.1))) := by
  rw [HashMeta.sendsAway, not_or, not_not] at hshown
  have hstart : (if c.isEmpty then Bound.included (composeHashPrefix kc key)
      else .excluded (keyForField kc key c)) = cursorBound (composeHashPrefix kc key) (hashCursor c) := by
    rw [hashCursor]
    split_ifs <;> rfl
  have hstep : ∀ st x, hscanStep (composeHashPrefix kc key) hm now pattern limit st x =
      if ¬composeHashPrefix kc key <+: x.1 then (st, false)
      else ((((hm.decodeLiveSubkeyValue x.2 now).map fun y =>
        (x.1.drop (composeHashPrefix kc key).length, y.2)).filter fun y =>
          scanMatches pattern y.1).map (collectStep limit st)).getD (st, true) := by
    intro st x
    rw [hscanStep]
    by_cases hp : composeHashPrefix kc key <+: x.1
    · rw [if_neg (not_not.mpr hp), if_neg (not_not.mpr hp)]
      cases hm.decodeLiveSubkeyValue x.2 now with
      | none => rfl
      | some y =>
        simp only [Option.map_some, Option.filter_some]
        split_ifs <;> rfl
    · rw [if_pos hp, if_pos hp]
  have hname : ∀ (x : Bytes × Bytes) (y : HashFieldPair), (((hm.decodeLiveSubkeyValue x.2 now).map
      fun z => (x.1, z.2)).filter fun z => scanMatches pattern z.1) = some y → y.1 = x.1 := by
    intro x y hy
    obtain ⟨z, -, rfl⟩ := Option.map_eq_some_iff.mp (Option.filter_eq_some_iff.mp hy).1
    rfl
  rw [hscanByField, if_neg (by omega), hget]
  simp only [if_pos hshown.1, if_neg hshown.2, if_pos hfits, hstart]
  rw [foldBreak_under (prefixUpperBound_endsAt _) (fun name raw =>
    ((hm.decodeLiveSubkeyValue raw now).map fun y => (name, y.2)).filter fun y =>
      scanMatches pattern y.1) hstep, foldBreak_collectStep (show ([] : List HashFieldPair).length < limit from hlimit)]
  rw [filterMap_filter_name hname, ← List.filter_filterMap]
  rfl

end

section
variable {α : Type} {limit : ℕ} {count : Option ℕ}

variable (s kc key pattern) in
theorem foldBreak_memberPage (tag : KeyTag) (cursor : Option Bytes) (hi : Bound Bytes)
    (name : α → Bytes) (item : Bytes × Bytes → α)
    (step : List α × Option Bytes → Bytes × Bytes → (List α × Option Bytes) × Bool) (hlimit : 1 ≤ limit)
    (hhi : ∀ k, kc.composePrefixStack tag.asSlice key.bytes <+: k → hi.endsAt k = true)
    (hname : ∀ x, name (item x) = x.1)
    (hstep : ∀ st x, step st x = if ¬kc.composePrefixStack tag.asSlice key.bytes <+: x.1 then (st, false)
      else if scanMatches pattern (x.1.drop (kc.composePrefixStack tag.asSlice key.bytes).length) then
        pageStep limit name st
          (item (x.1.drop (kc.composePrefixStack tag.asSlice key.bytes).length, x.2))
      else (st, true)) :
    foldBreak step ([], none) (s.data.range (memberStart (kc.composePrefixStack tag.asSlice key.bytes)
        cursor (kc.composeSubkeyStack tag.asSlice key.bytes)) hi) =
      (pageOf limit name ((((s.family kc key tag).entries.map item).filter fun y =>
        scanMatches pattern (name y)).filter fun y => pastCursor cursor (name y))).swap := by
  set sel : Bytes → Bytes → Option α := fun n raw =>
    (some (item (n, raw))).filter fun y => scanMatches pattern (name y) with hsel
  have hstep' : ∀ st x, step st x = if ¬kc.composePrefixStack tag.asSlice key.bytes <+: x.1
      then (st, false) else ((sel (x.1.drop (kc.composePrefixStack tag.asSlice key.bytes).length)
        x.2).map (pageStep limit name st)).getD (st, true) := by
    intro st x
    rw [hstep, hsel]
    simp only [Option.filter_some, hname]
    split_ifs <;> rfl
  have hkept : ∀ (x : Bytes × Bytes) (y : α), sel x.1 x.2 = some y → name y = x.1 := by
    intro x y hy
    rw [← Option.some.inj (Option.filter_eq_some_iff.mp hy).1, hname]
  have hselect : ((s.family kc key tag).entries.filterMap fun x => sel x.1 x.2) =
      ((s.family kc key tag).entries.map item).filter fun y => scanMatches pattern (name y) := by
    rw [← List.filterMap_eq_filter, List.filterMap_map]
    rfl
  have hempty : ([] : List α).length < limit := hlimit
  rw [memberStart_eq, foldBreak_under hhi sel hstep', foldBreak_pageStep hempty,
    filterMap_filter_name hkept, ← Store.family, hselect]
  rfl

theorem memberLimit_pos (count : Option ℕ) : 1 ≤ memberLimit count := le_max_right _ _

theorem sscanByMember_page {m : SetMeta} (hget : getSetMeta s kc key now = .ok (some m))
    (hfits : vecFits vecSize (memberLimit count) = true) (c : Option Bytes) :
    sscanByMember s kc key now c pattern count = some (.ok (pageOf (memberLimit count) id
      (((setMembers s kc key).filter (scanMatches pattern)).filter fun x => pastCursor c x))) := by
  have hsize : m.base.size > 0 := UInt64.pos_iff_ne_zero.mpr (size_ne_zero_of_getSetMeta hget)
  have hpage := foldBreak_memberPage s kc key pattern .setData c .unbounded id Prod.fst
    (sscanStep (composeSetPrefix kc key) pattern (memberLimit count)) (memberLimit_pos count)
    (fun k _ => rfl) (fun x => rfl) (fun st x => rfl)
  rw [sscanByMember, hget]
  simp only [if_pos hsize, if_pos hfits]
  exact congrArg (fun page : List Bytes × Option Bytes => some (Except.ok (page.2, page.1))) hpage

theorem size_pos_of_getZsetMeta {m : ZSetMeta} (hget : getZsetMeta s kc key now = .ok (some m)) :
    m.base.size > 0 := by
  rw [getZsetMeta] at hget
  obtain ⟨found, -, hget⟩ := bind_eq_ok hget
  have hkept := (Option.filter_eq_some_iff.mp (Except.ok.inj hget)).2
  exact UInt64.pos_iff_ne_zero.mpr (by simpa [SimpleMeta.isEmpty] using hkept)

theorem zscanByMember_page {m : ZSetMeta} (hget : getZsetMeta s kc key now = .ok (some m))
    (hfits : vecFits memberScoreSize (memberLimit count) = true) (c : Option Bytes) :
    zscanByMember s kc key now c pattern count = some (.ok (pageOf (memberLimit count) Prod.fst
      ((((s.family kc key .zSetData).entries.map fun x =>
        (x.1, (decodeSortableF64Slice x.2).getD .zero)).filter fun x => scanMatches pattern x.1).filter
          fun x => pastCursor c x.1))) := by
  have hsize := size_pos_of_getZsetMeta hget
  have hpage := foldBreak_memberPage s kc key pattern .zSetData c (prefixUpperBound _) Prod.fst
    (fun x => (x.1, (decodeSortableF64Slice x.2).getD .zero))
    (zscanStep (composeZsetPrefix kc key) pattern (memberLimit count)) (memberLimit_pos count)
    (prefixUpperBound_endsAt _) (fun x => rfl) (fun st x => rfl)
  rw [zscanByMember, hget]
  simp only [if_pos hsize, if_pos hfits]
  exact congrArg (fun page : List ZSetMemberScore × Option Bytes => some (Except.ok (page.2, page.1))) hpage

/-! ## Running a scan -/

theorem pastCursor_eq_decide {c name : Bytes} {_ : Decidable (c < name)} :
    pastCursor (some c) name = decide (c < name) := by
  rw [Bool.eq_iff_iff, pastCursor_some, decide_eq_true_iff]

/-- A scan whose cursors are the names themselves ends with every match. -/
theorem iterates_members {α : Type} {name : α → Bytes} {limit : ℕ} {xs : List α}
    {step : Option Bytes → Option (Except Error (Option Bytes × List α))} (hlimit : 1 ≤ limit)
    (hsorted : xs.Pairwise fun x y => name x < name y)
    (hstep : ∀ c, step c = some (.ok (pageOf limit name (xs.filter fun x => pastCursor c (name x))))) :
    Iterates step some none xs := by
  have hall : (xs.filter fun x => pastCursor none (name x)) = xs :=
    List.filter_eq_self.mpr fun x _ => rfl
  have hrun : Iterates step some none (xs.filter fun x => pastCursor none (name x)) :=
    iterates_of_pages hlimit hsorted (fun c => xs.filter fun x => pastCursor c (name x)) hstep
      (fun x _ _ => List.filter_congr fun y _ => pastCursor_eq_decide) (by rw [hall])
  rwa [hall] at hrun

theorem hashCursor_of_ne {f : Bytes} (h : f ≠ []) : hashCursor f = some f :=
  if_neg (by simpa using h)

/-- A scan of fields ends with every match unless it is read one at a time from an empty
name on. -/
theorem iterates_fields {limit : ℕ} {xs : List HashFieldPair}
    {step : Bytes → Option (Except Error (Option Bytes × List HashFieldPair))} (hlimit : 1 ≤ limit)
    (hsorted : xs.Pairwise fun x y => x.1 < y.1)
    (hstep : ∀ c, step c = some (.ok (pageOf limit Prod.fst
      (xs.filter fun x => pastCursor (hashCursor c) x.1)))) :
    Iterates step id [] xs ↔ ¬(limit = 1 ∧ ∃ x ∈ xs, x.1 = []) := by
  have hall : (xs.filter fun x => pastCursor (hashCursor []) x.1) = xs :=
    List.filter_eq_self.mpr fun x _ => rfl
  constructor
  · rintro hrun ⟨rfl, x, hx, hempty⟩
    cases xs with
    | nil => cases hx
    | cons y ys =>
      have hfirst : y.1 = [] := by
        rcases List.mem_cons.mp hx with rfl | hx
        · exact hempty
        · have hlt := (List.pairwise_cons.mp hsorted).1 x hx
          rw [hempty] at hlt
          exact absurd hlt (List.not_lt_nil _)
      have hpage := hstep []
      rw [hall, pageOf, List.take_succ_cons, List.take_zero, nextCursor, if_pos List.length_singleton] at hpage
      refine Iterates.not_of_feed hpage ?_ hrun
      exact hfirst
  · intro hsafe
    have hrun : Iterates step id [] (xs.filter fun x => pastCursor (hashCursor []) x.1) :=
      iterates_of_pages hlimit hsorted (fun c => xs.filter fun x => pastCursor (hashCursor c) x.1)
        hstep (fun x hx hlater => ?_) (by rw [hall])
    · rwa [hall] at hrun
    · have hne : x.1 ≠ [] := by
        intro h0
        rcases hlater with hone | ⟨y, -, hlt⟩
        · exact hsafe ⟨hone, x, hx, h0⟩
        · rw [h0] at hlt
          exact absurd hlt (List.not_lt_nil _)
      rw [id_eq, hashCursor_of_ne hne]
      exact List.filter_congr fun y _ => pastCursor_eq_decide

end

theorem hscan_completes_iff {limit : ℕ} (hlimit : 1 ≤ limit) :
    (CursorScan.hscanByField limit).Completes s kc key now pattern ↔
      (CursorScan.hscanByField limit).Safe s kc key now pattern := by
  cases hget : getHashMeta s kc key now with
  | error err =>
    refine iff_of_true (fun xs hxs => ?_) (fun hm hfound => ?_)
    · rw [matchingFields, hget] at hxs
      cases hxs
    · rw [hget] at hfound
      cases hfound
  | ok found =>
    cases found with
    | none =>
      refine iff_of_true (fun xs hxs => ?_) (fun hm hfound => ?_)
      · rw [matchingFields, hget] at hxs
        cases hxs
        exact .last (by rw [hscanByField, if_neg (by omega), hget])
      · rw [hget] at hfound
        cases hfound
    | some hm =>
      set fields := (liveFields s kc key now hm).filter fun x => scanMatches pattern x.1 with hfields
      have hexpect : matchingFields s kc key now pattern = .ok fields := by
        rw [matchingFields, hget]
        rfl
      have hsafe : (CursorScan.hscanByField limit).Safe s kc key now pattern ↔
          if hm.sendsAway now then fields = []
          else vecFits fieldPairSize limit = true ∧ ¬(limit = 1 ∧ ∃ x ∈ fields, x.1 = []) := by
        constructor
        · exact fun h => h hm hget
        · intro h hm' hget'
          rw [hget, Except.ok.injEq, Option.some.injEq] at hget'
          subst hget'
          exact h
      have hdone : (CursorScan.hscanByField limit).Completes s kc key now pattern ↔
          Iterates (fun c => hscanByField s kc key now c limit pattern) id [] fields := by
        constructor
        · exact fun h => h fields hexpect
        · intro h xs hxs
          rw [hexpect, Except.ok.injEq] at hxs
          exact hxs ▸ h
      rw [hsafe, hdone]
      by_cases haway : hm.sendsAway now
      · have hlast : hscanByField s kc key now [] limit pattern = some (.ok (none, [])) := by
          rw [hscanByField, if_neg (by omega), hget]
          rcases haway with hsize | hexp
          · simp only [if_neg hsize]
          · simp only [if_pos hexp, ite_self]
        rw [if_pos haway]
        refine ⟨fun hrun => ?_, fun hnil => hnil ▸ .last hlast⟩
        refine Iterates.eq_of_last (c := []) ?_ hrun
        exact hlast
      · rw [if_neg haway]
        by_cases hfits : vecFits fieldPairSize limit = true
        · have hsorted : fields.Pairwise fun x y => x.1 < y.1 :=
            (liveFields_sorted s kc key now hm).filter _
          rw [iterates_fields hlimit hsorted (hscanByField_page hlimit hget haway hfits)]
          exact ⟨fun hrun => ⟨hfits, hrun⟩, And.right⟩
        · refine iff_of_false (fun hrun => ?_) (fun hsafe => hfits hsafe.1)
          obtain ⟨page, hpage⟩ := hrun.step_ok
          have hsize : hm.base.size > 0 := by
            by_contra hsize
            exact haway (Or.inl hsize)
          have hshown : ¬(hm.upper ≠ 0 ∧ now > hm.upper ∧ hm.persist = 0) := fun h => haway (Or.inr h)
          rw [hscanByField, if_neg (by omega), hget] at hpage
          simp only [if_pos hsize, if_neg hshown, if_neg hfits] at hpage
          cases hpage

/-- Scans by cursor are complete, but for a hash with an empty name read one field at a
time. -/
theorem cursorScan_completes_iff (s : Store) (kc : KeyComposer) (key : Key) (now : UInt64)
    (pattern : Option Bytes) (scan : CursorScan) (hlimit : 1 ≤ scan.limit) :
    scan.Completes s kc key now pattern ↔ scan.Safe s kc key now pattern := by
  cases scan with
  | hscanByField limit => exact hscan_completes_iff hlimit
  | sscanByMember count =>
    constructor
    · intro hrun m hget
      by_contra hfits
      have hnone : Wedb.sscanByMember s kc key now none pattern count = none := by
        have hsize : m.base.size > 0 :=
          UInt64.pos_iff_ne_zero.mpr (size_ne_zero_of_getSetMeta hget)
        rw [Wedb.sscanByMember, hget]
        simp only [if_pos hsize, if_neg hfits]
      have hmatch := hrun ((setMembers s kc key).filter (scanMatches pattern)) (by
        rw [matchingMembers, hget]
        rfl)
      obtain ⟨page, hpage⟩ := hmatch.step_ok
      rw [hnone] at hpage
      cases hpage
    · intro hsafe xs hxs
      cases hget : getSetMeta s kc key now with
      | error err =>
        rw [matchingMembers, hget] at hxs
        cases hxs
      | ok found =>
        rw [matchingMembers, hget] at hxs
        cases found with
        | none =>
          cases hxs
          exact .last (by rw [Wedb.sscanByMember, hget])
        | some m =>
          cases hxs
          exact iterates_members hlimit ((setMembers_sorted s kc key).filter _)
            (sscanByMember_page hget (hsafe m hget))
  | zscanByMember count =>
    constructor
    · intro hrun m hget
      by_contra hfits
      have hnone : Wedb.zscanByMember s kc key now none pattern count = none := by
        rw [Wedb.zscanByMember, hget]
        simp only [if_pos (size_pos_of_getZsetMeta hget), if_neg hfits]
      have hmatch := hrun _ (by
        rw [matchingScores, hget]
        rfl)
      obtain ⟨page, hpage⟩ := hmatch.step_ok
      rw [hnone] at hpage
      cases hpage
    · intro hsafe xs hxs
      cases hget : getZsetMeta s kc key now with
      | error err =>
        rw [matchingScores, hget] at hxs
        cases hxs
      | ok found =>
        rw [matchingScores, hget] at hxs
        cases found with
        | none =>
          cases hxs
          exact .last (by rw [Wedb.zscanByMember, hget])
        | some m =>
          cases hxs
          have hsorted : ((s.family kc key .zSetData).entries.map fun x =>
              (x.1, (decodeSortableF64Slice x.2).getD F64.zero)).Pairwise fun x y => x.1 < y.1 :=
            List.pairwise_map.mpr (s.family kc key .zSetData).sorted
          exact iterates_members hlimit (hsorted.filter _) (zscanByMember_page hget (hsafe m hget))

def sampleEmptyField : HashCall :=
  ⟨⟨0, 0⟩, sampleKey, 1, 1, .hset [([], [1]), ([97], [2])]⟩

theorem cursorScan_completes_iff_sample :
    ∃ e, HashReachable (fun _ => none) (fun _ _ => true) e ∧
      ((CursorScan.hscanByField 2).Completes e.store ⟨0, 0⟩ sampleKey 2 none ↔
        (CursorScan.hscanByField 2).Safe e.store ⟨0, 0⟩ sampleKey 2 none) := by
  have hrun : (replay (fun _ => none) (fun _ _ => true) .empty [sampleEmptyField]).isSome = true := by
    decide +kernel
  obtain ⟨e, he⟩ := Option.isSome_iff_exists.mp hrun
  exact ⟨e, .replay .start he, cursorScan_completes_iff e.store ⟨0, 0⟩ sampleKey 2 none
    (.hscanByField 2) (by decide)⟩

/-- Read one field at a time, a hash with an empty field is read for ever. -/
theorem hscanByField_restarts :
    ∃ e, HashReachable (fun _ => none) (fun _ _ => true) e ∧
      ¬(CursorScan.hscanByField 1).Completes e.store ⟨0, 0⟩ sampleKey 2 none := by
  have hrun : (replay (fun _ => none) (fun _ _ => true) .empty [sampleEmptyField]).map (fun e =>
      (((hscanByField e.store ⟨0, 0⟩ sampleKey 2 [] 1 none).bind Except.toOption).map Prod.fst,
        (matchingFields e.store ⟨0, 0⟩ sampleKey 2 none).toOption.isSome)) =
        some (some (some []), true) := by
    decide +kernel
  obtain ⟨e, he, hboth⟩ := Option.map_eq_some_iff.mp hrun
  rw [Prod.mk.injEq] at hboth
  obtain ⟨hcursor, hmatch⟩ := hboth
  refine ⟨e, .replay .start he, fun hcomplete => ?_⟩
  obtain ⟨⟨cursor, items⟩, hpage, hempty⟩ := Option.map_eq_some_iff.mp hcursor
  obtain ⟨answer, hanswer, hok⟩ := Option.bind_eq_some_iff.mp hpage
  cases hempty
  cases answer with
  | error err => cases hok
  | ok page =>
    cases hok
    cases hfields : matchingFields e.store ⟨0, 0⟩ sampleKey 2 none with
    | error err =>
      rw [hfields] at hmatch
      cases hmatch
    | ok xs =>
      exact @Iterates.not_of_feed Error Bytes Bytes HashFieldPair
        (fun c => hscanByField e.store ⟨0, 0⟩ sampleKey 2 c 1 none) id [] [] items xs hanswer rfl
        (hcomplete xs hfields)

end Wedb
