import Wedb.Ordered.ByteString
import Wedb.Ordered.Subsequence

/-!
# Glob patterns

A pattern is read from the left: a star tries every suffix of the text, a set reads
up to its closing bracket. Each step takes a byte of the pattern, so as many steps
as the pattern has bytes are enough.
-/

namespace Wedb

def globSet (c : UInt8) : Bytes → Bool → Option (Bytes × Bool)
  | [], _ => none
  | [p], found => if p = 93 then some ([], found) else none
  | [p, q], found =>
    if p = 92 then globSet c [] (found || q == c)
    else if p = 93 then some ([q], found)
    else globSet c [q] (found || p == c)
  | p :: q :: r :: rest, found =>
    if p = 92 then globSet c (r :: rest) (found || q == c)
    else if p = 93 then some (q :: r :: rest, found)
    else if q = 45 ∧ r ≠ 93 then
      globSet c rest (found || decide (p ≤ c ∧ c ≤ r) || decide (r ≤ c ∧ c ≤ p))
    else globSet c (q :: r :: rest) (found || p == c)

def matchesGlobSteps : ℕ → Bytes → Bytes → Bool
  | _, [], text => text.isEmpty
  | 0, _ :: _, _ => false
  | steps + 1, p :: pattern, text =>
    if p = 42 then
      let pattern := pattern.dropWhile (· == 42)
      pattern.isEmpty || text.tails.any fun text => matchesGlobSteps steps pattern text
    else
      match text with
      | [] => false
      | c :: text =>
        if p = 63 then matchesGlobSteps steps pattern text
        else if p = 91 then
          let negated := pattern.head?.any fun q => q == 94 || q == 33
          match globSet c (if negated then pattern.drop 1 else pattern) false with
          | none => false
          | some (pattern, found) => (found != negated) && matchesGlobSteps steps pattern text
        else if p = 92 then
          match pattern with
          | [] => c == 92 && matchesGlobSteps steps [] text
          | q :: pattern => q == c && matchesGlobSteps steps pattern text
        else p == c && matchesGlobSteps steps pattern text

def matchesGlobBytes (pattern text : Bytes) : Bool := matchesGlobSteps pattern.length pattern text

def scanMatches (pattern : Option Bytes) (name : Bytes) : Bool :=
  pattern.all (· == [42]) || matchesGlobBytes (pattern.getD [42]) name

example : matchesGlobBytes [97, 42, 91, 48, 45, 57, 93] [97, 98, 99, 53] = true := by decide

/-!
## What a glob pattern says

A pattern is a sequence of items, and a text matches it when the items split the text
among them.
-/

section

inductive GlobMember
  | byte (b : UInt8)
  | range (b e : UInt8)

/-- A range may be written from either end. -/
def GlobMember.Has (c : UInt8) : GlobMember → Prop
  | byte b => b = c
  | range b e => b ≤ c ∧ c ≤ e ∨ e ≤ c ∧ c ≤ b

inductive GlobItem
  | star
  | any
  | oneOf (members : List GlobMember)
  | noneOf (members : List GlobMember)
  | byte (b : UInt8)
  | unterminated

def GlobItem.Takes : GlobItem → Bytes → Prop
  | star, _ => True
  | any, part => ∃ c, part = [c] ∧ True
  | oneOf members, part => ∃ c, part = [c] ∧ ∃ m ∈ members, m.Has c
  | noneOf members, part => ∃ c, part = [c] ∧ ¬∃ m ∈ members, m.Has c
  | byte b, part => ∃ c, part = [c] ∧ b = c
  | unterminated, _ => False

def globMembers : Bytes → Option (List GlobMember × Bytes)
  | [] => none
  | [p] => if p = 93 then some ([], []) else none
  | [p, q] =>
    if p = 92 then none
    else if p = 93 then some ([], [q])
    else (globMembers [q]).map fun rest => (.byte p :: rest.1, rest.2)
  | p :: q :: r :: pattern =>
    if p = 92 then (globMembers (r :: pattern)).map fun rest => (.byte q :: rest.1, rest.2)
    else if p = 93 then some ([], q :: r :: pattern)
    else if q = 45 ∧ r ≠ 93 then
      (globMembers pattern).map fun rest => (.range p r :: rest.1, rest.2)
    else (globMembers (q :: r :: pattern)).map fun rest => (.byte p :: rest.1, rest.2)

instance (c : UInt8) : (m : GlobMember) → Decidable (m.Has c)
  | .byte b => inferInstanceAs (Decidable (b = c))
  | .range b e => inferInstanceAs (Decidable (b ≤ c ∧ c ≤ e ∨ e ≤ c ∧ c ≤ b))

@[simp]
theorem GlobMember.has_byte (c b : UInt8) : (byte b).Has c ↔ b = c := Iff.rfl

@[simp]
theorem GlobMember.has_range (c b e : UInt8) :
    (range b e).Has c ↔ b ≤ c ∧ c ≤ e ∨ e ≤ c ∧ c ≤ b := Iff.rfl

theorem globMembers_length (pattern : Bytes) :
    ∀ rest ∈ globMembers pattern, rest.2.length < pattern.length := by
  intro rest h
  induction pattern using globMembers.induct generalizing rest with
  | case1 => simp [globMembers] at h
  | case2 =>
    simp only [globMembers, if_true, Option.mem_def, Option.some.injEq] at h
    simp [← h]
  | case3 p hp => simp [globMembers, hp] at h
  | case4 q => simp [globMembers] at h
  | case5 q hp =>
    simp only [globMembers, if_neg hp, if_true, Option.mem_def, Option.some.injEq] at h
    simp [← h]
  | case6 p q hp hq ih =>
    simp only [globMembers, hp, hq, if_false, Option.mem_def, Option.map_eq_some_iff] at h
    obtain ⟨tail, htail, rfl⟩ := h
    have hlen := ih tail htail
    simp only [List.length_cons] at hlen ⊢
    omega
  | case7 q r pattern ih =>
    simp only [globMembers, if_true, Option.mem_def, Option.map_eq_some_iff] at h
    obtain ⟨tail, htail, rfl⟩ := h
    have hlen := ih tail htail
    simp only [List.length_cons] at hlen ⊢
    omega
  | case8 q r pattern hp =>
    simp only [globMembers, if_neg hp, if_true, Option.mem_def, Option.some.injEq] at h
    simp [← h]
  | case9 p q r pattern hp hp' hq ih =>
    simp only [globMembers, hp, hp', hq, ne_eq, not_false_eq_true, and_self, if_false, if_true,
      Option.mem_def, Option.map_eq_some_iff] at h
    obtain ⟨tail, htail, rfl⟩ := h
    have hlen := ih tail htail
    simp only [List.length_cons] at hlen ⊢
    omega
  | case10 p q r pattern hp hp' hq ih =>
    simp only [globMembers, hp, hp', hq, if_false, Option.mem_def, Option.map_eq_some_iff] at h
    obtain ⟨tail, htail, rfl⟩ := h
    have hlen := ih tail htail
    simp only [List.length_cons] at hlen ⊢
    omega

def globItems (negators : List UInt8) : Bytes → List GlobItem
  | [] => []
  | p :: pattern =>
    if p = 42 then .star :: globItems negators pattern
    else if p = 63 then .any :: globItems negators pattern
    else if p = 91 then
      let negated := pattern.head?.any negators.contains
      match _hset : globMembers (if negated then pattern.drop 1 else pattern) with
      | none => [.unterminated]
      | some (members, rest) =>
        (if negated then .noneOf members else .oneOf members) :: globItems negators rest
    else if p = 92 then
      match pattern with
      | [] => [.byte 92]
      | q :: pattern => .byte q :: globItems negators pattern
    else .byte p :: globItems negators pattern
termination_by pattern => pattern.length
decreasing_by
  all_goals simp only [List.length_cons]
  any_goals omega
  have hlen := globMembers_length _ _ _hset
  split at hlen <;> simp only [List.length_drop] at hlen <;> omega

theorem globSet_eq (c : UInt8) (pattern : Bytes) (found : Bool) :
    globSet c pattern found = (globMembers pattern).map fun rest =>
      (rest.2, found || rest.1.any fun m => decide (m.Has c)) := by
  induction pattern, found using globSet.induct c with
  | case1 => simp [globMembers, globSet]
  | case2 found => simp [globMembers, globSet]
  | case3 p found hp => simp [globMembers, globSet, hp]
  | case4 q found ih => simp [globMembers, globSet]
  | case5 q found => simp [globMembers, globSet]
  | case6 p q found hp hp' ih =>
    rw [globSet, if_neg hp, if_neg hp', ih, @globMembers.eq_3 p q, if_neg hp, if_neg hp',
      Option.map_map]
    simp [Function.comp_def, Bool.or_assoc, beq_eq_decide]
  | case7 q r pattern found ih =>
    rw [globSet, if_pos rfl, ih, globMembers, if_pos rfl, Option.map_map]
    simp [Function.comp_def, Bool.or_assoc, beq_eq_decide]
  | case8 q r pattern found => simp [globMembers, globSet]
  | case9 p q r pattern found hp hp' hq ih =>
    rw [globSet, if_neg hp, if_neg hp', if_pos hq, ih, globMembers, if_neg hp, if_neg hp',
      if_pos hq, Option.map_map]
    simp [Function.comp_def, Bool.or_assoc]
  | case10 p q r pattern found hp hp' hq ih =>
    rw [globSet, if_neg hp, if_neg hp', if_neg hq, ih, globMembers, if_neg hp, if_neg hp',
      if_neg hq, Option.map_map]
    simp [Function.comp_def, Bool.or_assoc, beq_eq_decide]

variable {negators : List UInt8} {p q : UInt8} {pattern text : Bytes}

theorem globItems_star :
    globItems negators (42 :: pattern) = .star :: globItems negators pattern := by
  rw [globItems.eq_def]
  rfl

theorem globItems_any :
    globItems negators (63 :: pattern) = .any :: globItems negators pattern := by
  rw [globItems.eq_def]
  rfl

theorem globItems_escaped :
    globItems negators (92 :: q :: pattern) = .byte q :: globItems negators pattern := by
  rw [globItems.eq_def]
  rfl

theorem globItems_byte (hstar : p ≠ 42) (hany : p ≠ 63) (hset : p ≠ 91) (hescape : p ≠ 92) :
    globItems negators (p :: pattern) = .byte p :: globItems negators pattern := by
  rw [globItems.eq_def]
  simp only [hstar, hany, hset, hescape, if_false]

theorem globItems_unterminated
    (hset : globMembers (if pattern.head?.any negators.contains then pattern.drop 1 else pattern) =
      none) :
    globItems negators (91 :: pattern) = [.unterminated] := by
  rw [globItems.eq_def]
  simp only [show (91 : UInt8) ≠ 42 by decide, show (91 : UInt8) ≠ 63 by decide, if_false, if_true]
  split
  · rfl
  · simp_all

theorem globItems_set {members : List GlobMember} {rest : Bytes}
    (hset : globMembers (if pattern.head?.any negators.contains then pattern.drop 1 else pattern) =
      some (members, rest)) :
    globItems negators (91 :: pattern) =
      (if pattern.head?.any negators.contains then .noneOf members else .oneOf members) ::
        globItems negators rest := by
  rw [globItems.eq_def]
  simp only [show (91 : UInt8) ≠ 42 by decide, show (91 : UInt8) ≠ 63 by decide, if_false, if_true]
  split
  · simp_all
  · simp_all

variable (negators) in
abbrev GlobSplits (pattern text : Bytes) : Prop :=
  SplitsAs GlobItem.Takes (globItems negators pattern) text

theorem globSplits_nil : GlobSplits negators [] text ↔ text = [] := by
  rw [GlobSplits, globItems, splitsAs_nil]

theorem globSplits_stars :
    GlobSplits negators (42 :: pattern) text ↔
      ∃ rest ∈ text.tails, GlobSplits negators (pattern.dropWhile (· == 42)) rest := by
  induction pattern generalizing text with
  | nil =>
    rw [GlobSplits, globItems_star, splitsAs_cons_of_all (fun _ => trivial)]
    rfl
  | cons p pattern ih =>
    rw [GlobSplits, globItems_star, splitsAs_cons_of_all (fun _ => trivial)]
    by_cases hp : p = 42
    · subst hp
      simp only [ih, List.mem_tails, List.dropWhile_cons_of_pos, beq_self_eq_true]
      constructor
      · intro h
        obtain ⟨middle, hmiddle, rest, hrest, hsplits⟩ := h
        exact ⟨rest, hrest.trans hmiddle, hsplits⟩
      · intro h
        obtain ⟨rest, hrest, hsplits⟩ := h
        exact ⟨text, List.suffix_refl text, rest, hrest, hsplits⟩
    · rw [List.dropWhile_cons_of_neg (by simpa using hp)]

theorem globSplits_any (c : UInt8) :
    GlobSplits negators (63 :: pattern) (c :: text) ↔ GlobSplits negators pattern text := by
  rw [GlobSplits, globItems_any, splitsAs_cons_of_letter (fun _ => Iff.rfl)]
  simp

theorem globSplits_escaped (c : UInt8) :
    GlobSplits negators (92 :: q :: pattern) (c :: text) ↔
      q = c ∧ GlobSplits negators pattern text := by
  rw [GlobSplits, globItems_escaped, splitsAs_cons_of_letter (fun _ => Iff.rfl)]
  simp [eq_comm]

theorem globSplits_byte (hstar : p ≠ 42) (hany : p ≠ 63) (hset : p ≠ 91) (hescape : p ≠ 92)
    (c : UInt8) :
    GlobSplits negators (p :: pattern) (c :: text) ↔ p = c ∧ GlobSplits negators pattern text := by
  rw [GlobSplits, globItems_byte hstar hany hset hescape,
    splitsAs_cons_of_letter (fun _ => Iff.rfl)]
  simp [eq_comm]

theorem globSplits_set {members : List GlobMember} {rest : Bytes} (c : UInt8)
    (hset : globMembers (if pattern.head?.any negators.contains then pattern.drop 1 else pattern) =
      some (members, rest)) :
    GlobSplits negators (91 :: pattern) (c :: text) ↔
      (members.any (fun m => decide (m.Has c))) ≠ pattern.head?.any negators.contains ∧
        GlobSplits negators rest text := by
  rw [GlobSplits, globItems_set hset]
  cases hnegated : pattern.head?.any negators.contains with
  | false =>
    simp only [Bool.false_eq_true, if_false]
    rw [splitsAs_cons_of_letter (fun _ => Iff.rfl)]
    simp
  | true =>
    simp only [if_true]
    rw [splitsAs_cons_of_letter (fun _ => Iff.rfl)]
    simp

theorem globItems_lone_escape : globItems negators [92] = [.byte 92] := by
  rw [globItems.eq_def]
  rfl

theorem globSplits_lone_escape (c : UInt8) :
    GlobSplits negators [92] (c :: text) ↔ 92 = c ∧ GlobSplits negators [] text := by
  rw [GlobSplits, globItems_lone_escape, splitsAs_cons_of_letter (fun _ => Iff.rfl), GlobSplits,
    globItems]
  simp [eq_comm]

theorem not_globSplits_unterminated
    (hset : globMembers (if pattern.head?.any negators.contains then pattern.drop 1 else pattern) =
      none) :
    ¬GlobSplits negators (91 :: pattern) text := by
  rw [GlobSplits, globItems_unterminated hset]
  exact not_splitsAs_cons fun _ h => h

theorem GlobItem.takes_ne_nil {item : GlobItem} (hitem : item ≠ .star) {part : Bytes}
    (htakes : item.Takes part) : part ≠ [] := by
  cases item with
  | star => exact absurd rfl hitem
  | unterminated => exact htakes.elim
  | _ =>
    obtain ⟨c, rfl, -⟩ := htakes
    simp

theorem globItems_head_ne_star (hp : p ≠ 42) :
    ∃ item items, globItems negators (p :: pattern) = item :: items ∧ item ≠ .star := by
  by_cases hany : p = 63
  · subst hany
    exact ⟨_, _, globItems_any, by simp⟩
  by_cases hset : p = 91
  · subst hset
    cases hmembers :
      globMembers (if pattern.head?.any negators.contains then pattern.drop 1 else pattern) with
    | none => exact ⟨_, _, globItems_unterminated hmembers, by simp⟩
    | some rest => exact ⟨_, _, globItems_set hmembers, by split <;> simp⟩
  by_cases hescape : p = 92
  · subst hescape
    cases pattern with
    | nil => exact ⟨_, _, globItems_lone_escape, by simp⟩
    | cons q pattern => exact ⟨_, _, globItems_escaped, by simp⟩
  · exact ⟨_, _, globItems_byte hp hany hset hescape, by simp⟩

theorem not_globSplits_nil (hp : p ≠ 42) : ¬GlobSplits negators (p :: pattern) [] := by
  obtain ⟨item, items, hitems, hitem⟩ := @globItems_head_ne_star negators p pattern hp
  rw [GlobSplits, hitems, splitsAs_cons]
  intro h
  obtain ⟨part, rest, happend, htakes, -⟩ := h
  exact item.takes_ne_nil hitem htakes (List.append_eq_nil_iff.mp happend).1

theorem matchesGlobSteps_nil (steps : ℕ) (text : Bytes) :
    matchesGlobSteps steps [] text = true ↔ GlobSplits [94, 33] [] text := by
  rw [globSplits_nil]
  cases steps <;> simp [matchesGlobSteps]

/-- The pattern after a run of stars is tried at every suffix; a run that ends the pattern
takes the whole text. -/
theorem matchesGlobSteps_stars (steps : ℕ) (pattern text : Bytes)
    (ih : ∀ pattern' text', pattern'.length ≤ pattern.length →
      (matchesGlobSteps steps pattern' text' = true ↔ GlobSplits [94, 33] pattern' text')) :
    ((pattern.dropWhile (· == 42)).isEmpty || text.tails.any fun text =>
      matchesGlobSteps steps (pattern.dropWhile (· == 42)) text) = true ↔
      GlobSplits [94, 33] (42 :: pattern) text := by
  have hshort : (pattern.dropWhile (· == 42)).length ≤ pattern.length :=
    (List.dropWhile_suffix _).length_le
  rw [globSplits_stars, Bool.or_eq_true, List.any_eq_true]
  simp only [ih _ _ hshort]
  constructor
  · intro h
    rcases h with hempty | h
    · refine ⟨[], by simp, ?_⟩
      rw [List.isEmpty_iff.mp hempty, globSplits_nil]
    · exact h
  · exact Or.inr

theorem matchesGlobSteps_set (steps : ℕ) (c : UInt8) (pattern text : Bytes)
    (ih : ∀ pattern', pattern'.length ≤ pattern.length →
      (matchesGlobSteps steps pattern' text = true ↔ GlobSplits [94, 33] pattern' text)) :
    (match globSet c (if (pattern.head?.any fun q => q == 94 || q == 33) then pattern.drop 1
        else pattern) false with
      | none => false
      | some (rest, found) =>
        (found != pattern.head?.any fun q => q == 94 || q == 33) &&
          matchesGlobSteps steps rest text) = true ↔
      GlobSplits [94, 33] (91 :: pattern) (c :: text) := by
  have hnegators : (fun q : UInt8 => q == 94 || q == 33) = [94, 33].contains := by
    funext q
    rw [Bool.eq_iff_iff]
    simp
  rw [hnegators, globSet_eq]
  cases hmembers :
    globMembers (if pattern.head?.any [94, 33].contains then pattern.drop 1 else pattern) with
  | none => simp only [Option.map_none, Bool.false_eq_true, not_globSplits_unterminated hmembers]
  | some rest =>
    have hshort : rest.2.length ≤ pattern.length := by
      have hlen := globMembers_length _ _ hmembers
      split at hlen
      · exact (hlen.trans_le (List.drop_sublist 1 pattern).length_le).le
      · exact hlen.le
    rw [globSplits_set c hmembers]
    simp only [Option.map_some, Bool.false_or, Bool.and_eq_true, bne_iff_ne, ih rest.2 hshort]

theorem matchesGlobSteps_iff (steps : ℕ) (pattern text : Bytes) (hsteps : pattern.length ≤ steps) :
    matchesGlobSteps steps pattern text = true ↔ GlobSplits [94, 33] pattern text := by
  induction steps generalizing pattern text with
  | zero =>
    rw [List.length_eq_zero_iff.mp (Nat.le_zero.mp hsteps)]
    exact matchesGlobSteps_nil 0 text
  | succ steps ih =>
    cases pattern with
    | nil => exact matchesGlobSteps_nil (steps + 1) text
    | cons p pattern =>
      have hshort : pattern.length ≤ steps := by simpa using hsteps
      rw [matchesGlobSteps.eq_def]
      by_cases hstar : p = 42
      · subst hstar
        exact matchesGlobSteps_stars steps pattern text (fun pattern' text' hle =>
          ih pattern' text' (hle.trans hshort))
      simp only [if_neg hstar]
      cases text with
      | nil => simp only [Bool.false_eq_true, not_globSplits_nil hstar]
      | cons c text =>
        by_cases hany : p = 63
        · subst hany
          simp only [if_true, globSplits_any, ih pattern text hshort]
        by_cases hset : p = 91
        · subst hset
          simp only [if_neg hany, if_true]
          exact matchesGlobSteps_set steps c pattern text fun pattern' hle =>
            ih pattern' text (hle.trans hshort)
        by_cases hescape : p = 92
        · subst hescape
          simp only [if_neg hany, if_neg hset, if_true]
          cases pattern with
          | nil =>
            rw [globSplits_lone_escape, @eq_comm _ 92 c, ← matchesGlobSteps_nil steps text]
            simp only [Bool.and_eq_true, beq_iff_eq]
          | cons q pattern =>
            have hpattern : pattern.length ≤ steps := Nat.le_of_succ_le hshort
            simp only [Bool.and_eq_true, beq_iff_eq, globSplits_escaped, ih pattern text hpattern]
        · simp only [if_neg hany, if_neg hset, if_neg hescape, Bool.and_eq_true, beq_iff_eq,
            globSplits_byte hstar hany hset hescape, ih pattern text hshort]

/-- A caret or an exclamation mark opens a set that is left out. As many steps as the pattern
has bytes decide every text, and more change nothing. -/
theorem matchesGlobBytes_exact (pattern text : Bytes) :
    (∀ steps ≥ pattern.length,
      matchesGlobSteps steps pattern text = matchesGlobBytes pattern text) ∧
    (matchesGlobBytes pattern text = true ↔
      SplitsAs GlobItem.Takes (globItems [94, 33] pattern) text) := by
  have hexact := matchesGlobSteps_iff pattern.length pattern text le_rfl
  refine ⟨?_, hexact⟩
  intro steps hsteps
  rw [matchesGlobBytes, Bool.eq_iff_iff, hexact]
  exact matchesGlobSteps_iff steps pattern text hsteps

/-- The pattern of a set of an exclamation mark and a letter matches another letter. -/
theorem matchesGlobBytes_not_caret_only :
    ¬∀ pattern text, matchesGlobBytes pattern text = true ↔
      SplitsAs GlobItem.Takes (globItems [94] pattern) text := by
  intro h
  have hmatch : matchesGlobBytes [91, 33, 97, 93] [98] = true := by decide
  have hitems : globItems [94] [91, 33, 97, 93] = [.oneOf [.byte 33, .byte 97]] := by
    have hset : globMembers (if [33, 97, 93].head?.any [94].contains then [97, 93]
        else [33, 97, 93]) = some ([.byte 33, .byte 97], []) := rfl
    rw [globItems_set hset, globItems]
    rfl
  have hsplits := (h _ _).mp hmatch
  rw [hitems, splitsAs_cons_of_letter (fun _ => Iff.rfl)] at hsplits
  simp at hsplits

end

end Wedb
