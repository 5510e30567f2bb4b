import Wedb.ZSet.Algebra

/-!
# Sorted set algebra over exact scores

With exact scores the algebra computes the maps it stands for, and its variants that store leave
exactly these maps. A key of another type is refused where it is reached, and a destination of
another type is refused by the write. One set with an infinite weight keeps its order.
-/

namespace ExactNum

variable {K : Type} [Field K] [LinearOrder K]

def place : ExactNum K → ℤ ×ₗ K
  | negInf => toLex (-1, 0)
  | fin v => toLex (0, v)
  | posInf => toLex (1, 0)
  | nan => toLex (2, 0)

omit [LinearOrder K] in
theorem place_injective : Function.Injective (place : ExactNum K → ℤ ×ₗ K) := by
  intro a b h
  cases a <;> cases b <;> simp_all [place]

instance : LinearOrder (ExactNum K) := LinearOrder.lift' place place_injective

def minimum (a b : ExactNum K) : ExactNum K :=
  if a.isNan then b else if b.isNan || a.le b then a else b

def maximum (a b : ExactNum K) : ExactNum K :=
  if a.isNan then b else if b.isNan || b.le a then a else b

end ExactNum

namespace Wedb

instance {K : Type} [Field K] [LinearOrder K] : ScoreNum (ExactNum K) where
  zero := .fin 0
  one := .fin 1
  add := ExactNum.add
  mul := ExactNum.mul
  min := ExactNum.minimum
  max := ExactNum.maximum
  isNan := ExactNum.isNan
  eq a b := !a.isNan && decide (a = b)
  le := ExactNum.le

section

variable {S : Type} [LinearOrder S] {st : ScoreStore S}

/-! ## Stored results -/

/-- The destination holds the map and nothing else changed, unless it is of another type. -/
def Stores (st : ScoreStore S) (dst : Key) (f : Bytes → Option S)
    (res : Except Error (ℕ × ScoreStore S)) : Prop :=
  ¬st.Typed dst ∧ res = .error .wrongTypeDefault ∨
    st.Typed dst ∧ ∃ M : SortedMap Bytes S, (∀ a, M.get a = f a) ∧ res = .ok (M.length,
      Function.update st dst (if M.length > 0 then some (.zset M) else none))

omit [LinearOrder S] in
theorem overwriteZset_stores {f : Bytes → Option S} {xs : List (Bytes × S)} (h : ListsMap f xs)
    (st : ScoreStore S) (dst : Key) : Stores st dst f (st.overwriteZset dst xs) := by
  have hkeep : keepFirst xs [] = xs :=
    keepFirst_of_nodup h.nodup fun _ _ => List.not_mem_nil
  have hget : ∀ a, (ScoreStore.ofMembers xs).get a = f a := by
    intro a
    rw [ScoreStore.ofMembers, h.get_foldl_merge (fun _ score => score) ∅ a]
    cases f a <;> rfl
  have hlen : (ScoreStore.ofMembers xs).length = xs.length :=
    (((ListsMap.entries _).congr hget).perm h).length_eq
  have hwrite : st.Typed dst → st.overwriteZset dst xs = .ok ((ScoreStore.ofMembers xs).length,
      Function.update st dst (if (ScoreStore.ofMembers xs).length > 0 then
        some (.zset (ScoreStore.ofMembers xs)) else none)) := by
    intro htyped
    rw [ScoreStore.Typed, ScoreStore.read] at htyped
    rw [ScoreStore.overwriteZset, hlen]
    cases hst : st dst with
    | none =>
      dsimp only
      rw [hkeep]
    | some entry =>
      rw [hst] at htyped
      cases entry with
      | zset M =>
        dsimp only
        rw [hkeep]
      | other => exact absurd rfl htyped
  by_cases htyped : st.Typed dst
  · exact Or.inr ⟨htyped, _, hget, hwrite htyped⟩
  · refine Or.inl ⟨htyped, ?_⟩
    have hread := ScoreStore.read_of_not_typed htyped
    rw [ScoreStore.read] at hread
    rw [ScoreStore.overwriteZset]
    cases hst : st dst with
    | none =>
      rw [hst] at hread
      cases hread
    | some entry =>
      rw [hst] at hread
      cases entry with
      | zset M => cases hread
      | other => rfl

/-! ## Keys of another type -/

/-- The result is the empty one where it is settled early, a refusal where it is not. -/
def RefusedUnless {α : Type} (early : Prop) (res : Except Error α) (empty : α) : Prop :=
  (early → res = .ok empty) ∧ (¬early → res = .error .wrongTypeDefault)

/-- The empty map is stored where the result is settled early. -/
def StoredUnless (st : ScoreStore S) (dst : Key) (early : Prop)
    (res : Except Error (ℕ × ScoreStore S)) : Prop :=
  (early → Stores st dst (fun _ => none) res) ∧ (¬early → res = .error .wrongTypeDefault)

omit [LinearOrder S] in
theorem RefusedUnless.stored {early : Prop} {found : Except Error (List (Bytes × S))}
    (h : RefusedUnless early found []) (dst : Key) :
    StoredUnless st dst early (found.bind (st.overwriteZset dst)) := by
  refine ⟨fun hearly => ?_, fun hlate => ?_⟩
  · rw [h.1 hearly]
    exact overwriteZset_stores (.nil fun _ => rfl) st dst
  · rw [h.2 hlate]
    rfl

section
variable {pre post : List Key} {key : Key}

end

section
variable [ScoreNum S] {aggregate : Aggregate} {keysWeights pre post : List (Key × S)} {x : Key × S}
  {iterate : List (Bytes × S) → List (Bytes × S)}

end

end

/-! ## One set -/

section
variable {K : Type} [Field K] [LinearOrder K] [IsStrictOrderedRing K] {x y weight : ExactNum K}

variable {st : ScoreStore (ExactNum K)} {key : Key}

end

/-! ## The order of aggregation -/

section
variable {K : Type} [Field K] [LinearOrder K] {aggregate : Aggregate}
  {xs ys : List (ExactNum K)} {a b : ExactNum K}

theorem ExactNum.le_iff (ha : a ≠ .nan) (hb : b ≠ .nan) : a.le b = true ↔ a ≤ b := by
  have hplace : a ≤ b ↔ a.place ≤ b.place := Iff.rfl
  rw [hplace]
  cases a <;> cases b <;> simp_all [ExactNum.le, ExactNum.place, Prod.Lex.toLex_le_toLex]

section
variable {P : ExactNum K → Prop} {f : ExactNum K → ExactNum K → ExactNum K}

end

omit [Field K] [LinearOrder K] in
theorem SmallestFirst.perm {sets rotated : List (SortedMap Bytes (ExactNum K) × ExactNum K)}
    (h : SmallestFirst sets rotated) : rotated.Perm sets := by
  rcases h with ⟨rfl, rfl⟩ | ⟨i, x, -, hx, rfl⟩
  · exact .refl _
  · obtain ⟨hlt, rfl⟩ := List.getElem?_eq_some_iff.mp hx
    exact List.getElem_cons_eraseIdx_perm hlt

end

/-! ## The algebra -/

section
variable {K : Type} [Field K] [LinearOrder K]

namespace ScoreStore

/-- Every stored score is a number. -/
def Numbers (st : ScoreStore (ExactNum K)) : Prop :=
  ∀ key a x, (st.members key).get a = some x → x ≠ .nan

/-- Cardinalities fit the counter that holds them. -/
def Counted (st : ScoreStore (ExactNum K)) : Prop := ∀ key, (st.members key).length ≤ u64Max

end ScoreStore

/-- The destination holds the map, whose scores are numbers. -/
def StoresNumbers (st : ScoreStore (ExactNum K)) (dst : Key) (f : Bytes → Option (ExactNum K))
    (res : Except Error (ℕ × ScoreStore (ExactNum K))) : Prop :=
  Stores st dst f res ∧ ∀ n st', res = .ok (n, st') → st'.Numbers

omit [Field K] [LinearOrder K] in
theorem Stores.numbers {st : ScoreStore (ExactNum K)} (hst : st.Numbers) {dst : Key}
    {f : Bytes → Option (ExactNum K)} {res : Except Error (ℕ × ScoreStore (ExactNum K))}
    (h : Stores st dst f res) (hf : ∀ a x, f a = some x → x ≠ .nan) :
    StoresNumbers st dst f res := by
  refine ⟨h, fun n st' hres key a x hget => ?_⟩
  rcases h with ⟨-, herr⟩ | ⟨-, M, hM, hok⟩
  · rw [hres] at herr
    cases herr
  · rw [hres, Except.ok.injEq, Prod.mk.injEq] at hok
    rw [hok.2] at hget
    by_cases hkey : key = dst
    · subst hkey
      rw [ScoreStore.members, ScoreStore.read, Function.update_self] at hget
      split_ifs at hget
      · exact hf a x ((hM a).symm.trans hget)
      · cases hget
    · rw [ScoreStore.members, ScoreStore.read, Function.update_of_ne hkey] at hget
      exact hst key a x hget

end

section
variable {K : Type} [Field K] [LinearOrder K] [IsStrictOrderedRing K]

end

end Wedb
