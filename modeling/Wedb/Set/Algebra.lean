import Wedb.Ordered.HashSet
import Wedb.Ordered.SetIn
import Wedb.Set.Impl

/-!
# Set algebra

Intersections start from the smallest set and probe or scan the others, differences do
the same from the first one, and unions are collected. The cardinality of a union is
counted over the hashes of its members, so members with one hash count once.
-/

namespace Wedb

inductive SetAlgebra
  | inter
  | union
  | diff
  deriving DecidableEq, Repr

def applyCardLimit (card limit : ℕ) : ℕ := if limit = 0 then card else min card limit

def applySetLimit (setOpt : Option (List Bytes)) (limit : ℕ) : ℕ :=
  match setOpt with
  | some set => if limit = 0 then set.length else min set.length limit
  | none => 0

def collectMember (set : List Bytes) (member : Bytes) : List Bytes × Bool :=
  (insertDistinct set member, true)

def collectHash (hash : Bytes → UInt64) (limit : ℕ) (seen : List UInt64) (member : Bytes) :
    List UInt64 × Bool :=
  (insertDistinct seen (hash member), decide ((insertDistinct seen (hash member)).length < limit))

section
variable (s : Store) (kc : KeyComposer) (nowMs : UInt64)

def probes (current : List Bytes) (card : UInt64) : Bool :=
  decide ((UInt64.ofNat current.length).satMul 4 < card)

def isMemberOf (key : Key) (member : Bytes) : Bool :=
  ((sismember s kc key nowMs member).toOption).getD false

/-! ## Intersections -/

def keyCards : List Key → Except Error (Option (List (Key × UInt64)))
  | [] => .ok (some [])
  | key :: keys => do
    let card ← scard s kc key nowMs
    if card = 0 then return none
    else return (← keyCards keys).map fun cards => (key, card) :: cards

def sinterStep (current : List Bytes) (key : Key) (card : UInt64) : Except Error (List Bytes) :=
  if probes current card then .ok (current.filter (isMemberOf s kc nowMs key))
  else (siter s kc key nowMs takeStep (current, [])).map Prod.snd

def sinterRest (current : List Bytes) : List (Key × UInt64) → Except Error (Option (List Bytes))
  | [] => .ok (some current)
  | (key, card) :: rest =>
    if current.isEmpty then .ok none
    else do
      let current ← sinterStep s kc nowMs current key card
      sinterRest current rest

def computeSinterSet (keys : List Key) : Except Error (Option (List Bytes)) :=
  match keys with
  | [] => .ok none
  | [key] => (siter s kc key nowMs collectMember []).map some
  | keys => do
    match ← keyCards s kc nowMs keys with
    | none => return none
    | some cards =>
      match cards.insertionSort fun x y => x.2 ≤ y.2 with
      | [] => return none
      | (smallestKey, _) :: rest =>
        let current ← siter s kc smallestKey nowMs collectMember []
        sinterRest s kc nowMs current rest

def sinter (keys : List Key) : Except Error (List Bytes) :=
  (computeSinterSet s kc nowMs keys).map fun set => set.getD []

def sintercard (keys : List Key) (limit : ℕ) : Except Error ℕ :=
  match keys with
  | [] => .ok 0
  | [key] => (scard s kc key nowMs).map fun card => applyCardLimit card.toNat limit
  | keys => (computeSinterSet s kc nowMs keys).map fun set => applySetLimit set limit

/-! ## Unions -/

def sunionKeys (unionSet : List Bytes) : List Key → Except Error (List Bytes)
  | [] => .ok unionSet
  | key :: keys => do
    let unionSet ← siter s kc key nowMs collectMember unionSet
    sunionKeys unionSet keys

def computeSunionSet (keys : List Key) : Except Error (List Bytes) :=
  match keys with
  | [] => .ok []
  | key :: keys => do
    let _ ← scard s kc key nowMs
    sunionKeys s kc nowMs [] (key :: keys)

def sunion (keys : List Key) : Except Error (List Bytes) :=
  match keys with
  | [] => .ok []
  | [key] => smembers s kc key nowMs
  | keys => computeSunionSet s kc nowMs keys

def countHashes (hash : Bytes → UInt64) (limit : ℕ) (seen : List UInt64) : List Key → Except Error ℕ
  | [] => .ok (min seen.length limit)
  | key :: keys => do
    let seen ← siter s kc key nowMs (collectHash hash limit) seen
    if seen.length ≥ limit then return limit
    else countHashes hash limit seen keys

def countAllHashes (hash : Bytes → UInt64) (seen : List UInt64) : List Key → Except Error ℕ
  | [] => .ok seen.length
  | key :: keys => do
    let seen ← siter s kc key nowMs (fun seen m => (insertDistinct seen (hash m), true)) seen
    countAllHashes hash seen keys

def sunioncard (hash : Bytes → UInt64) (keys : List Key) (limit : ℕ) : Except Error ℕ :=
  match keys with
  | [] => .ok 0
  | [key] => (scard s kc key nowMs).map fun card => applyCardLimit card.toNat limit
  | keys =>
    if limit > 0 then countHashes s kc nowMs hash limit [] keys
    else countAllHashes s kc nowMs hash [] keys

/-! ## Differences -/

def sdiffRest (current : List Bytes) : List Key → Except Error (Option (List Bytes))
  | [] => .ok (some current)
  | key :: keys =>
    if current.isEmpty then .ok none
    else do
      let card ← scard s kc key nowMs
      if card = 0 then sdiffRest current keys
      else if probes current card then
        sdiffRest (current.filter fun m => !isMemberOf s kc nowMs key m) keys
      else
        let current ← siter s kc key nowMs removeStep current
        sdiffRest current keys

def computeSdiffSet (keys : List Key) : Except Error (Option (List Bytes)) :=
  match keys with
  | [] => .ok none
  | key :: keys => do
    let card ← scard s kc key nowMs
    if card = 0 then return none
    else
      let current ← siter s kc key nowMs collectMember []
      sdiffRest s kc nowMs current keys

def sdiff (keys : List Key) : Except Error (List Bytes) :=
  (computeSdiffSet s kc nowMs keys).map fun set => set.getD []

def sdiffcard (keys : List Key) (limit : ℕ) : Except Error ℕ :=
  match keys with
  | [] => .ok 0
  | [key] => (scard s kc key nowMs).map fun card => applyCardLimit card.toNat limit
  | keys => (computeSdiffSet s kc nowMs keys).map fun set => applySetLimit set limit

/-! ## Storing -/

def insertMember (kc : KeyComposer) (key : Key) (m : Bytes) : WriteOp :=
  .insertData (composeSetPrefix kc key ++ m) []

def clearSet (key : Key) : Batch :=
  clearPrefixInBatch s .data (composeSetPrefix kc key) ++ [.rmMeta (composeSetMetaKey kc key)]

def overwriteSetIter (dst : Key) (version : UInt64) (members : List Bytes) :
    Except Error (ℕ × Batch) :=
  (checkKeyNotOtherType s kc dst nowMs .setMeta).map fun _ =>
    let seen := members.foldl insertDistinct []
    (seen.length, clearSet s kc dst ++ seen.map (insertMember kc dst) ++
      if seen.length > 0 then
        [.insertMeta (composeSetMetaKey kc dst) ((SimpleMeta.newWithVersion version 0 0 : SetMeta).setSize
          (UInt64.ofNat seen.length)).encode]
      else [])

def overwriteSet (dst : Key) (version : UInt64) (members : List Bytes) : Except Error (ℕ × Batch) :=
  overwriteSetIter s kc nowMs dst version members

def storeSetOpt (dst : Key) (version : UInt64) (setOpt : Option (List Bytes)) :
    Except Error (ℕ × Batch) :=
  match setOpt with
  | some set => overwriteSetIter s kc nowMs dst version set
  | none => overwriteSet s kc nowMs dst version []

def sinterstore (dst : Key) (version : UInt64) (keys : List Key) : Except Error (ℕ × Batch) := do
  storeSetOpt s kc nowMs dst version (← computeSinterSet s kc nowMs keys)

def sunionstore (dst : Key) (version : UInt64) (keys : List Key) : Except Error (ℕ × Batch) := do
  overwriteSetIter s kc nowMs dst version (← computeSunionSet s kc nowMs keys)

def sdiffstore (dst : Key) (version : UInt64) (keys : List Key) : Except Error (ℕ × Batch) := do
  storeSetOpt s kc nowMs dst version (← computeSdiffSet s kc nowMs keys)

/-! ## The three families of commands -/

def SetAlgebra.members (op : SetAlgebra) (keys : List Key) : Except Error (List Bytes) :=
  match op with
  | inter => sinter s kc nowMs keys
  | union => sunion s kc nowMs keys
  | diff => sdiff s kc nowMs keys

def SetAlgebra.card (op : SetAlgebra) (hash : Bytes → UInt64) (keys : List Key) (limit : ℕ) :
    Except Error ℕ :=
  match op with
  | inter => sintercard s kc nowMs keys limit
  | union => sunioncard s kc nowMs hash keys limit
  | diff => sdiffcard s kc nowMs keys limit

def SetAlgebra.store (op : SetAlgebra) (dst : Key) (version : UInt64) (keys : List Key) :
    Except Error (ℕ × Batch) :=
  match op with
  | inter => sinterstore s kc nowMs dst version keys
  | union => sunionstore s kc nowMs dst version keys
  | diff => sdiffstore s kc nowMs dst version keys

/-! ## Finite sets -/

def membersAt (key : Key) : Finset Bytes :=
  match getSetMeta s kc key nowMs with
  | .ok (some _) => (setMembers s kc key).toFinset
  | _ => ∅

def SetAlgebra.expected (op : SetAlgebra) : List Key → Finset Bytes
  | [] => ∅
  | key :: keys =>
    match op with
    | inter => keys.foldl (fun A k => A ∩ membersAt s kc nowMs k) (membersAt s kc nowMs key)
    | union => keys.foldl (fun A k => A ∪ membersAt s kc nowMs k) (membersAt s kc nowMs key)
    | diff => keys.foldl (fun A k => A \ membersAt s kc nowMs k) (membersAt s kc nowMs key)

/-- The commands of one operation answer, count and store the set. -/
structure AlgebraExact (op : SetAlgebra) (hash : Bytes → UInt64) (keys : List Key) (limit : ℕ) :
    Prop where
  members : ∃ xs, op.members s kc nowMs keys = .ok xs ∧ IsSet xs (op.expected s kc nowMs keys)
  card : op.card s kc nowMs hash keys limit =
    .ok (applyCardLimit (op.expected s kc nowMs keys).card limit)
  store : ∀ dst version, checkKeyNotOtherType s kc dst nowMs .setMeta = .ok () →
    ∃ ops, op.store s kc nowMs dst version keys = .ok ((op.expected s kc nowMs keys).card, ops) ∧
      ((s.apply ops).Fits → membersAt (s.apply ops) kc nowMs dst = op.expected s kc nowMs keys ∧
        scard (s.apply ops) kc dst nowMs =
          .ok (UInt64.ofNat (op.expected s kc nowMs keys).card))

/-- The count of a single key is that of its members, and the members of a union have as
many hashes, both up to the limit. -/
def AlgebraHolds (op : SetAlgebra) (hash : Bytes → UInt64) (keys : List Key) (limit : ℕ) : Prop :=
  match keys with
  | [] => True
  | [key] => ∀ m, getSetMeta s kc key nowMs = .ok (some m) →
      applyCardLimit m.base.size.toNat limit = applyCardLimit (membersAt s kc nowMs key).card limit
  | keys => op = .union → applyCardLimit ((op.expected s kc nowMs keys).image hash).card limit =
      applyCardLimit (op.expected s kc nowMs keys).card limit

end

/-! ## Reading a set -/

section
variable {s : Store} {kc : KeyComposer} {now : UInt64} {key : Key} {keys : List Key} {A : Finset Bytes}
  {xs : List Bytes}

/-- The key is a set or missing. -/
def IsSetKey (s : Store) (kc : KeyComposer) (now : UInt64) (key : Key) : Prop :=
  ∃ found, getSetMeta s kc key now = .ok found

def memberList (s : Store) (kc : KeyComposer) (now : UInt64) (key : Key) : List Bytes :=
  match getSetMeta s kc key now with
  | .ok (some _) => setMembers s kc key
  | _ => []

theorem memberList_isSet (s : Store) (kc : KeyComposer) (now : UInt64) (key : Key) :
    IsSet (memberList s kc now key) (membersAt s kc now key) := by
  rw [memberList, membersAt]
  split
  · exact .of_nodup ((setMembers_sorted s kc key).imp fun h => h.ne)
  · exact .nil

theorem IsSetKey.withSet {σ : Type} (h : IsSetKey s kc now key) (absent : σ) (present : SetMeta → σ) :
    Wedb.withSet s kc key now absent present = .ok absent ∧ memberList s kc now key = [] ∨
      ∃ m, getSetMeta s kc key now = .ok (some m) ∧
        Wedb.withSet s kc key now absent present = .ok (present m) := by
  obtain ⟨found, hget⟩ := h
  cases found with
  | none =>
    refine Or.inl ⟨?_, ?_⟩
    · rw [Wedb.withSet, hget]
      rfl
    · rw [memberList, hget]
  | some m =>
    refine Or.inr ⟨m, hget, ?_⟩
    have hpos : m.base.size > 0 := UInt64.pos_iff_ne_zero.mpr (size_ne_zero_of_getSetMeta hget)
    rw [Wedb.withSet, hget]
    exact congrArg Except.ok (if_pos hpos)

theorem IsSetKey.siter {σ : Type} (h : IsSetKey s kc now key) (f : σ → Bytes → σ × Bool) (st : σ) :
    Wedb.siter s kc key now f st = .ok (foldBreak f st (memberList s kc now key)) := by
  rw [Wedb.siter]
  rcases h.withSet st (fun _ => siterPrefix s (composeSetPrefix kc key) f st) with
    ⟨heq, hnil⟩ | ⟨m, hget, heq⟩
  · rw [heq, hnil]
    rfl
  · rw [heq, siterPrefix_eq, memberList, hget]

theorem IsSetKey.smembers (h : IsSetKey s kc now key) :
    Wedb.smembers s kc key now = .ok (memberList s kc now key) := by
  have hfold : foldBreak (fun results m => (results ++ [m], true)) [] (memberList s kc now key) =
      memberList s kc now key := by
    rw [foldBreak_true]
    induction memberList s kc now key using List.reverseRecOn with
    | nil => rfl
    | append_singleton xs x ih => rw [List.foldl_append, ih]; rfl
  have hiter := h.siter (fun results m => (results ++ [m], true)) []
  rwa [hfold] at hiter

theorem IsSetKey.isMemberOf (h : IsSetKey s kc now key) (member : Bytes) :
    Wedb.isMemberOf s kc now key member = decide (member ∈ membersAt s kc now key) := by
  rw [Wedb.isMemberOf, sismember]
  rcases h.withSet false (fun _ => s.data.contains (composeSetKey kc key member)) with
    ⟨heq, hnil⟩ | ⟨m, hget, heq⟩
  · have hmem := (memberList_isSet s kc now key).elements
    rw [hnil] at hmem
    rw [heq, ← hmem]
    rfl
  · rw [heq, contains_composeSetKey, membersAt, hget]
    simp only [Except.toOption, Option.getD_some, List.mem_toFinset]

theorem IsSetKey.scard (h : IsSetKey s kc now key) :
    ∃ card, Wedb.scard s kc key now = .ok card ∧ (card = 0 → membersAt s kc now key = ∅) := by
  obtain ⟨found, hget⟩ := h
  cases found with
  | none =>
    refine ⟨0, ?_, fun _ => ?_⟩
    · rw [Wedb.scard, hget]
      rfl
    · rw [membersAt, hget]
  | some m =>
    refine ⟨m.base.size, ?_, fun h0 => absurd h0 (size_ne_zero_of_getSetMeta hget)⟩
    rw [Wedb.scard, hget]
    rfl

theorem IsSetKey.collect (h : IsSetKey s kc now key) (hxs : IsSet xs A) :
    ∃ ys, Wedb.siter s kc key now collectMember xs = .ok ys ∧
      IsSet ys (A ∪ membersAt s kc now key) := by
  refine ⟨_, h.siter collectMember xs, ?_⟩
  have hfold : foldBreak collectMember xs (memberList s kc now key) =
      (memberList s kc now key).foldl insertDistinct xs := foldBreak_true insertDistinct _ _
  rw [hfold, ← (memberList_isSet s kc now key).elements]
  exact hxs.foldl_insertDistinct _

/-! ## Intersections -/

theorem sinterStep_spec (h : IsSetKey s kc now key) (hxs : IsSet xs A) (card : UInt64) :
    ∃ ys, sinterStep s kc now xs key card = .ok ys ∧ IsSet ys (A ∩ membersAt s kc now key) := by
  rw [sinterStep]
  split_ifs
  · refine ⟨_, rfl, ?_⟩
    have hkept := hxs.filter (isMemberOf s kc now key)
    have hinter : A.filter (fun m => isMemberOf s kc now key m = true) = A ∩ membersAt s kc now key := by
      ext m
      rw [Finset.mem_filter, Finset.mem_inter, h.isMemberOf, decide_eq_true_iff]
    rwa [hinter] at hkept
  · refine ⟨_, by rw [h.siter]; rfl, ?_⟩
    have htaken := hxs.foldBreak_takeStep .nil (memberList s kc now key)
    rwa [Finset.empty_union, (memberList_isSet s kc now key).elements] at htaken

theorem sinterRest_spec {rest : List (Key × UInt64)} (h : ∀ x ∈ rest, IsSetKey s kc now x.1)
    (hxs : IsSet xs A) : ∃ set, sinterRest s kc now xs rest = .ok set ∧
      IsSet (set.getD []) ((rest.map Prod.fst).foldl (fun A k => A ∩ membersAt s kc now k) A) := by
  induction rest generalizing xs A with
  | nil => exact ⟨some xs, rfl, hxs⟩
  | cons x rest ih =>
    rw [sinterRest, List.map_cons, List.foldl_cons]
    by_cases hempty : xs.isEmpty = true
    · refine ⟨none, if_pos hempty, ?_⟩
      rw [hxs.isEmpty_iff.mp hempty, Finset.empty_inter, foldl_inter_empty]
      exact .nil
    · obtain ⟨ys, hstep, hys⟩ := sinterStep_spec (h x (by simp)) hxs x.2
      obtain ⟨set, hrest, hset⟩ := ih (fun y hy => h y (by simp [hy])) hys
      refine ⟨set, ?_, hset⟩
      rw [if_neg hempty, hstep]
      exact hrest

theorem keyCards_spec (h : ∀ k ∈ keys, IsSetKey s kc now k) :
    keyCards s kc now keys = .ok none ∧ (∃ k ∈ keys, membersAt s kc now k = ∅) ∨
      ∃ cards, keyCards s kc now keys = .ok (some cards) ∧ cards.map Prod.fst = keys := by
  induction keys with
  | nil => exact Or.inr ⟨[], rfl, rfl⟩
  | cons k keys ih =>
    obtain ⟨card, hcard, hzero⟩ := (h k (by simp)).scard
    rw [keyCards, hcard]
    simp only [bind, Except.bind]
    by_cases h0 : card = 0
    · rw [if_pos h0]
      exact Or.inl ⟨rfl, k, by simp, hzero h0⟩
    · rw [if_neg h0]
      rcases ih fun k hk => h k (by simp [hk]) with ⟨hnone, k', hk', hempty⟩ | ⟨cards, hcards, hkeys⟩
      · rw [hnone]
        exact Or.inl ⟨rfl, k', by simp [hk'], hempty⟩
      · rw [hcards]
        exact Or.inr ⟨(k, card) :: cards, rfl, by rw [List.map_cons, hkeys]⟩

theorem mem_expected_inter {key : Key} {x : Bytes} :
    x ∈ SetAlgebra.expected s kc now .inter (key :: keys) ↔
      ∀ k ∈ key :: keys, x ∈ membersAt s kc now k := by
  rw [SetAlgebra.expected, mem_foldl_inter, List.forall_mem_cons]

theorem computeSinterSet_spec (h : ∀ k ∈ keys, IsSetKey s kc now k) :
    ∃ set, computeSinterSet s kc now keys = .ok set ∧
      IsSet (set.getD []) (SetAlgebra.expected s kc now .inter keys) := by
  match keys with
  | [] => exact ⟨none, rfl, .nil⟩
  | [key] =>
    obtain ⟨ys, hcollect, hys⟩ := (h key (by simp)).collect .nil
    rw [Finset.empty_union] at hys
    refine ⟨some ys, ?_, hys⟩
    rw [computeSinterSet, hcollect]
    rfl
  | key :: key' :: keys =>
    rw [computeSinterSet]
    · rcases keyCards_spec h with ⟨hnone, k, hk, hempty⟩ | ⟨cards, hcards, hkeys⟩
      · refine ⟨none, by rw [hnone]; rfl, ?_⟩
        have hexpected : SetAlgebra.expected s kc now .inter (key :: key' :: keys) = ∅ := by
          refine Finset.eq_empty_of_forall_notMem fun x hx => ?_
          have hxk := mem_expected_inter.mp hx k hk
          rw [hempty] at hxk
          exact Finset.notMem_empty x hxk
        rw [hexpected]
        exact .nil
      · have hperm := List.perm_insertionSort (fun x y : Key × UInt64 => x.2 ≤ y.2) cards
        rw [hcards]
        simp only [bind, Except.bind]
        cases hsorted : cards.insertionSort fun x y => x.2 ≤ y.2 with
        | nil =>
          rw [hsorted] at hperm
          rw [List.nil_perm.mp hperm] at hkeys
          cases hkeys
        | cons x rest =>
          rw [hsorted] at hperm
          have hmem : ∀ k, k ∈ x.1 :: rest.map Prod.fst ↔ k ∈ key :: key' :: keys := by
            intro k
            rw [← hkeys, ← List.map_cons]
            exact (hperm.map Prod.fst).mem_iff
          obtain ⟨ys, hcollect, hys⟩ := (h x.1 ((hmem x.1).mp (by simp))).collect .nil
          rw [Finset.empty_union] at hys
          obtain ⟨set, hrest, hset⟩ := sinterRest_spec (fun y hy => h y.1 ((hmem y.1).mp
            (List.mem_cons_of_mem _ (List.mem_map_of_mem hy)))) hys
          refine ⟨set, ?_, ?_⟩
          · obtain ⟨smallest, card⟩ := x
            simp only [hcollect, hrest]
          · have hexpected : (rest.map Prod.fst).foldl (fun A k => A ∩ membersAt s kc now k)
                (membersAt s kc now x.1) =
                SetAlgebra.expected s kc now .inter (key :: key' :: keys) := by
              ext m
              have hsmallest : m ∈ (rest.map Prod.fst).foldl (fun A k => A ∩ membersAt s kc now k)
                  (membersAt s kc now x.1) ↔
                  ∀ k ∈ x.1 :: rest.map Prod.fst, m ∈ membersAt s kc now k := mem_expected_inter
              rw [hsmallest, mem_expected_inter]
              exact forall_congr' fun k => imp_congr_left (hmem k)
            rwa [hexpected] at hset
    · intro hnil
      cases hnil
    · intro k hone
      cases hone

/-! ## Unions -/

theorem sunionKeys_spec (h : ∀ k ∈ keys, IsSetKey s kc now k) (hxs : IsSet xs A) :
    ∃ ys, sunionKeys s kc now xs keys = .ok ys ∧
      IsSet ys (keys.foldl (fun A k => A ∪ membersAt s kc now k) A) := by
  induction keys generalizing xs A with
  | nil => exact ⟨xs, rfl, hxs⟩
  | cons k keys ih =>
    obtain ⟨ys, hcollect, hys⟩ := (h k (by simp)).collect hxs
    obtain ⟨zs, hrest, hzs⟩ := ih (fun k hk => h k (by simp [hk])) hys
    exact ⟨zs, by rw [sunionKeys, hcollect]; exact hrest, hzs⟩

theorem computeSunionSet_spec (h : ∀ k ∈ keys, IsSetKey s kc now k) :
    ∃ set, computeSunionSet s kc now keys = .ok set ∧
      IsSet set (SetAlgebra.expected s kc now .union keys) := by
  cases keys with
  | nil => exact ⟨[], rfl, .nil⟩
  | cons key keys =>
    obtain ⟨card, hcard, -⟩ := (h key (by simp)).scard
    obtain ⟨set, hset, hunion⟩ := sunionKeys_spec h .nil
    rw [List.foldl_cons, Finset.empty_union] at hunion
    exact ⟨set, by rw [computeSunionSet, hcard]; exact hset, hunion⟩

/-! ## Differences -/

theorem sdiffRest_spec (h : ∀ k ∈ keys, IsSetKey s kc now k) (hxs : IsSet xs A) :
    ∃ set, sdiffRest s kc now xs keys = .ok set ∧
      IsSet (set.getD []) (keys.foldl (fun A k => A \ membersAt s kc now k) A) := by
  induction keys generalizing xs A with
  | nil => exact ⟨some xs, rfl, hxs⟩
  | cons k keys ih =>
    have hk := h k (by simp)
    have hrest := fun {ys : List Bytes} {B : Finset Bytes} (hys : IsSet ys B) =>
      ih (fun k hk => h k (by simp [hk])) hys
    rw [sdiffRest, List.foldl_cons]
    by_cases hempty : xs.isEmpty = true
    · refine ⟨none, if_pos hempty, ?_⟩
      rw [hxs.isEmpty_iff.mp hempty, Finset.empty_sdiff, foldl_sdiff_empty]
      exact .nil
    obtain ⟨card, hcard, hzero⟩ := hk.scard
    rw [if_neg hempty, hcard]
    simp only [bind, Except.bind]
    by_cases h0 : card = 0
    · rw [if_pos h0, hzero h0, Finset.sdiff_empty]
      exact hrest hxs
    rw [if_neg h0]
    by_cases hprobe : probes xs card = true
    · rw [if_pos hprobe]
      have hkept := hxs.filter fun m => !isMemberOf s kc now k m
      have hdiff : A.filter (fun m => (!isMemberOf s kc now k m) = true) =
          A \ membersAt s kc now k := by
        ext m
        rw [Finset.mem_filter, Finset.mem_sdiff, hk.isMemberOf]
        simp
      rw [hdiff] at hkept
      exact hrest hkept
    · rw [if_neg hprobe, hk.siter]
      have hremoved := hxs.foldBreak_removeStep (memberList s kc now k)
      rw [(memberList_isSet s kc now k).elements] at hremoved
      exact hrest hremoved

theorem computeSdiffSet_spec (h : ∀ k ∈ keys, IsSetKey s kc now k) :
    ∃ set, computeSdiffSet s kc now keys = .ok set ∧
      IsSet (set.getD []) (SetAlgebra.expected s kc now .diff keys) := by
  cases keys with
  | nil => exact ⟨none, rfl, .nil⟩
  | cons key keys =>
    obtain ⟨card, hcard, hzero⟩ := (h key (by simp)).scard
    rw [computeSdiffSet, hcard, SetAlgebra.expected]
    simp only [bind, Except.bind]
    by_cases h0 : card = 0
    · refine ⟨none, by rw [if_pos h0]; rfl, ?_⟩
      rw [hzero h0, foldl_sdiff_empty]
      exact .nil
    · obtain ⟨ys, hcollect, hys⟩ := (h key (by simp)).collect .nil
      rw [Finset.empty_union] at hys
      obtain ⟨set, hrest, hset⟩ := sdiffRest_spec (fun k hk => h k (List.mem_cons_of_mem _ hk)) hys
      exact ⟨set, by rw [if_neg h0, hcollect]; exact hrest, hset⟩

/-! ## Cardinalities -/

theorem foldBreak_collectHash (hash : Bytes → UInt64) (limit : ℕ) {seen : List UInt64}
    {H : Finset UInt64} (hseen : IsSet seen H) (xs : List Bytes) :
    ∃ H', IsSet (foldBreak (collectHash hash limit) seen xs) H' ∧ H' ⊆ H ∪ xs.toFinset.image hash ∧
      (H' = H ∪ xs.toFinset.image hash ∨ limit ≤ H'.card) := by
  induction xs generalizing seen H with
  | nil => exact ⟨H, hseen, by simp, Or.inl (by simp)⟩
  | cons x xs ih =>
    have hnext := hseen.insert (hash x)
    have hall : H ∪ (x :: xs).toFinset.image hash = insert (hash x) H ∪ xs.toFinset.image hash := by
      rw [List.toFinset_cons, Finset.image_insert, Finset.union_insert, Finset.insert_union]
    rw [foldBreak, collectHash, hall]
    by_cases hroom : (insertDistinct seen (hash x)).length < limit
    · rw [if_pos (by simpa using hroom)]
      exact ih hnext
    · rw [if_neg (by simpa using hroom)]
      refine ⟨_, hnext, Finset.subset_union_left, Or.inr ?_⟩
      rw [← hnext.length_eq]
      exact not_lt.mp hroom

theorem countHashes_spec (hash : Bytes → UInt64) {limit : ℕ} {seen : List UInt64} {H : Finset UInt64}
    (h : ∀ k ∈ keys, IsSetKey s kc now k) (hseen : IsSet seen H) :
    countHashes s kc now hash limit seen keys =
      .ok (min (keys.foldl (fun B k => B ∪ (membersAt s kc now k).image hash) H).card limit) := by
  induction keys generalizing seen H with
  | nil => rw [countHashes, hseen.length_eq, List.foldl_nil]
  | cons k keys ih =>
    obtain ⟨H', hcollected, hsub, hall⟩ :=
      foldBreak_collectHash hash limit hseen (memberList s kc now k)
    rw [(memberList_isSet s kc now k).elements] at hsub hall
    rw [countHashes, (h k (by simp)).siter, List.foldl_cons]
    simp only [bind, Except.bind]
    by_cases hfull : (foldBreak (collectHash hash limit) seen (memberList s kc now k)).length ≥ limit
    · rw [if_pos hfull]
      rw [hcollected.length_eq] at hfull
      have hle := hfull.trans (Finset.card_le_card (hsub.trans (subset_foldl_union
        (fun k => (membersAt s kc now k).image hash) _ keys)))
      rw [min_eq_right hle]
      rfl
    · rw [if_neg hfull]
      rw [hcollected.length_eq] at hfull
      have heq := hall.resolve_right hfull
      rw [heq] at hcollected
      exact ih (fun k hk => h k (by simp [hk])) hcollected

theorem countAllHashes_spec (hash : Bytes → UInt64) {seen : List UInt64} {H : Finset UInt64}
    (h : ∀ k ∈ keys, IsSetKey s kc now k) (hseen : IsSet seen H) :
    countAllHashes s kc now hash seen keys =
      .ok (keys.foldl (fun B k => B ∪ (membersAt s kc now k).image hash) H).card := by
  induction keys generalizing seen H with
  | nil => rw [countAllHashes, hseen.length_eq, List.foldl_nil]
  | cons k keys ih =>
    have hcollected := hseen.foldl_insertDistinct ((memberList s kc now k).map hash)
    have himage : ((memberList s kc now k).map hash).toFinset = (membersAt s kc now k).image hash := by
      rw [← (memberList_isSet s kc now k).elements]
      ext x
      simp
    rw [List.foldl_map, himage] at hcollected
    rw [countAllHashes, (h k (by simp)).siter, List.foldl_cons]
    simp only [bind, Except.bind]
    rw [foldBreak_true]
    exact ih (fun k hk => h k (by simp [hk])) hcollected

theorem applyCardLimit_eq (card limit : ℕ) (h : limit ≠ 0) : applyCardLimit card limit = min card limit :=
  if_neg h

theorem applySetLimit_getD (set : Option (List Bytes)) (limit : ℕ) :
    applySetLimit set limit = applyCardLimit (set.getD []).length limit := by
  cases set with
  | none =>
    rw [applySetLimit, applyCardLimit]
    split_ifs <;> simp
  | some xs => rfl

theorem sunioncard_spec (hash : Bytes → UInt64) (limit : ℕ) {key key' : Key}
    (h : ∀ k ∈ key :: key' :: keys, IsSetKey s kc now k) :
    sunioncard s kc now hash (key :: key' :: keys) limit = .ok (applyCardLimit
      ((SetAlgebra.expected s kc now .union (key :: key' :: keys)).image hash).card limit) := by
  have himage : (SetAlgebra.expected s kc now .union (key :: key' :: keys)).image hash =
      (key :: key' :: keys).foldl (fun B k => B ∪ (membersAt s kc now k).image hash) ∅ := by
    rw [SetAlgebra.expected, image_foldl_union, List.foldl_cons (l := key' :: keys), Finset.empty_union]
  rw [himage, sunioncard]
  · by_cases hlimit : limit > 0
    · rw [if_pos hlimit, countHashes_spec hash h .nil, applyCardLimit_eq _ _ (by omega)]
    · rw [if_neg hlimit, countAllHashes_spec hash h .nil, applyCardLimit, if_pos (by omega)]
  · intro hnil
    cases hnil
  · intro k hone
    cases hone

/-! ## Storing -/

theorem insertMember_key (kc : KeyComposer) (dst : Key) (m : Bytes) :
    (insertMember kc dst m).key = Addr.phys ⟨kc, dst, .sub .setData m⟩ :=
  (Addr.phys_sub kc dst .setData m).symm

theorem setIn_insertMembers {dst : Key} (h : SetIn id A (s.family kc dst .setData)) (xs : List Bytes) :
    SetIn id (A ∪ xs.toFinset) ((s.apply (xs.map (insertMember kc dst))).family kc dst .setData) := by
  induction xs generalizing s A with
  | nil =>
    rw [List.toFinset_nil, Finset.union_empty]
    exact h
  | cons m xs ih =>
    have hone : SetIn id (Insert.insert m A) ((s.applyOp (insertMember kc dst m)).family kc dst .setData) := by
      rw [Store.family_applyOp rfl (insertMember_key kc dst m)]
      exact h.insert m
    rw [List.map_cons, Store.apply_cons, List.toFinset_cons, Finset.union_insert, ← Finset.insert_union]
    exact ih hone

theorem setMembers_of_setIn (h : SetIn id A (s.family kc key .setData)) :
    IsSet (setMembers s kc key) A := by
  refine ⟨(setMembers_sorted s kc key).imp fun h => h.ne, Finset.ext fun m => ?_⟩
  have hcontains := contains_composeSetKey s kc key m
  have hfamily : s.data.contains (composeSetKey kc key m) = (s.family kc key .setData).contains m := by
    rw [SortedMap.contains, SortedMap.contains, Store.get_family]
    rfl
  have hmem := h.contains_iff Function.injective_id m
  rw [hfamily] at hcontains
  rw [List.mem_toFinset, ← hmem, id, hcontains, decide_eq_true_iff]

theorem ownedBy_overwrite (s : Store) (kc : KeyComposer) (dst : Key) (xs : List Bytes) :
    ∀ o ∈ clearSet s kc dst ++ xs.map (insertMember kc dst), o.OwnedBy kc dst .setMeta := by
  intro o ho
  rcases List.mem_append.mp ho with ho | ho
  · rcases List.mem_append.mp ho with ho | ho
    · exact ownedBy_clearPrefix .setData rfl ho
    · rw [List.mem_singleton.mp ho]
      exact ownedBy_metadata rfl rfl rfl
  · obtain ⟨m, -, rfl⟩ := List.mem_map.mp ho
    exact ownedBy_sub .setData rfl rfl (insertMember_key kc dst m)

theorem stored_spec {t : Store} {dst : Key} (version : UInt64) (hfits : t.Fits)
    (hcheck : checkKeyNotOtherType t kc dst now .setMeta = .ok ())
    (hin : SetIn id A (t.family kc dst .setData))
    (hget : t.metadata.get (composeSetMetaKey kc dst) = if A.card > 0 then
      some ((SimpleMeta.newWithVersion version 0 0 : SetMeta).setSize (UInt64.ofNat A.card)).encode
      else none) :
    membersAt t kc now dst = A ∧ Wedb.scard t kc dst now = .ok (UInt64.ofNat A.card) := by
  have hset := setMembers_of_setIn hin
  have hlook : getSetMeta t kc dst now = _ := getMetaChecked_of_check hcheck
  rw [hget] at hlook
  by_cases hpos : A.card > 0
  · have hlt : A.card < 2 ^ 64 := by
      rw [← hset.length_eq, setMembers, List.length_map]
      exact hfits.length_family_lt kc dst .setData
    have hsize : UInt64.ofNat A.card ≠ 0 := fun h0 => by
      have hzero := congrArg UInt64.toNat h0
      rw [UInt64.toNat_ofNat_of_lt' hlt] at hzero
      exact absurd hzero (Nat.ne_of_gt hpos)
    have hlive : MetaOps.isExpired ((SimpleMeta.newWithVersion version 0 0 : SetMeta).setSize
        (UInt64.ofNat A.card)) now = false :=
      SimpleMeta.isExpired_eq_false hsize (Or.inl rfl)
    have hfound : getSetMeta t kc dst now = .ok (some ((SimpleMeta.newWithVersion version 0 0 :
        SetMeta).setSize (UInt64.ofNat A.card))) := by
      rw [hlook, if_pos hpos, Option.bind_some]
      have hdec : MetaOps.decode (M := SetMeta) _ = _ := SimpleMeta.decode_encode
        (m := ((SimpleMeta.newWithVersion version 0 0 : SetMeta).setSize (UInt64.ofNat A.card))) rfl
      rw [hdec, Option.filter_some, hlive]
      rfl
    refine ⟨?_, ?_⟩
    · rw [membersAt, hfound]
      exact hset.elements
    · rw [Wedb.scard, hfound]
      rfl
  · have hzero : A.card = 0 := by omega
    rw [if_neg hpos] at hlook
    refine ⟨?_, ?_⟩
    · rw [membersAt, hlook, Finset.card_eq_zero.mp hzero]
      rfl
    · rw [Wedb.scard, hlook, hzero]
      rfl

theorem overwriteSetIter_spec {dst : Key} {version : UInt64}
    (hdst : checkKeyNotOtherType s kc dst now .setMeta = .ok ()) (hxs : IsSet xs A) :
    ∃ ops, overwriteSetIter s kc now dst version xs = .ok (A.card, ops) ∧
      ((s.apply ops).Fits → membersAt (s.apply ops) kc now dst = A ∧
        Wedb.scard (s.apply ops) kc dst now = .ok (UInt64.ofNat A.card)) := by
  have hseen := IsSet.nil.foldl_insertDistinct xs
  rw [hxs.elements, Finset.empty_union] at hseen
  refine ⟨_, by rw [overwriteSetIter, hdst, ← hseen.length_eq]; rfl, fun hfits => ?_⟩
  generalize xs.foldl insertDistinct [] = seen at hseen hfits ⊢
  have hcleared : SetIn id ∅ ((s.apply (clearSet s kc dst)).family kc dst .setData) := by
    rw [clearSet, Store.apply_append, Store.apply_cons, Store.apply_nil,
      Store.family_applyOp_of_metadata rfl, composeSetPrefix, Store.family_apply_clear rfl fun _ h => h]
    exact SetIn.empty id
  have hinserted := setIn_insertMembers hcleared seen
  rw [hseen.elements, Finset.empty_union, ← Store.apply_append] at hinserted
  have howned := ownedBy_overwrite s kc dst seen
  by_cases hpos : seen.length > 0
  · rw [if_pos hpos] at hfits ⊢
    refine stored_spec version hfits ?_ ?_ ?_
    · rw [checkKeyNotOtherType_apply_of_owned, hdst]
      exact ownedBy_append howned (ownedBy_metadata rfl rfl rfl)
    · rw [Store.apply_append, Store.apply_cons, Store.apply_nil, Store.family_applyOp_of_metadata rfl]
      exact hinserted
    · rw [if_pos (by rw [← hseen.length_eq]; exact hpos), Store.apply_append, hseen.length_eq]
      exact SortedMap.get_insert_self _ _ _
  · rw [if_neg hpos, List.append_nil] at hfits ⊢
    refine stored_spec version hfits ?_ hinserted ?_
    · rw [checkKeyNotOtherType_apply_of_owned howned, hdst]
    · rw [if_neg (by rw [← hseen.length_eq]; exact hpos), Store.apply_append]
      have hdata : ∀ o ∈ seen.map (insertMember kc dst), o.partition = .data := by
        intro o ho
        obtain ⟨m, -, rfl⟩ := List.mem_map.mp ho
        rfl
      rw [Store.apply_metadata_of_forall_data hdata, clearSet, Store.apply_append]
      exact SortedMap.get_erase_self _ _

theorem storeSetOpt_getD (dst : Key) (version : UInt64) (set : Option (List Bytes)) :
    storeSetOpt s kc now dst version set = overwriteSetIter s kc now dst version (set.getD []) := by
  cases set <;> rfl

/-! ## The commands of one operation -/

theorem SetAlgebra.members_spec (op : SetAlgebra) (h : ∀ k ∈ keys, IsSetKey s kc now k) :
    ∃ xs, op.members s kc now keys = .ok xs ∧ IsSet xs (op.expected s kc now keys) := by
  cases op with
  | inter =>
    obtain ⟨set, hset, hexpected⟩ := computeSinterSet_spec h
    exact ⟨set.getD [], by rw [members, sinter, hset]; rfl, hexpected⟩
  | union =>
    rw [members, sunion.eq_def]
    split
    · exact ⟨[], rfl, .nil⟩
    · exact ⟨_, (h _ (by simp)).smembers, memberList_isSet s kc now _⟩
    · exact computeSunionSet_spec h
  | diff =>
    obtain ⟨set, hset, hexpected⟩ := computeSdiffSet_spec h
    exact ⟨set.getD [], by rw [members, sdiff, hset]; rfl, hexpected⟩

theorem SetAlgebra.store_spec (op : SetAlgebra) {dst : Key} {version : UInt64}
    (h : ∀ k ∈ keys, IsSetKey s kc now k) (hdst : checkKeyNotOtherType s kc dst now .setMeta = .ok ()) :
    ∃ ops, op.store s kc now dst version keys = .ok ((op.expected s kc now keys).card, ops) ∧
      ((s.apply ops).Fits → membersAt (s.apply ops) kc now dst = op.expected s kc now keys ∧
        Wedb.scard (s.apply ops) kc dst now =
          .ok (UInt64.ofNat (op.expected s kc now keys).card)) := by
  cases op with
  | inter =>
    obtain ⟨set, hset, hexpected⟩ := computeSinterSet_spec h
    rw [store, sinterstore, hset]
    simp only [bind, Except.bind, storeSetOpt_getD]
    exact overwriteSetIter_spec hdst hexpected
  | union =>
    obtain ⟨set, hset, hexpected⟩ := computeSunionSet_spec h
    rw [store, sunionstore, hset]
    exact overwriteSetIter_spec hdst hexpected
  | diff =>
    obtain ⟨set, hset, hexpected⟩ := computeSdiffSet_spec h
    rw [store, sdiffstore, hset]
    simp only [bind, Except.bind, storeSetOpt_getD]
    exact overwriteSetIter_spec hdst hexpected

theorem SetAlgebra.card_single (op : SetAlgebra) (hash : Bytes → UInt64) (key : Key) (limit : ℕ) :
    op.card s kc now hash [key] limit =
      (Wedb.scard s kc key now).map fun card => applyCardLimit card.toNat limit := by
  cases op <;> rfl

theorem SetAlgebra.expected_single (op : SetAlgebra) (key : Key) :
    op.expected s kc now [key] = membersAt s kc now key := by
  cases op <;> rfl

theorem SetAlgebra.card_several (op : SetAlgebra) (hash : Bytes → UInt64) (limit : ℕ) {key key' : Key}
    (h : ∀ k ∈ key :: key' :: keys, IsSetKey s kc now k) :
    op.card s kc now hash (key :: key' :: keys) limit = .ok (applyCardLimit
      (if op = .union then ((op.expected s kc now (key :: key' :: keys)).image hash).card
        else (op.expected s kc now (key :: key' :: keys)).card) limit) := by
  cases op with
  | inter =>
    obtain ⟨set, hset, hexpected⟩ := computeSinterSet_spec h
    rw [if_neg (by simp), card, sintercard, hset, ← hexpected.length_eq, ← applySetLimit_getD]
    · rfl
    · simp
    · simp
  | union => exact sunioncard_spec hash limit h
  | diff =>
    obtain ⟨set, hset, hexpected⟩ := computeSdiffSet_spec h
    rw [if_neg (by simp), card, sdiffcard, hset, ← hexpected.length_eq, ← applySetLimit_getD]
    · rfl
    · simp
    · simp

theorem SetAlgebra.card_exact_iff (op : SetAlgebra) (hash : Bytes → UInt64) (limit : ℕ)
    (h : ∀ k ∈ keys, IsSetKey s kc now k) :
    op.card s kc now hash keys limit = .ok (applyCardLimit (op.expected s kc now keys).card limit) ↔
      AlgebraHolds s kc now op hash keys limit := by
  match keys with
  | [] =>
    refine iff_of_true ?_ trivial
    cases op <;> cases limit <;> rfl
  | [key] =>
    obtain ⟨found, hget⟩ := h key (by simp)
    rw [op.card_single, op.expected_single, AlgebraHolds, Wedb.scard, hget]
    cases found with
    | none =>
      refine iff_of_true ?_ (by simp)
      rw [membersAt, hget]
      rfl
    | some m =>
      simp only [Except.map, Option.map_some, Option.getD_some, Except.ok.injEq, Option.some.injEq,
        forall_eq']
  | key :: key' :: keys =>
    rw [op.card_several hash limit h, Except.ok.injEq, AlgebraHolds]
    · by_cases hop : op = .union
      · rw [if_pos hop]
        exact ⟨fun heq _ => heq, fun himp => himp hop⟩
      · rw [if_neg hop]
        exact iff_of_true rfl fun hunion => absurd hunion hop
    · simp
    · simp

/-- Set algebra is exact where the count of a single key is that of its members and the
members of a union of several have as many hashes, both up to the limit. -/
theorem setAlgebra_exact_iff (s : Store) (kc : KeyComposer) (now : UInt64) (op : SetAlgebra)
    (hash : Bytes → UInt64) (keys : List Key) (limit : ℕ) (h : ∀ k ∈ keys, IsSetKey s kc now k) :
    AlgebraExact s kc now op hash keys limit ↔ AlgebraHolds s kc now op hash keys limit := by
  refine ⟨fun hexact => (op.card_exact_iff hash limit h).mp hexact.card, fun hholds => ?_⟩
  exact ⟨op.members_spec h, (op.card_exact_iff hash limit h).mpr hholds,
    fun dst version hdst => op.store_spec h hdst⟩

end

/-! ## Two sets of one member -/

def singletonSet (key : Key) (member : Bytes) : Batch :=
  [insertMember ⟨0, 0⟩ key member,
    .insertMeta (composeSetMetaKey ⟨0, 0⟩ key) (SimpleMeta.newWithVersion 1 0 1 : SetMeta).encode]

def twoSets : Store :=
  (∅ : Store).apply (singletonSet sampleKey [97] ++ singletonSet sampleDst [98])

theorem twoSets_isSetKey : ∀ k ∈ [sampleKey, sampleDst], IsSetKey twoSets ⟨0, 0⟩ 1 k := by
  have hfound : ∀ k ∈ [sampleKey, sampleDst],
      (getSetMeta twoSets ⟨0, 0⟩ k 1).toOption.isSome = true := by
    decide +kernel
  intro k hk
  have hsome := hfound k hk
  cases hget : getSetMeta twoSets ⟨0, 0⟩ k 1 with
  | error err =>
    rw [hget] at hsome
    cases hsome
  | ok found => exact ⟨found, hget⟩

theorem setAlgebra_exact_iff_sample :
    AlgebraExact twoSets ⟨0, 0⟩ 1 .inter (fun _ => 0) [sampleKey, sampleDst] 0 ↔
      AlgebraHolds twoSets ⟨0, 0⟩ 1 .inter (fun _ => 0) [sampleKey, sampleDst] 0 :=
  setAlgebra_exact_iff twoSets ⟨0, 0⟩ 1 .inter (fun _ => 0) [sampleKey, sampleDst] 0 twoSets_isSetKey

/-- Two members with one hash are counted once in a union. -/
theorem sunioncard_counts_hashes : ¬∀ s kc now op hash keys limit,
    (∀ k ∈ keys, IsSetKey s kc now k) → AlgebraExact s kc now op hash keys limit := by
  intro hexact
  have hcard := (hexact twoSets ⟨0, 0⟩ 1 .union (fun _ => 0) [sampleKey, sampleDst] 0
    twoSets_isSetKey).card
  have hcounts : (sunioncard twoSets ⟨0, 0⟩ 1 (fun _ => 0) [sampleKey, sampleDst] 0).toOption ≠
      some (applyCardLimit (SetAlgebra.expected twoSets ⟨0, 0⟩ 1 .union [sampleKey, sampleDst]).card 0) := by
    decide +kernel
  exact hcounts (congrArg Except.toOption hcard)

end Wedb
