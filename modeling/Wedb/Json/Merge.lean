import Wedb.Json.Eval

/-!
# Merge patches

A patch that is an object is merged member by member: a null takes the member away, any
other value is merged into the member, which is there as a null before. Everything else
replaces the target.
-/

namespace Wedb.Json

mutual

def jsonMergePatch : Json → Json → Json
  | target, object patch => object (mergeMembers (target.asObject.getD []) patch)
  | _, patch => patch

def mergeMembers : List (Text × Json) → List (Text × Json) → List (Text × Json)
  | obj, [] => obj
  | obj, (k, v) :: patch =>
    mergeMembers
      (if v.isNull then removeKey obj k
        else insertKey obj k (jsonMergePatch ((getKey obj k).getD null) v)) patch

end

section Command

variable (api : ValueApi) (fuel : ℕ)

def errNewObjectsMustBeCreatedAtRoot : Error :=
  .invalidData "new objects must be created at the root"

def jsonMerge (doc : Option Json) (path : Text) (patch : Json) : Except Error (Option Json) :=
  let p := JsonPath.trim path
  match doc with
  | some root =>
    if JsonPath.isRootPath p then .ok (some (jsonMergePatch root patch))
    else if patch.isNull then
      (deletePathValues api fuel root p).map fun result => result.map Prod.fst
    else
      (mutatePathValues api (fun node => jsonMergePatch node patch) fuel root p).bind fun mutated =>
        match mutated with
        | none => .ok none
        | some (node, n) => if n = 0 then jsonSetPath api fuel node p patch else .ok (some node)
  | none =>
    if JsonPath.isRootPath p then .ok (some (jsonMergePatch (object []) patch))
    else .error errNewObjectsMustBeCreatedAtRoot

end Command

/-! ## The patch of the standard -/

mutual

/-- No object of the value has a key twice. -/
def Distinct : Json → Prop
  | object pairs => (pairs.map Prod.fst).Nodup ∧ MembersDistinct pairs
  | array xs => ElementsDistinct xs
  | _ => True

def ElementsDistinct : List Json → Prop
  | [] => True
  | x :: xs => Distinct x ∧ ElementsDistinct xs

def MembersDistinct : List (Text × Json) → Prop
  | [] => True
  | (_, x) :: pairs => Distinct x ∧ MembersDistinct pairs

end

mutual

/-- The result of a merge as its members: those that the patch does not name are the target's,
a null takes one away, and any other value is merged into the target's. -/
def IsMergePatch : Json → Json → Json → Prop
  | target, object patch, result =>
    ∃ out, result = object out ∧ (out.map Prod.fst).Nodup ∧
      (∀ k, k ∉ patch.map Prod.fst → getKey out k = getKey (target.asObject.getD []) k) ∧
      MembersMerged (target.asObject.getD []) patch out
  | _, patch, result => result = patch

def MembersMerged : List (Text × Json) → List (Text × Json) → List (Text × Json) → Prop
  | _, [], _ => True
  | obj, (k, v) :: patch, out =>
    (if v.isNull then getKey out k = none
      else ∃ x, getKey out k = some x ∧ IsMergePatch ((getKey obj k).getD null) v x) ∧
      MembersMerged obj patch out

end

mutual

/-- No member of an object that the patch merges is null. -/
def NoNullMembers : Json → Prop
  | object patch => MembersNotNull patch
  | _ => True

def MembersNotNull : List (Text × Json) → Prop
  | [] => True
  | (_, v) :: patch => v.isNull = false ∧ NoNullMembers v ∧ MembersNotNull patch

end

/-! ## The members of a merge -/

theorem nodup_mergeMembers {obj patch : List (Text × Json)} (hobj : (obj.map Prod.fst).Nodup) :
    ((mergeMembers obj patch).map Prod.fst).Nodup := by
  induction patch generalizing obj with
  | nil =>
    rw [mergeMembers]
    exact hobj
  | cons pair patch ih =>
    obtain ⟨k, v⟩ := pair
    rw [mergeMembers]
    split_ifs
    · exact ih (nodup_removeKey hobj)
    · exact ih (nodup_insertKey hobj)

theorem getKey_mergeMembers_of_not_mem {obj patch : List (Text × Json)} {k : Text}
    (hobj : (obj.map Prod.fst).Nodup) (hk : k ∉ patch.map Prod.fst) :
    getKey (mergeMembers obj patch) k = getKey obj k := by
  induction patch generalizing obj with
  | nil => rw [mergeMembers]
  | cons pair patch ih =>
    obtain ⟨k', v⟩ := pair
    obtain ⟨hne, hk⟩ := not_or.mp (mt List.mem_cons.mpr hk)
    rw [mergeMembers]
    split_ifs
    · rw [ih (nodup_removeKey hobj) hk, getKey_removeKey hobj, if_neg (Ne.symm hne)]
    · rw [ih (nodup_insertKey hobj) hk, getKey_insertKey, if_neg (Ne.symm hne)]

theorem getKey_mergeMembers {obj patch : List (Text × Json)} {k : Text} {v : Json}
    (hobj : (obj.map Prod.fst).Nodup) (hpatch : (patch.map Prod.fst).Nodup)
    (hmem : (k, v) ∈ patch) :
    getKey (mergeMembers obj patch) k =
      if v.isNull then none else some (jsonMergePatch ((getKey obj k).getD null) v) := by
  induction patch generalizing obj with
  | nil => cases hmem
  | cons pair patch ih =>
    obtain ⟨k', v'⟩ := pair
    rw [List.map_cons, List.nodup_cons] at hpatch
    rw [mergeMembers]
    rcases List.mem_cons.mp hmem with heq | hmem
    · obtain ⟨rfl, rfl⟩ := Prod.mk.inj heq
      split_ifs with hnull
      · rw [getKey_mergeMembers_of_not_mem (nodup_removeKey hobj) hpatch.1, getKey_removeKey hobj,
          if_pos rfl]
      · rw [getKey_mergeMembers_of_not_mem (nodup_insertKey hobj) hpatch.1, getKey_insertKey,
          if_pos rfl]
    · have hne : k' ≠ k := by
        rintro rfl
        exact hpatch.1 (List.mem_map.mpr ⟨_, hmem, rfl⟩)
      split_ifs with hnull' hnull hnull
      · rw [ih (nodup_removeKey hobj) hpatch.2 hmem, if_pos hnull]
      · rw [ih (nodup_removeKey hobj) hpatch.2 hmem, if_neg hnull, getKey_removeKey hobj,
          if_neg hne]
      · rw [ih (nodup_insertKey hobj) hpatch.2 hmem, if_pos hnull]
      · rw [ih (nodup_insertKey hobj) hpatch.2 hmem, if_neg hnull, getKey_insertKey, if_neg hne]

theorem distinct_of_getKey {pairs : List (Text × Json)} {k : Text} {x : Json}
    (hpairs : MembersDistinct pairs) (h : getKey pairs k = some x) : Distinct x := by
  induction pairs with
  | nil => cases h
  | cons pair pairs ih =>
    obtain ⟨k', x'⟩ := pair
    rw [MembersDistinct] at hpairs
    rw [getKey_cons] at h
    split_ifs at h
    · exact Option.some.inj h ▸ hpairs.1
    · exact ih hpairs.2 h

theorem distinct_getD {pairs : List (Text × Json)} (hpairs : MembersDistinct pairs) (k : Text) :
    Distinct ((getKey pairs k).getD null) := by
  cases h : getKey pairs k with
  | none => trivial
  | some x => exact distinct_of_getKey hpairs h

theorem distinct_asObject {t : Json} (ht : Distinct t) :
    ((t.asObject.getD []).map Prod.fst).Nodup ∧ MembersDistinct (t.asObject.getD []) := by
  cases t with
  | object pairs =>
    rw [Distinct] at ht
    exact ht
  | _ => exact ⟨List.nodup_nil, trivial⟩

mutual

theorem jsonMergePatch_isMergePatch (t p : Json) (ht : Distinct t) (hp : Distinct p) :
    IsMergePatch t p (jsonMergePatch t p) := by
  cases p with
  | object patch =>
    rw [Distinct] at hp
    obtain ⟨hobj, hmembers⟩ := distinct_asObject ht
    rw [IsMergePatch, jsonMergePatch]
    refine ⟨_, rfl, nodup_mergeMembers hobj, fun k hk => getKey_mergeMembers_of_not_mem hobj hk, ?_⟩
    exact membersMerged_of_getKey _ patch _ hmembers hp.2
      fun k v hmem => getKey_mergeMembers hobj hp.1 hmem
  | _ => rfl

theorem membersMerged_of_getKey (obj patch out : List (Text × Json)) (hobj : MembersDistinct obj)
    (hpatch : MembersDistinct patch)
    (hout : ∀ k v, (k, v) ∈ patch → getKey out k =
      if v.isNull then none else some (jsonMergePatch ((getKey obj k).getD null) v)) :
    MembersMerged obj patch out := by
  cases patch with
  | nil => trivial
  | cons pair patch =>
    obtain ⟨k, v⟩ := pair
    rw [MembersDistinct] at hpatch
    rw [MembersMerged]
    refine ⟨?_, membersMerged_of_getKey obj patch out hobj hpatch.2 fun k' v' hmem =>
      hout k' v' (List.mem_cons_of_mem _ hmem)⟩
    have hk := hout k v List.mem_cons_self
    split_ifs at hk ⊢ with hnull
    · exact hk
    · exact ⟨_, hk, jsonMergePatch_isMergePatch _ v (distinct_getD hobj k) hpatch.1⟩

end

mutual

theorem jsonMergePatch_idem (t p : Json) (ht : Distinct t) (hp : Distinct p) :
    jsonMergePatch (jsonMergePatch t p) p = jsonMergePatch t p := by
  cases p with
  | object patch =>
    rw [Distinct] at hp
    obtain ⟨hobj, hmembers⟩ := distinct_asObject ht
    rw [jsonMergePatch, jsonMergePatch]
    refine congrArg object ?_
    exact mergeMembers_settled _ patch _ hmembers hp.2
      fun k v hmem => getKey_mergeMembers hobj hp.1 hmem
  | _ => rfl

theorem mergeMembers_settled (obj patch out : List (Text × Json)) (hobj : MembersDistinct obj)
    (hpatch : MembersDistinct patch)
    (hout : ∀ k v, (k, v) ∈ patch → getKey out k =
      if v.isNull then none else some (jsonMergePatch ((getKey obj k).getD null) v)) :
    mergeMembers out patch = out := by
  cases patch with
  | nil => rw [mergeMembers]
  | cons pair patch =>
    obtain ⟨k, v⟩ := pair
    rw [MembersDistinct] at hpatch
    have hrest := mergeMembers_settled obj patch out hobj hpatch.2 fun k' v' hmem =>
      hout k' v' (List.mem_cons_of_mem _ hmem)
    have hk := hout k v List.mem_cons_self
    rw [mergeMembers]
    split_ifs at hk ⊢ with hnull
    · rw [removeKey_of_not_mem hk, hrest]
    · rw [hk, Option.getD_some, jsonMergePatch_idem _ v (distinct_getD hobj k) hpatch.1,
        insertKey_self hk, hrest]

end

/-! ## A patch merged into nothing -/

theorem not_mem_appended {obj patch : List (Text × Json)} {k : Text}
    (hk : k ∉ patch.map Prod.fst) (hnew : ∀ k' ∈ patch.map Prod.fst, k' ∉ obj.map Prod.fst)
    (m : Json) : ∀ k' ∈ patch.map Prod.fst, k' ∉ (obj ++ [(k, m)]).map Prod.fst := by
  intro k' hmem hin
  rw [List.map_append, List.mem_append] at hin
  rcases hin with hin | hin
  · exact hnew k' hmem hin
  · rw [List.map_singleton, List.mem_singleton] at hin
    rw [hin] at hmem
    exact hk hmem

theorem mergeMembers_append {obj patch : List (Text × Json)} (hpatch : (patch.map Prod.fst).Nodup)
    (hnew : ∀ k ∈ patch.map Prod.fst, k ∉ obj.map Prod.fst) :
    ∃ added, added.length ≤ patch.length ∧ mergeMembers obj patch = obj ++ added := by
  induction patch generalizing obj with
  | nil => exact ⟨[], le_rfl, by rw [mergeMembers, List.append_nil]⟩
  | cons pair patch ih =>
    obtain ⟨k, v⟩ := pair
    rw [List.map_cons, List.nodup_cons] at hpatch
    have hk := hnew k List.mem_cons_self
    have hnew' : ∀ k' ∈ patch.map Prod.fst, k' ∉ obj.map Prod.fst := fun k' hmem =>
      hnew k' (List.mem_cons_of_mem _ hmem)
    rw [mergeMembers]
    split_ifs
    · obtain ⟨added, hlen, heq⟩ := ih hpatch.2 hnew'
      rw [removeKey_of_not_mem (getKey_eq_none_iff.mpr hk)]
      exact ⟨added, by simp only [List.length_cons]; omega, heq⟩
    · rw [insertKey_of_not_mem hk]
      generalize jsonMergePatch ((getKey obj k).getD null) v = m
      obtain ⟨added, hlen, heq⟩ := ih hpatch.2 (not_mem_appended hpatch.1 hnew' m)
      refine ⟨(k, m) :: added, Nat.succ_le_succ hlen, ?_⟩
      rw [heq, List.append_assoc, List.singleton_append]

mutual

theorem jsonMergePatch_null_iff (p : Json) (hp : Distinct p) :
    jsonMergePatch null p = p ↔ NoNullMembers p := by
  cases p with
  | object patch =>
    rw [Distinct] at hp
    have hmembers := mergeMembers_new_iff [] patch hp.1 hp.2 fun k _ => List.not_mem_nil
    rw [jsonMergePatch, NoNullMembers, ← hmembers, List.nil_append, object.injEq]
    rfl
  | _ => exact iff_of_true rfl trivial

theorem mergeMembers_new_iff (obj patch : List (Text × Json)) (hpatch : (patch.map Prod.fst).Nodup)
    (hdistinct : MembersDistinct patch) (hnew : ∀ k ∈ patch.map Prod.fst, k ∉ obj.map Prod.fst) :
    mergeMembers obj patch = obj ++ patch ↔ MembersNotNull patch := by
  cases patch with
  | nil => exact iff_of_true (by rw [mergeMembers, List.append_nil]) trivial
  | cons pair patch =>
    obtain ⟨k, v⟩ := pair
    rw [List.map_cons, List.nodup_cons] at hpatch
    rw [MembersDistinct] at hdistinct
    have hk := hnew k List.mem_cons_self
    have hnew' : ∀ k' ∈ patch.map Prod.fst, k' ∉ obj.map Prod.fst := fun k' hmem =>
      hnew k' (List.mem_cons_of_mem _ hmem)
    rw [mergeMembers, MembersNotNull]
    cases hnull : v.isNull with
    | true =>
      rw [if_pos rfl, removeKey_of_not_mem (getKey_eq_none_iff.mpr hk)]
      refine iff_of_false (fun heq => ?_) fun h => Bool.false_ne_true h.1.symm
      obtain ⟨added, hlen, happ⟩ := mergeMembers_append hpatch.2 hnew'
      rw [happ] at heq
      have hadded := congrArg List.length (List.append_cancel_left heq)
      rw [List.length_cons] at hadded
      omega
    | false =>
      rw [if_neg Bool.false_ne_true, getKey_eq_none_iff.mpr hk, Option.getD_none,
        insertKey_of_not_mem hk, and_iff_right rfl, ← jsonMergePatch_null_iff v hdistinct.1]
      have hnew'' := not_mem_appended hpatch.1 hnew' (jsonMergePatch null v)
      have hrest := mergeMembers_new_iff (obj ++ [(k, jsonMergePatch null v)]) patch hpatch.2
        hdistinct.2 hnew''
      rw [← hrest]
      obtain ⟨added, -, happ⟩ := mergeMembers_append hpatch.2 hnew''
      rw [happ, List.append_assoc, List.append_assoc, List.singleton_append, List.singleton_append]
      constructor
      · intro heq
        obtain ⟨hpair, rfl⟩ := List.cons.inj (List.append_cancel_left heq)
        exact ⟨(Prod.mk.inj hpair).2, rfl⟩
      · rintro ⟨hv, heq⟩
        rw [hv] at heq ⊢
        exact heq

end

/-! ## Merging at a field -/

section

variable {api : ValueApi} {path name : Text}

/-- The path is that of one field of the root, through the shortcut or through the parser. -/
def IsFieldPath (api : ValueApi) (path name : Text) : Prop :=
  match JsonPath.extractSimpleField path with
  | some field => field = name
  | none =>
    JsonPath.parseJsonPath api path = .ok [.root, .field name] ∨
      JsonPath.parseJsonPath api path = .ok [.field name]

theorem not_isRootPath_of_isFieldPath (h : IsFieldPath api path name)
    (htrim : JsonPath.trim path = path) : ¬JsonPath.isRootPath path := by
  intro hroot
  have hsimple : JsonPath.extractSimpleField path = none := by
    rcases hroot with rfl | rfl | rfl <;> rfl
  have hparse : JsonPath.parseJsonPath api path = .ok [.root] := by
    rw [JsonPath.parseJsonPath, htrim, if_pos hroot]
  rw [IsFieldPath, hsimple, hparse] at h
  rcases h with h | h <;> simp at h

theorem mutatePathValues_field (h : IsFieldPath api path name) (htrim : JsonPath.trim path = path)
    (f : Json → Json) (fuel : ℕ) (root : Json) :
    mutatePathValues api f (fuel + 3) root path =
      .ok (visitSegment api (fun v => some (f v, 1)) root (.field name)) := by
  rw [mutatePathValues, htrim, if_neg (not_isRootPath_of_isFieldPath h htrim)]
  cases hfield : JsonPath.extractSimpleField path with
  | some field =>
    rw [IsFieldPath, hfield] at h
    rw [h]
  | none =>
    rw [IsFieldPath, hfield] at h
    rcases h with h | h
    · rw [h]
      rfl
    · rw [h]
      rfl

theorem deletePathValues_field (h : IsFieldPath api path name) (htrim : JsonPath.trim path = path)
    (fuel : ℕ) (root : Json) :
    deletePathValues api (fuel + 1) root path = .ok (deleteSegment api root (.field name)) := by
  rw [deletePathValues, htrim, if_neg (not_isRootPath_of_isFieldPath h htrim)]
  cases hfield : JsonPath.extractSimpleField path with
  | some field =>
    rw [IsFieldPath, hfield] at h
    rw [h]
  | none =>
    rw [IsFieldPath, hfield] at h
    rcases h with h | h
    · rw [h]
      rfl
    · rw [h]
      rfl

variable {pairs : List (Text × Json)}

theorem jsonSetPath_field_absent (h : IsFieldPath api path name) (htrim : JsonPath.trim path = path)
    (habsent : getKey pairs name = none) (fuel : ℕ) (newVal : Json) :
    jsonSetPath api (fuel + 3) (object pairs) path newVal =
      .ok (some (object (insertKey pairs name newVal))) := by
  have hmutated := mutatePathValues_field h htrim (fun _ => newVal) fuel (object pairs)
  simp only [visitSegment, visitKey, habsent, mapNode, Option.map_some] at hmutated
  rw [jsonSetPath, htrim, if_neg (not_isRootPath_of_isFieldPath h htrim), hmutated]
  cases hfield : JsonPath.extractSimpleField path with
  | some field =>
    rw [IsFieldPath, hfield] at h
    rw [← h]
    simp only [Except.bind, lt_irrefl, if_false]
    rfl
  | none =>
    rw [IsFieldPath, hfield] at h
    simp only [Except.bind, lt_irrefl, if_false]
    rcases h with h | h
    · rw [h]
      rfl
    · rw [h]
      rfl

theorem jsonMerge_field (h : IsFieldPath api (JsonPath.trim path) name) (fuel : ℕ) (patch : Json) :
    jsonMerge api (fuel + 3) (some (object pairs)) path patch =
      .ok (some (object (if patch.isNull then removeKey pairs name
        else insertKey pairs name
          (match getKey pairs name with
            | some x => jsonMergePatch x patch
            | none => patch)))) := by
  have htrim := JsonPath.trim_trim path
  rw [jsonMerge, if_neg (not_isRootPath_of_isFieldPath h htrim)]
  split_ifs with hnull
  · rw [deletePathValues_field h htrim (fuel + 2)]
    rfl
  · rw [mutatePathValues_field h htrim]
    cases hget : getKey pairs name with
    | some x =>
      simp only [visitSegment, visitKey, hget, mapNode, Option.map_some, Except.bind, one_ne_zero,
        if_false]
    | none =>
      simp only [visitSegment, visitKey, hget, mapNode, Option.map_some, Except.bind, if_true]
      exact jsonSetPath_field_absent h htrim hget fuel patch

theorem jsonMerge_root (fuel : ℕ) (patch : Json) :
    jsonMerge api fuel (some (object pairs)) ['$'] (object [(name, patch)]) =
      .ok (some (object (if patch.isNull then removeKey pairs name
        else insertKey pairs name (jsonMergePatch ((getKey pairs name).getD null) patch)))) := by
  rfl

/-- A merge patch is the standard's and is idempotent; merged at a field it is the patch of
that member exactly where the field is there or the patch puts no null into an object. -/
theorem jsonMerge_field_iff (t p : Json) (ht : Distinct t) (hp : Distinct p)
    (hpath : IsFieldPath api (JsonPath.trim path) name) (fuel : ℕ) :
    IsMergePatch t p (jsonMergePatch t p) ∧
      jsonMergePatch (jsonMergePatch t p) p = jsonMergePatch t p ∧
      (jsonMerge api (fuel + 3) (some (object pairs)) path p =
          jsonMerge api (fuel + 3) (some (object pairs)) ['$'] (object [(name, p)]) ↔
        (getKey pairs name).isSome ∨ NoNullMembers p) := by
  refine ⟨jsonMergePatch_isMergePatch t p ht hp, jsonMergePatch_idem t p ht hp, ?_⟩
  rw [jsonMerge_field hpath, jsonMerge_root]
  cases hget : getKey pairs name with
  | some x => simp
  | none =>
    rw [← jsonMergePatch_null_iff p hp]
    cases hnull : p.isNull with
    | true =>
      cases p with
      | null => simp [jsonMergePatch]
      | _ => cases hnull
    | false =>
      simp [insertKey_of_not_mem (getKey_eq_none_iff.mp hget), eq_comm]

end

/-- A field of an empty document and a patch that is a number. -/
theorem jsonMerge_field_number :
    let api : ValueApi :=
      ⟨fun _ => none, fun _ _ => false, fun _ => null, fun _ => null, fun _ => none⟩
    IsMergePatch null (bool true) (jsonMergePatch null (bool true)) ∧
      jsonMergePatch (jsonMergePatch null (bool true)) (bool true) =
        jsonMergePatch null (bool true) ∧
      (jsonMerge api 3 (some (object [])) ['$', '.', 'a'] (bool true) =
          jsonMerge api 3 (some (object [])) ['$'] (object [(['a'], bool true)]) ↔
        (getKey [] ['a']).isSome ∨ NoNullMembers (bool true)) := by
  intro api
  have hpath : IsFieldPath api (JsonPath.trim ['$', '.', 'a']) ['a'] := show ['a'] = ['a'] from rfl
  exact jsonMerge_field_iff null (bool true) trivial trivial hpath 0

/-- Below a field that is not there a null of the patch is stored. -/
theorem jsonMerge_field_stores_null :
    ¬∀ (api : ValueApi) (t p : Json) (pairs : List (Text × Json)) (path name : Text) (fuel : ℕ),
      Distinct t → Distinct p → IsFieldPath api (JsonPath.trim path) name →
      IsMergePatch t p (jsonMergePatch t p) ∧
        jsonMergePatch (jsonMergePatch t p) p = jsonMergePatch t p ∧
        jsonMerge api (fuel + 3) (some (object pairs)) path p =
          jsonMerge api (fuel + 3) (some (object pairs)) ['$'] (object [(name, p)]) := by
  intro hclaim
  have hpath : IsFieldPath
      ⟨fun _ => none, fun _ _ => false, fun _ => null, fun _ => null, fun _ => none⟩
      (JsonPath.trim ['$', '.', 'a']) ['a'] := show ['a'] = ['a'] from rfl
  have hmerge := (hclaim _ null (object [(['b'], null)]) [] ['$', '.', 'a'] ['a'] 0 trivial
    ⟨by simp, trivial, trivial⟩ hpath).2.2
  rw [jsonMerge_field hpath, jsonMerge_root] at hmerge
  simp [isNull, getKey, insertKey, jsonMergePatch, mergeMembers, removeKey, asObject] at hmerge

end Wedb.Json
