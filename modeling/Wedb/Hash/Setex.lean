import Wedb.Hash.ReadBack
import Wedb.Hash.Lex

/-!
# What HSETEX leaves behind

A write with options is read back as its value with the expiry it asked for. A field
that is stored but expired counts as missing for the conditions and the counters, but
KEEPTTL still lends it its own passed expiry, so the new value cannot be read.
-/

namespace Wedb

/-- What the options ask for, with an unbounded clock. -/
inductive RequestedTtl
  | discard
  | keep
  | expireAt (target : ℕ)

def RequestedTtl.next (nowMs : UInt64) (requested : RequestedTtl) : HSet → RequestedTtl
  | .ex sec => .expireAt (nowMs.toNat + 1000 * sec.toNat)
  | .px ms => .expireAt (nowMs.toNat + ms.toNat)
  | .exAt sec => .expireAt (1000 * sec.toNat)
  | .pxAt ms => .expireAt ms.toNat
  | .keepTtl => .keep
  | .fnx | .fxx => requested

def requestedTtl (options : List HSet) (nowMs : UInt64) : RequestedTtl :=
  options.foldl (RequestedTtl.next nowMs) .discard

def ttlAfter (requested : RequestedTtl) (before : CachedFieldState) : Option ℕ :=
  match requested with
  | .discard => none
  | .keep => if before.kind = .liveTTL then some before.expire.toNat else none
  | .expireAt target => some target

section
variable (s : Store) (kc : KeyComposer) (key : Key) (nowMs : UInt64) (field value : Bytes)
  (options : List HSet)

def fieldBefore : CachedFieldState :=
  match getHashMeta s kc key nowMs with
  | .ok (some hm) => loadFieldState s kc key nowMs hm field
  | _ => .missing

/-- HGET answers the value, and the TTL queries answer the expiry. -/
def FieldIs (ttl : Option ℕ) : Prop :=
  hget s kc key nowMs field = .ok (some value) ∧
    match ttl with
    | none => ∀ map, queryFieldExpireInfoOne s kc key nowMs field map = .ok hashFieldPersistent
    | some t => ∃ e : UInt64, e.toNat = t ∧
        ∀ map, queryFieldExpireInfoOne s kc key nowMs field map = .ok (map e nowMs)

/-- No write of a refused call, and the new field after a call that sets no passed expiry. -/
def SetexExact (hit : Bool) (ops : Batch) : Prop :=
  (hit = false → s.apply ops = s) ∧
    (hit = true → (∀ t, requestedTtl options nowMs = .expireAt t → nowMs.toNat < t) →
      FieldIs (s.apply ops) kc key nowMs field value
        (ttlAfter (requestedTtl options nowMs) (fieldBefore s kc key nowMs field)))

/-- A stored field that the counters do not count. -/
def CountersHide (before : CachedFieldState) (ttl : Option ℕ) : Prop :=
  ∃ hm, getHashMeta s kc key nowMs = .ok (some hm) ∧
    (before.kind = .persistent ∨ before.kind = .liveTTL) ∧
    (hm.base.size = 0 ∨ before.kind = .persistent ∧ ttl = none ∧
      hm.upper ≠ 0 ∧ nowMs > hm.upper ∧ hm.persist = 0)

/-- The call is refused or sets a passed expiry, or its expiry is a word, KEEPTTL does not
meet an expired field, and the counters count the field. -/
def SetexHolds : Prop :=
  setConditionMet (HashSetEx.fromOptions options nowMs).condition
      (fieldBefore s kc key nowMs field).kind = true →
    (∀ t, requestedTtl options nowMs = .expireAt t → nowMs.toNat < t) →
      (∀ t, requestedTtl options nowMs = .expireAt t → t < 2 ^ 64) ∧
      ¬(requestedTtl options nowMs = .keep ∧
        (fieldBefore s kc key nowMs field).kind = .expiredTTLPhysical) ∧
      ¬CountersHide s kc key nowMs (fieldBefore s kc key nowMs field)
        (ttlAfter (requestedTtl options nowMs) (fieldBefore s kc key nowMs field))

end

/-! ## Options -/

/-- The options as they are kept, with an expiry that stops at the greatest word. -/
def RequestedTtl.Reads (requested : RequestedTtl) (opts : HashSetEx) : Prop :=
  match requested with
  | .discard => opts.ttlAction = .discard
  | .keep => opts.ttlAction = .keep
  | .expireAt t => opts.ttlAction = .set ∧ opts.expireAtMs.toNat = min t (2 ^ 64 - 1)

theorem requestedTtl_reads (options : List HSet) (now : UInt64) :
    (requestedTtl options now).Reads (HashSetEx.fromOptions options now) := by
  rw [requestedTtl, HashSetEx.fromOptions]
  have hstart : RequestedTtl.discard.Reads ⟨.none, .discard, 0⟩ := rfl
  generalize RequestedTtl.discard = requested at hstart ⊢
  generalize (⟨.none, .discard, 0⟩ : HashSetEx) = opts at hstart ⊢
  induction options generalizing requested opts with
  | nil => exact hstart
  | cons flag options ih =>
    rw [List.foldl_cons, List.foldl_cons]
    refine ih _ _ ?_
    have hk : (1000 : UInt64).toNat = 1000 := rfl
    cases flag with
    | ex sec =>
      refine ⟨rfl, ?_⟩
      rw [UInt64.toNat_satAdd_eq_min, UInt64.toNat_satMul_eq_min, hk]
      omega
    | px ms => exact ⟨rfl, UInt64.toNat_satAdd_eq_min now ms⟩
    | exAt sec =>
      refine ⟨rfl, ?_⟩
      rw [UInt64.toNat_satMul_eq_min, hk]
      omega
    | pxAt ms =>
      have hlt := ms.toNat_lt
      refine ⟨rfl, ?_⟩
      show ms.toNat = min ms.toNat (2 ^ 64 - 1)
      omega
    | keepTtl => exact rfl
    | fnx => cases requested <;> exact hstart
    | fxx => cases requested <;> exact hstart

/-! ## Counters -/

section
variable {s : Store} {kc : KeyComposer} {key : Key} {now version target : UInt64}
  {f v : Bytes} {hm m : HashMeta} {ops : Batch} {kind : HashFieldStateKind}

theorem HashMeta.clearBounds_sendsAway (hmode : m.mode = .fieldExpiration) :
    m.clearBoundsIfNoTtlCandidates.sendsAway now ↔ m.sendsAway now := by
  rw [clearBoundsIfNoTtlCandidates, isFieldExpirationEncoding, hmode]
  by_cases hclear : m.base.size = m.persist
  · rw [if_pos (by simp [hclear])]
    simp only [sendsAway, hclear]
    constructor
    · rintro (hsize | ⟨hupper, -⟩)
      · exact Or.inl hsize
      · exact absurd rfl hupper
    · rintro (hsize | ⟨-, -, hpersist⟩)
      · exact Or.inl hsize
      · exact Or.inl (by simp [hpersist])
  · rw [if_neg (by simp [hclear])]

theorem HashMeta.expand_upper (hmode : m.mode = .fieldExpiration) (htarget : now < target) :
    ¬now > (m.expandExpireBounds target).upper := by
  have hne : ¬target = 0 := fun h0 => by
    rw [h0] at htarget
    exact absurd htarget (by simp)
  rw [expandExpireBounds, isFieldExpirationEncoding, hmode, if_neg (by simp [hne])]
  by_cases hall : (m.base.size == m.persist) = true
  · rw [if_pos hall]
    exact not_lt.mpr htarget.le
  · rw [if_neg hall]
    exact not_lt.mpr (htarget.le.trans (le_max_right _ _))

theorem HashMeta.expand_base (m : HashMeta) (e : UInt64) :
    (m.expandExpireBounds e).base = m.base ∧ (m.expandExpireBounds e).mode = m.mode := by
  rw [expandExpireBounds]
  split_ifs <;> exact ⟨rfl, rfl⟩

theorem HashMeta.sendsAway_of_bound (h : ¬now > m.upper) :
    m.sendsAway now ↔ m.base.size = 0 := by
  rw [sendsAway]
  constructor
  · rintro (hsize | ⟨-, hupper, -⟩)
    · simpa using hsize
    · exact absurd hupper h
  · intro hsize
    exact Or.inl (by simp [hsize])

theorem HashMeta.sendsAway_of_persist (h : m.base.size ≠ 0 → m.persist ≠ 0) :
    m.sendsAway now ↔ m.base.size = 0 := by
  rw [sendsAway]
  constructor
  · rintro (hsize | ⟨-, -, hpersist⟩)
    · simpa using hsize
    · by_contra hne
      exact h hne hpersist
  · intro hsize
    exact Or.inl (by simp [hsize])

theorem setexMeta_counted (hm : HashMeta) (kind : HashFieldStateKind) (target : UInt64) :
    HashMeta.Counted hm (setexMeta hm kind target) := by
  have hexp := hm.expand_base target
  have hnew : HashMeta.Counted hm (if target = 0 then hm.applyMissingToPersistent
      else hm.applyMissingToTtl target) := by
    split_ifs
    · exact hm.counted_missing
    · refine ⟨hexp.2, Or.inr (UInt64.satAdd_one_ne_zero _), ?_⟩
      rw [HashMeta.applyMissingToTtl, HashMeta.setSize, hexp.1]
  cases kind with
  | missing => exact hnew
  | expiredTTLPhysical => exact hnew
  | persistent =>
    rw [setexMeta]
    split_ifs
    · exact ⟨hexp.2, Or.inl (congrArg KeyMeta.size hexp.1), by
        rw [HashMeta.applyPersistentToTtl, hexp.1]⟩
    · exact .refl hm
  | liveTTL =>
    rw [setexMeta]
    split_ifs
    · exact hm.counted_ttl
    · exact ⟨hexp.2, Or.inl (congrArg KeyMeta.size hexp.1), by
        rw [HashMeta.applyTtlToTtl, hexp.1]⟩

theorem setexMeta_size (h : kind = .missing ∨ kind = .expiredTTLPhysical) :
    (setexMeta hm kind target).base.size ≠ 0 := by
  have hnew : (if target = 0 then hm.applyMissingToPersistent
      else hm.applyMissingToTtl target).base.size ≠ 0 := by
    split_ifs
    · rw [HashMeta.applyMissingToPersistent]
      split_ifs
      · rw [(HashMeta.clearBounds_base _).1]
        exact UInt64.satAdd_one_ne_zero _
      · exact UInt64.satAdd_one_ne_zero _
    · exact UInt64.satAdd_one_ne_zero _
  rcases h with rfl | rfl
  · exact hnew
  · exact hnew

theorem setexMeta_sendsAway (hmode : hm.mode = .fieldExpiration) (kind : HashFieldStateKind)
    (htarget : target = 0 ∨ now < target) :
    (setexMeta hm kind target).sendsAway now ↔
      (kind = .persistent ∨ kind = .liveTTL) ∧ (hm.base.size = 0 ∨ kind = .persistent ∧
        target = 0 ∧ hm.upper ≠ 0 ∧ now > hm.upper ∧ hm.persist = 0) := by
  have hne : now < target → target ≠ 0 := fun hlt h0 => by
    rw [h0] at hlt
    exact absurd hlt (by simp)
  have hbound : now < target → ∀ m, (setexMeta hm m target).upper =
      (hm.expandExpireBounds target).upper := fun hlt m => by
    cases m <;> simp only [setexMeta, if_neg (hne hlt), if_pos (hne hlt)] <;> rfl
  have hnew : kind = .missing ∨ kind = .expiredTTLPhysical →
      ¬(setexMeta hm kind target).sendsAway now := fun hkind => by
    have hsize : (setexMeta hm kind target).base.size ≠ 0 := setexMeta_size hkind
    rcases htarget with rfl | hlt
    · have hmeta : setexMeta hm kind 0 = hm.applyMissingToPersistent := by
        rcases hkind with rfl | rfl <;> rfl
      rw [hmeta] at hsize ⊢
      rw [HashMeta.applyMissingToPersistent, HashMeta.setSize, HashMeta.isFieldExpirationEncoding,
        hmode, if_pos (beq_self_eq_true _), HashMeta.clearBounds_sendsAway rfl,
        HashMeta.sendsAway_of_persist fun _ => UInt64.satAdd_one_ne_zero _]
      exact UInt64.satAdd_one_ne_zero _
    · rw [HashMeta.sendsAway_of_bound (hbound hlt kind ▸ HashMeta.expand_upper hmode hlt)]
      exact hsize
  cases kind with
  | missing => exact iff_of_false (hnew (Or.inl rfl)) (by simp)
  | expiredTTLPhysical => exact iff_of_false (hnew (Or.inr rfl)) (by simp)
  | persistent =>
    rcases htarget with rfl | hlt
    · simp [setexMeta, HashMeta.sendsAway]
    · rw [HashMeta.sendsAway_of_bound (hbound hlt _ ▸ HashMeta.expand_upper hmode hlt)]
      have hsize : (setexMeta hm .persistent target).base.size = hm.base.size := by
        rw [setexMeta, if_pos (hne hlt)]
        exact congrArg KeyMeta.size (hm.expand_base target).1
      simp [hsize, hne hlt]
  | liveTTL =>
    rcases htarget with rfl | hlt
    · have hmeta : setexMeta hm .liveTTL 0 = hm.applyTtlToPersistent := rfl
      have hcounted : HashMeta.mode { hm with persist := min (hm.persist.satAdd 1) hm.base.size } =
        .fieldExpiration := hmode
      rw [hmeta, HashMeta.applyTtlToPersistent, HashMeta.clearBounds_sendsAway hcounted,
        HashMeta.sendsAway_of_persist ?_]
      · simp
      · intro hsize hmin
        rcases min_choice (hm.persist.satAdd 1) hm.base.size with h | h
        · exact UInt64.satAdd_one_ne_zero _ (h.symm.trans hmin)
        · exact hsize (h.symm.trans hmin)
    · rw [HashMeta.sendsAway_of_bound (hbound hlt _ ▸ HashMeta.expand_upper hmode hlt)]
      have hsize : (setexMeta hm .liveTTL target).base.size = hm.base.size := by
        rw [setexMeta, if_neg (hne hlt)]
        exact congrArg KeyMeta.size (hm.expand_base target).1
      simp [hsize]

/-! ## Reading the field back -/

/-- What a call that writes starts from. -/
structure SetexStart (s : Store) (kc : KeyComposer) (key : Key) (now version : UInt64) (f : Bytes)
    (hm : HashMeta) (existed : Bool) (ops : Batch) : Prop where
  prepare : prepareHashMetaForWrite s kc key now version = .ok (hm, existed, ops)
  entry : setexEntry s kc key now existed hm f = fieldBefore s kc key now f
  owned : ∀ o ∈ ops, o.OwnedBy kc key .hashMeta
  str : (liveString s kc key now).isSome = false
  mode : hm.mode = .fieldExpiration
  alive : hm.isExpired now = false ∧ getHashMeta s kc key now = .ok (some hm) ∨
    hm.base.expireAt = 0 ∧ (fieldBefore s kc key now f).kind = .missing

theorem setex_start {opts : HashSetEx} {hit : Bool}
    (h : setFieldWithExpireOne s kc key now version f v opts = .ok (hit, ops)) :
    ∃ hm existed start, SetexStart s kc key now version f hm existed start := by
  cases hget : getHashMeta s kc key now with
  | error err =>
    rw [setFieldWithExpireOne, prepareHashMetaForWrite, hget] at h
    cases h
  | ok found =>
    cases found with
    | none =>
      refine ⟨.newWithVersion 0 0 version, false, clearPrefixInBatch s .data (composeHashPrefix kc key),
        ?_, ?_, fun o ho => ownedBy_clearPrefix .hashData rfl ho, getHashMeta_none_str hget, rfl,
        Or.inr ⟨rfl, ?_⟩⟩
      · rw [prepareHashMetaForWrite, hget]
        rfl
      · rw [setexEntry, if_neg Bool.false_ne_true, fieldBefore, hget]
      · rw [fieldBefore, hget]
        rfl
    | some hm =>
      obtain ⟨hstr, hlive, -⟩ := getMetaChecked_eq_some hget
      have hprepare : prepareHashMetaForWrite s kc key now version = .ok (hm, true, []) := by
        rw [prepareHashMetaForWrite, hget]
        rfl
      refine ⟨hm, true, [], hprepare, ?_, fun o ho => (List.not_mem_nil ho).elim, hstr, ?_,
        Or.inl ⟨hlive, hget⟩⟩
      · rw [setexEntry, if_pos rfl, fieldBefore, hget]
      · rw [setFieldWithExpireOne, hprepare] at h
        cases hmode : hm.mode with
        | fieldExpiration => rfl
        | legacy =>
          have hleg : hm.isLegacySubkeyEncoding = true := by
            rw [HashMeta.isLegacySubkeyEncoding, hmode]
            rfl
          simp only [bind, Except.bind, hleg, Bool.and_self, if_true] at h
          cases h

theorem HashMeta.Counted.live {hm' : HashMeta} (h : HashMeta.Counted hm hm')
    (hstart : hm.isExpired now = false ∨ hm.base.expireAt = 0) (hsize : hm'.base.size ≠ 0) :
    hm'.isExpired now = false := by
  rcases hstart with hlive | hexp
  · exact h.not_expired hlive
  · have hexp' : hm'.base.expireAt = 0 := (congrArg KeyMeta.expireAt h.rest).trans hexp
    rw [HashMeta.isExpired, KeyMeta.isExpired, hexp', if_neg (by simp [hsize])]
    rfl

theorem hget_of_meta (hmeta : getHashMeta s kc key now = .ok (some m)) (f : Bytes) :
    hget s kc key now f = if m.sendsAway now then .ok none
      else .ok (((s.data.get (keyForField kc key f)).bind fun raw =>
        m.decodeLiveSubkeyValue raw now).map Prod.snd) := by
  rw [hget, hmeta]
  by_cases hsize : m.base.size > 0
  · by_cases haway : m.upper ≠ 0 ∧ now > m.upper ∧ m.persist = 0
    · have haway' : m.sendsAway now := Or.inr haway
      rw [if_pos haway']
      simp only [bind, Except.bind, if_pos hsize, if_pos haway]
      rfl
    · have haway' : ¬m.sendsAway now := not_or.mpr ⟨not_not.mpr hsize, haway⟩
      rw [if_neg haway']
      simp only [bind, Except.bind, if_pos hsize, if_neg haway]
      rfl
  · have haway : m.sendsAway now := Or.inl hsize
    rw [if_pos haway]
    simp only [bind, Except.bind, if_neg hsize]
    rfl

theorem hget_ne_some (hmeta : s.metadata.get (composeHashMetaKey kc key) = none) (f v : Bytes) :
    hget s kc key now f ≠ .ok (some v) := by
  intro hvalue
  rw [hget, getHashMeta, getMetaChecked, hmeta, Option.bind_none] at hvalue
  split_ifs at hvalue with hstr
  · cases hvalue
  · cases hother : checkCompositeMetaNotOtherType s kc key now (MetaOps.tag HashMeta) with
    | error err =>
      rw [hother] at hvalue
      cases hvalue
    | ok found =>
      rw [hother] at hvalue
      cases hvalue

theorem query_of_meta (hmeta : getHashMeta s kc key now = .ok (some m))
    (hmode : m.mode = .fieldExpiration) (hshown : ¬m.sendsAway now) (f : Bytes)
    (map : UInt64 → UInt64 → ℤ) : queryFieldExpireInfoOne s kc key now f map =
      .ok (evaluateFieldTtl now m (s.data.get (keyForField kc key f)) map) := by
  have hleg : ¬m.isLegacySubkeyEncoding = true := by
    rw [HashMeta.isLegacySubkeyEncoding, hmode]
    decide
  have hlive : getLiveHfeMeta s kc key now = .ok (some m) := by
    rw [getLiveHfeMeta, getHfeMeta, hmeta]
    simp only [bind, Except.bind, if_neg hleg, pure, Except.pure,
      if_neg (fun haway => hshown (Or.inr haway))]
  rw [queryFieldExpireInfoOne, hlive]
  rfl

theorem HashMeta.decode_written {m' : HashMeta} (hmode : m.mode = .fieldExpiration)
    (hmode' : m'.mode = .fieldExpiration) (v : Bytes) (e : UInt64) :
    m.decodeSubkeyValue (m'.encodeSubkeyValue v e) = some (e, v) := by
  have hlen : ¬(encodeHashValue v e).length < fieldExpirePrefixLen := by
    simp [encodeHashValue, fieldExpirePrefixLen]
  rw [encodeSubkeyValue_eq hmode', decodeSubkeyValue, isLegacySubkeyEncoding, hmode,
    if_neg (by decide), if_neg hlen, decodeHashValue_encodeHashValue]

theorem fieldIs_of_stored {m' : HashMeta} (hmeta : getHashMeta s kc key now = .ok (some m))
    (hmode : m.mode = .fieldExpiration) (hmode' : m'.mode = .fieldExpiration)
    (hdata : s.data.get (keyForField kc key f) = some (m'.encodeSubkeyValue v target))
    (htarget : target = 0 ∨ now < target) :
    FieldIs s kc key now f v (if target = 0 then none else some target.toNat) ↔
      ¬m.sendsAway now := by
  have hraw := HashMeta.decode_written hmode hmode' v target
  have hlive : isFieldExpired target now = false := by
    rw [isFieldExpired]
    rcases htarget with rfl | hlt
    · rfl
    · simp [hlt]
  constructor
  · intro hfield haway
    have hnone := hget_of_meta hmeta f
    rw [if_pos haway, hfield.1] at hnone
    cases hnone
  · intro hshown
    constructor
    · rw [hget_of_meta hmeta, if_neg hshown, hdata, Option.bind_some,
        HashMeta.decodeLiveSubkeyValue, hraw, Option.filter_some, hlive]
      rfl
    · have hquery := query_of_meta hmeta hmode hshown f
      by_cases h0 : target = 0
      · rw [if_pos h0]
        intro map
        rw [hquery, hdata, evaluateFieldTtl, decodeFieldState, hraw]
        simp only [Option.map_some, if_pos h0]
      · rw [if_neg h0]
        refine ⟨target, rfl, fun map => ?_⟩
        rw [hquery, hdata, evaluateFieldTtl, decodeFieldState, hraw]
        simp only [Option.map_some, if_neg h0, hlive, Bool.false_eq_true, if_false]

def setexOps (kc : KeyComposer) (key : Key) (f v : Bytes) (m : HashMeta) (target : UInt64) : Batch :=
  [.insertData (keyForField kc key f) (m.encodeSubkeyValue v target)] ++
    commitHashMetaOrRm (composeHashMetaKey kc key) m

theorem SetexStart.stored {existed : Bool} (h : SetexStart s kc key now version f hm existed ops)
    (hcount : HashMeta.Counted hm m) (v : Bytes) (target : UInt64) :
    m.base.size = 0 ∧ (s.apply (ops ++ setexOps kc key f v m target)).metadata.get
        (composeHashMetaKey kc key) = none ∨
      getHashMeta (s.apply (ops ++ setexOps kc key f v m target)) kc key now =
          .ok (some m.clearBoundsIfNoTtlCandidates) ∧
        (s.apply (ops ++ setexOps kc key f v m target)).data.get (keyForField kc key f) =
          some (m.encodeSubkeyValue v target) := by
  have hclear := HashMeta.clearBounds_base m
  rw [setexOps, commitHashMetaOrRm]
  by_cases hsize : m.base.size = 0
  · refine Or.inl ⟨hsize, ?_⟩
    rw [if_pos hsize, ← List.append_assoc, Store.apply_append, Store.apply_cons, Store.apply_nil,
      Store.applyOp_rmMeta]
    exact SortedMap.get_erase_self _ _
  · rw [if_neg hsize]
    obtain ⟨hmeta, hdata, hstr⟩ := @get_of_field_batch s kc key now f ops
      (m.encodeSubkeyValue v target) m.clearBoundsIfNoTtlCandidates.encode h.owned
    have hlive : m.clearBoundsIfNoTtlCandidates.isExpired now = false := by
      rw [HashMeta.isExpired, hclear.1]
      exact hcount.live (h.alive.imp And.left And.left) hsize
    have hdec := HashMeta.decode_encode (hclear.2.trans (hcount.mode.trans h.mode))
    exact Or.inr ⟨getHashMeta_of_get (hstr ▸ h.str) hmeta hdec hlive, hdata⟩

theorem SetexStart.fieldIs {existed : Bool} (h : SetexStart s kc key now version f hm existed ops)
    (hcount : HashMeta.Counted hm m) (v : Bytes) (htarget : target = 0 ∨ now < target) :
    FieldIs (s.apply (ops ++ setexOps kc key f v m target)) kc key now f v
        (if target = 0 then none else some target.toNat) ↔ ¬m.sendsAway now := by
  have hmode : m.mode = .fieldExpiration := hcount.mode.trans h.mode
  rcases h.stored hcount v target with ⟨hsize, hnone⟩ | ⟨hmeta, hdata⟩
  · refine iff_of_false ?_ (not_not.mpr (Or.inl (by simp [hsize])))
    intro hfield
    exact hget_ne_some hnone f v hfield.1
  · exact (fieldIs_of_stored hmeta ((HashMeta.clearBounds_base m).2.trans hmode) hmode hdata
      htarget).trans (not_congr (HashMeta.clearBounds_sendsAway hmode))

theorem SetexStart.expired {existed : Bool} (h : SetexStart s kc key now version f hm existed ops)
    (hcount : HashMeta.Counted hm m) (v : Bytes) (htarget : isFieldExpired target now = true) :
    hget (s.apply (ops ++ setexOps kc key f v m target)) kc key now f ≠ .ok (some v) := by
  have hmode : m.mode = .fieldExpiration := hcount.mode.trans h.mode
  rcases h.stored hcount v target with ⟨-, hnone⟩ | ⟨hmeta, hdata⟩
  · exact hget_ne_some hnone f v
  · have hraw := HashMeta.decode_written ((HashMeta.clearBounds_base m).2.trans hmode) hmode v target
    rw [hget_of_meta hmeta, hdata, Option.bind_some, HashMeta.decodeLiveSubkeyValue, hraw,
      Option.filter_some, htarget]
    split_ifs with haway hlive
    · simp
    · cases hlive
    · simp

theorem SetexStart.countersHide {existed : Bool} {ttl : Option ℕ}
    (h : SetexStart s kc key now version f hm existed ops) (htarget : target = 0 ∨ now < target)
    (httl : ttl = none ↔ target = 0) :
    CountersHide s kc key now (fieldBefore s kc key now f) ttl ↔
      (setexMeta hm (fieldBefore s kc key now f).kind target).sendsAway now := by
  rw [setexMeta_sendsAway h.mode _ htarget, CountersHide, httl]
  rcases h.alive with ⟨-, hget⟩ | ⟨-, hmissing⟩
  · constructor
    · rintro ⟨hm', hget', hcounts⟩
      rw [hget, Except.ok.injEq, Option.some.injEq] at hget'
      rwa [hget']
    · exact fun hcounts => ⟨hm, hget, hcounts⟩
  · rw [hmissing]
    simp

theorem loadFieldState_expire (hm : HashMeta) (f : Bytes) :
    ((loadFieldState s kc key now hm f).kind = .liveTTL →
      now < (loadFieldState s kc key now hm f).expire) ∧
    ((loadFieldState s kc key now hm f).kind = .expiredTTLPhysical →
      isFieldExpired (loadFieldState s kc key now hm f).expire now = true) := by
  rw [loadFieldState]
  cases s.data.get (keyForField kc key f) with
  | none => exact ⟨fun h => (by cases h), fun h => (by cases h)⟩
  | some raw =>
    simp only [decodeFieldState]
    cases hm.decodeSubkeyValue raw with
    | none => exact ⟨fun h => (by cases h), fun h => (by cases h)⟩
    | some x =>
      simp only [Option.map_some]
      by_cases h0 : x.1 = 0
      · rw [if_pos h0]
        exact ⟨fun h => (by cases h), fun h => (by cases h)⟩
      · rw [if_neg h0]
        by_cases hexp : isFieldExpired x.1 now = true
        · rw [if_pos hexp]
          exact ⟨fun h => (by cases h), fun h => hexp⟩
        · rw [if_neg hexp]
          refine ⟨fun h => ?_, fun h => by cases h⟩
          have hpos : 0 < x.1 := UInt64.pos_iff_ne_zero.mpr h0
          rw [isFieldExpired] at hexp
          simpa [hpos] using hexp

theorem fieldBefore_expire (s : Store) (kc : KeyComposer) (key : Key) (now : UInt64) (f : Bytes) :
    ((fieldBefore s kc key now f).kind = .liveTTL → now < (fieldBefore s kc key now f).expire) ∧
    ((fieldBefore s kc key now f).kind = .expiredTTLPhysical →
      isFieldExpired (fieldBefore s kc key now f).expire now = true) := by
  rw [fieldBefore]
  split
  · exact loadFieldState_expire _ f
  · exact ⟨fun h => (by cases h), fun h => (by cases h)⟩

theorem SetexStart.run {existed hit : Bool} {start : Batch} {opts : HashSetEx}
    (h : SetexStart s kc key now version f hm existed start)
    (hrun : setFieldWithExpireOne s kc key now version f v opts = .ok (hit, ops)) :
    (setConditionMet opts.condition (fieldBefore s kc key now f).kind = false →
      hit = false ∧ ops = []) ∧
    (setConditionMet opts.condition (fieldBefore s kc key now f).kind = true → hit = true ∧
      (¬(opts.ttlAction = .set ∧ isImmediateExpire opts.expireAtMs now = true) →
        ∀ target, target = resolveTargetExpire opts.ttlAction opts.expireAtMs
          (fieldBefore s kc key now f).kind (fieldBefore s kc key now f).expire →
        ops = start ++ setexOps kc key f v
          (setexMeta hm (fieldBefore s kc key now f).kind target) target)) := by
  have hleg : ¬(existed && hm.isLegacySubkeyEncoding) = true := by
    rw [HashMeta.isLegacySubkeyEncoding, h.mode]
    simp
  rw [setFieldWithExpireOne, h.prepare] at hrun
  simp only [bind, Except.bind, if_neg hleg, h.entry] at hrun
  constructor
  · intro hcond
    rw [hcond] at hrun
    cases hrun
    exact ⟨rfl, rfl⟩
  · intro hcond
    rw [hcond] at hrun
    simp only [Bool.not_true, Bool.false_eq_true, if_false] at hrun
    split_ifs at hrun with hgone
    · cases hrun
      exact ⟨rfl, fun hset => absurd ⟨hgone.1, hgone.2.1⟩ hset⟩
    · cases hrun
      refine ⟨rfl, fun hset target htarget => ?_⟩
      rw [setexField, if_neg hset, htarget, setexOps, List.append_assoc]

end

/-- A successful HSETEX reads back as asked, unless KEEPTTL meets an expired field, an expiry
does not fit a word, or the counters hide the field. -/
theorem hsetexOne_exact_iff (s : Store) (kc : KeyComposer) (key : Key) (now version : UInt64)
    (field value : Bytes) (options : List HSet) (hit : Bool) (ops : Batch)
    (h : hsetexOne s kc key now version field value options = .ok (hit, ops)) :
    SetexExact s kc key now field value options hit ops ↔ SetexHolds s kc key now field options := by
  obtain ⟨hm, existed, start, hstart⟩ := setex_start h
  obtain ⟨hrefused, hdone⟩ := hstart.run h
  have hreads := requestedTtl_reads options now
  by_cases hcond : setConditionMet (HashSetEx.fromOptions options now).condition
      (fieldBefore s kc key now field).kind = true
  swap
  · obtain ⟨rfl, rfl⟩ := hrefused (Bool.not_eq_true _ ▸ hcond)
    exact iff_of_true ⟨fun _ => rfl, fun hhit => (by cases hhit)⟩ fun hmet => absurd hmet hcond
  obtain ⟨rfl, hops⟩ := hdone hcond
  by_cases hfuture : ∀ t, requestedTtl options now = .expireAt t → now.toNat < t
  swap
  · exact iff_of_true ⟨fun hhit => (by cases hhit), fun _ h => absurd h hfuture⟩
      fun _ h => absurd h hfuture
  have hexact : SetexExact s kc key now field value options true ops ↔
      FieldIs (s.apply ops) kc key now field value
        (ttlAfter (requestedTtl options now) (fieldBefore s kc key now field)) :=
    ⟨fun h => h.2 rfl hfuture, fun h => ⟨fun hhit => (by cases hhit), fun _ _ => h⟩⟩
  have hholds : SetexHolds s kc key now field options ↔ _ :=
    ⟨fun h => h hcond hfuture, fun h _ _ => h⟩
  rw [hexact, hholds]
  have hcount := setexMeta_counted hm (fieldBefore s kc key now field).kind
  have hbefore := fieldBefore_expire s kc key now field
  generalize HashSetEx.fromOptions options now = opts at hops hreads
  cases hreq : requestedTtl options now with
  | discard =>
    rw [hreq] at hreads
    rw [hops (fun hset => by cases hreads.symm.trans hset.1) 0 (by rw [hreads]; rfl)]
    have hfield := hstart.fieldIs (hcount 0) value (Or.inl rfl)
    rw [if_pos rfl] at hfield
    rw [ttlAfter, hfield, hstart.countersHide (Or.inl rfl) (iff_of_true rfl rfl)]
    simp
  | keep =>
    rw [hreq] at hreads
    have hops' := hops (fun hset => by cases hreads.symm.trans hset.1) _ rfl
    rw [hreads] at hops'
    by_cases hdead : (fieldBefore s kc key now field).kind = .expiredTTLPhysical
    · rw [hdead] at hops' hcount
      refine iff_of_false (fun hfield => ?_) (by simp [hdead])
      rw [hops'] at hfield
      exact hstart.expired (hcount _) value (hbefore.2 hdead) hfield.1
    by_cases hkept : (fieldBefore s kc key now field).kind = .liveTTL
    · have hlt := hbefore.1 hkept
      have hne : (fieldBefore s kc key now field).expire ≠ 0 := (UInt64.pos_iff_ne_zero.mp
        ((UInt64.zero_le).trans_lt hlt))
      have htarget : resolveTargetExpire .keep opts.expireAtMs (fieldBefore s kc key now field).kind
          (fieldBefore s kc key now field).expire = (fieldBefore s kc key now field).expire :=
        if_pos (Or.inl hkept)
      rw [htarget] at hops'
      have hfield := hstart.fieldIs (hcount (fieldBefore s kc key now field).expire) value
        (Or.inr hlt)
      rw [if_neg hne] at hfield
      rw [hops', ttlAfter, if_pos hkept, hfield,
        hstart.countersHide (Or.inr hlt) (iff_of_false (by simp) hne)]
      simp [hdead]
    · have htarget : resolveTargetExpire .keep opts.expireAtMs (fieldBefore s kc key now field).kind
          (fieldBefore s kc key now field).expire = 0 := if_neg (not_or.mpr ⟨hkept, hdead⟩)
      rw [htarget] at hops'
      have hfield := hstart.fieldIs (hcount 0) value (Or.inl rfl)
      rw [if_pos rfl] at hfield
      rw [hops', ttlAfter, if_neg hkept, hfield,
        hstart.countersHide (Or.inl rfl) (iff_of_true rfl rfl)]
      simp [hdead]
  | expireAt t =>
    rw [hreq] at hreads hfuture
    have hlt := hfuture t rfl
    by_cases hfit : t < 2 ^ 64
    · have hword : opts.expireAtMs.toNat = t := by
        rw [hreads.2]
        omega
      have hlate : now < opts.expireAtMs := UInt64.lt_iff_toNat_lt.mpr (hword ▸ hlt)
      have hne : opts.expireAtMs ≠ 0 := fun h0 => by
        rw [h0] at hword
        rw [← hword] at hlt
        exact Nat.not_lt_zero _ hlt
      have hset : ¬(opts.ttlAction = .set ∧ isImmediateExpire opts.expireAtMs now = true) := by
        intro hset
        rw [isImmediateExpire, decide_eq_true_iff] at hset
        exact absurd hset.2 (not_le.mpr hlate)
      rw [hops hset opts.expireAtMs (by rw [hreads.1]; rfl)]
      have hfield := hstart.fieldIs (hcount opts.expireAtMs) value (Or.inr hlate)
      rw [if_neg hne, hword] at hfield
      rw [ttlAfter, hfield, hstart.countersHide (Or.inr hlate) (iff_of_false (by simp) hne)]
      refine ⟨fun hshown => ⟨fun t' ht' => ?_, by simp, hshown⟩, fun hgood => hgood.2.2⟩
      rw [RequestedTtl.expireAt.injEq] at ht'
      exact ht' ▸ hfit
    · refine iff_of_false (fun hfield => ?_) fun hgood => hfit (hgood.1 t rfl)
      obtain ⟨e, he, -⟩ := hfield.2
      exact hfit (he ▸ e.toNat_lt)

theorem hsetexOne_exact_iff_sample : ∃ ops,
    hsetexOne ∅ ⟨0, 0⟩ sampleKey 1 1 [102] [49] [.px 10] = .ok (true, ops) ∧
      (SetexExact ∅ ⟨0, 0⟩ sampleKey 1 [102] [49] [.px 10] true ops ↔
        SetexHolds ∅ ⟨0, 0⟩ sampleKey 1 [102] [.px 10]) := by
  have hrun : (hsetexOne ∅ ⟨0, 0⟩ sampleKey 1 1 [102] [49] [.px 10]).toOption.map Prod.fst =
      some true := by
    decide
  cases h : hsetexOne ∅ ⟨0, 0⟩ sampleKey 1 1 [102] [49] [.px 10] with
  | error err =>
    rw [h] at hrun
    cases hrun
  | ok x =>
    obtain ⟨hit, ops⟩ := x
    rw [h] at hrun
    cases hrun
    exact ⟨ops, rfl, hsetexOne_exact_iff ∅ ⟨0, 0⟩ sampleKey 1 1 [102] [49] [.px 10] true ops h⟩

def sampleExpiring : HashCall :=
  ⟨⟨0, 0⟩, sampleKey, 1, 1, .hsetexOne [102] [49] [.px 10]⟩

/-- KEEPTTL on an expired field succeeds, and the new value cannot be read. -/
theorem hsetexOne_keeps_expired :
    ∃ e, HashReachable (fun _ => none) (fun _ _ => true) e ∧ ∃ ops,
      hsetexOne e.store ⟨0, 0⟩ sampleKey 20 2 [102] [50] [.keepTtl] = .ok (true, ops) ∧
        ¬SetexExact e.store ⟨0, 0⟩ sampleKey 20 [102] [50] [.keepTtl] true ops := by
  have hrun : (replay (fun _ => none) (fun _ _ => true) .empty [sampleExpiring]).map (fun e =>
      (hsetexOne e.store ⟨0, 0⟩ sampleKey 20 2 [102] [50] [.keepTtl]).toOption.map fun x =>
        (x.1, (hget (e.store.apply x.2) ⟨0, 0⟩ sampleKey 20 [102]).toOption)) =
        some (some (true, some none)) := by
    decide +kernel
  obtain ⟨e, he, hset⟩ := Option.map_eq_some_iff.mp hrun
  refine ⟨e, .replay .start he, ?_⟩
  cases h : hsetexOne e.store ⟨0, 0⟩ sampleKey 20 2 [102] [50] [.keepTtl] with
  | error err =>
    rw [h] at hset
    cases hset
  | ok x =>
    obtain ⟨hit, ops⟩ := x
    rw [h] at hset
    simp only [Except.toOption, Option.map_some, Option.some.injEq, Prod.mk.injEq] at hset
    obtain ⟨rfl, hnone⟩ := hset
    refine ⟨ops, rfl, fun hexact => ?_⟩
    obtain ⟨hvalue, -⟩ := hexact.2 rfl fun t ht => by cases ht
    rw [hvalue] at hnone
    cases hnone

end Wedb
