import Wedb.Hash.Repair

/-!
# Field expiry keeps the counters

A handler is sound when its change of one stored field comes with the counters
and the state for what it queued. The loop over several fields reads a field it
changed from its cache, so repeated fields are handled too. Setting fields with
an expiry counts a stored expired field as a missing one, and is right when no
listed field is stored expired.
-/

namespace Wedb

variable {s : Store} {kc : KeyComposer} {key : Key} {hm : HashMeta} {ops : Batch}
  {now version : UInt64} {f itemK : Bytes} {U : SortedMap Bytes Bytes}
  {entry : CachedFieldState} {ρ : Type}

/-- The change writes its field once and has the counters and the state after it. -/
def FieldChange.Sound (U : SortedMap Bytes Bytes) (f itemK : Bytes) (c : FieldChange) : Prop :=
  ∃ o, c.ops = [o] ∧ o.partition = .data ∧ o.key = itemK ∧ HashCounts c.hm (U.put f o.value) ∧
    EntryMatches (U.put f o.value) f c.entry

def FieldHandler.Sound (handler : FieldHandler ρ) : Prop :=
  ∀ {hm : HashMeta} {U : SortedMap Bytes Bytes} {f itemK : Bytes} {entry : CachedFieldState}
    {reply : ρ} {c : FieldChange}, HashCounts hm U → EntryMatches U f entry →
    handler hm itemK entry = (reply, some c) → c.Sound U f itemK

theorem removeFieldInBatch_sound (hc : HashCounts hm U) (he : EntryMatches U f entry)
    (hne : entry.kind ≠ .missing) :
    (removeFieldInBatch hm itemK entry.kind).Sound U f itemK :=
  ⟨_, rfl, rfl, rfl, hc.removeField he hne, .missing (SortedMap.get_erase_self f U)⟩

theorem purgeExpired_sound {notFound : ρ} {handler : FieldHandler ρ}
    (h : ∀ {hm : HashMeta} {U : SortedMap Bytes Bytes} {f itemK : Bytes}
      {entry : CachedFieldState} {reply : ρ} {c : FieldChange}, HashCounts hm U →
      EntryMatches U f entry → entry.kind = .persistent ∨ entry.kind = .liveTTL →
      handler hm itemK entry = (reply, some c) → c.Sound U f itemK) :
    (purgeExpired notFound handler).Sound := by
  intro hm U f itemK entry reply c hc he heq
  unfold purgeExpired at heq
  cases hk : entry.kind with
  | missing =>
    simp only [hk, Prod.mk.injEq, reduceCtorEq, and_false] at heq
  | expiredTTLPhysical =>
    simp only [hk, Prod.mk.injEq, Option.some.injEq] at heq
    rw [← heq.2, ← hk]
    exact removeFieldInBatch_sound hc he (by simp [hk])
  | persistent =>
    rw [hk] at heq
    exact h hc he (Or.inl hk) heq
  | liveTTL =>
    rw [hk] at heq
    exact h hc he (Or.inr hk) heq

theorem extractSubkeyPayload_raw {r : Bytes} (hmode : hm.mode = .fieldExpiration)
    (hlen : fieldExpirePrefixLen ≤ r.length) :
    ((some r).bind hm.decodeSubkeyValue).map Prod.snd = some (decodeHashValue r).2 := by
  rw [Option.bind_some, HashMeta.decodeSubkeyValue_eq hmode hlen]
  rfl

theorem insert_sound {hm' : HashMeta} {v : Bytes} {e : UInt64} {entry' : CachedFieldState}
    (hc : HashCounts hm' (U.insert f (encodeHashValue v e)))
    (he : EntryMatches (U.insert f (encodeHashValue v e)) f entry') :
    FieldChange.Sound U f itemK
      ⟨hm', [.insertData itemK (hm'.encodeSubkeyValue v e)], entry'⟩ := by
  refine ⟨.insertData itemK (hm'.encodeSubkeyValue v e), rfl, rfl, rfl, ?_, ?_⟩
  · rw [hc.encodeSubkeyValue]
    exact hc
  · rw [hc.encodeSubkeyValue]
    exact he

theorem entryMatches_insert_persistent {v r : Bytes} (hlen : fieldExpirePrefixLen ≤ r.length) :
    EntryMatches (U.insert f (encodeHashValue v 0)) f ⟨.persistent, 0, some r⟩ :=
  .persistent (SortedMap.get_insert_self f _ U) (fieldExpire_encode v 0) hlen

theorem entryMatches_insert_live {v r : Bytes} {e : UInt64} (h0 : e ≠ 0)
    (hlen : fieldExpirePrefixLen ≤ r.length) :
    EntryMatches (U.insert f (encodeHashValue v e)) f ⟨.liveTTL, e, some r⟩ := by
  have hmatch : EntryMatches (U.insert f (encodeHashValue v e)) f
      ⟨.liveTTL, fieldExpire (encodeHashValue v e), some r⟩ :=
    .ttl (Or.inl rfl) (SortedMap.get_insert_self f _ U) (by rwa [fieldExpire_encode]) hlen
  rwa [fieldExpire_encode] at hmatch

theorem applyExpireInBatch_sound {e : UInt64} (hc : HashCounts hm U)
    (he : EntryMatches U f entry) (hlive : entry.kind = .persistent ∨ entry.kind = .liveTTL)
    (h0 : e ≠ 0) : (applyExpireInBatch hm itemK entry.kind entry.raw e).Sound U f itemK := by
  cases he with
  | missing hg => simp [CachedFieldState.missing] at hlive
  | persistent hg hexp hlen =>
    exact insert_sound (hc.persistentToTtl hg hexp h0) (entryMatches_insert_live h0 hlen)
  | ttl hk hg hexp hlen =>
    rcases hk with rfl | rfl
    · exact insert_sound (hc.ttlToTtl hg hexp h0) (entryMatches_insert_live h0 hlen)
    · simp at hlive

theorem applyPersistInBatch_sound (hc : HashCounts hm U) (he : EntryMatches U f entry)
    (hlive : entry.kind = .liveTTL) :
    (applyPersistInBatch hm itemK entry.raw).Sound U f itemK := by
  cases he with
  | missing hg => simp [CachedFieldState.missing] at hlive
  | persistent hg hexp hlen => simp at hlive
  | ttl hk hg hexp hlen =>
    exact insert_sound (hc.ttlToPersistent hg hexp) (entryMatches_insert_persistent hlen)

theorem isImmediateExpire_ne_zero {e : UInt64} (h : ¬isImmediateExpire e now = true) : e ≠ 0 := by
  rintro rfl
  exact h (by simp [isImmediateExpire])

theorem expireHandler_sound (condition : HExpire) (expireAtMs now : UInt64) :
    (expireHandler condition expireAtMs now).Sound := by
  refine purgeExpired_sound fun hc he hlive heq => ?_
  split_ifs at heq with hcond himm
  · simp at heq
  · cases heq
    exact removeFieldInBatch_sound hc he (by rcases hlive with hk | hk <;> simp [hk])
  · cases heq
    exact applyExpireInBatch_sound hc he hlive (isImmediateExpire_ne_zero himm)

theorem persistHandler_sound : persistHandler.Sound := by
  refine purgeExpired_sound fun hc he hlive heq => ?_
  split_ifs at heq with hk
  · simp at heq
  · cases heq
    exact applyPersistInBatch_sound hc he (hlive.resolve_left hk)

theorem getDelHandler_sound : getDelHandler.Sound := by
  refine purgeExpired_sound fun hc he hlive heq => ?_
  cases heq
  exact removeFieldInBatch_sound hc he (by rcases hlive with hk | hk <;> simp [hk])

theorem HashGetEx.fromOptions_ne_keep (options : List HGetEx) (now : UInt64) :
    (HashGetEx.fromOptions options now).ttlAction ≠ .keep := by
  unfold HashGetEx.fromOptions
  split <;> simp

theorem getExOneHandler_sound {options : HashGetEx} (hkeep : options.ttlAction ≠ .keep)
    (now : UInt64) : (getExOneHandler options now).Sound := by
  refine purgeExpired_sound fun {hm U f itemK entry reply c} hc he hlive heq => ?_
  simp only at heq
  by_cases hskip : options.ttlAction = .discard ∨
      options.ttlAction = .persist ∧ entry.kind = .persistent
  · rw [if_pos hskip] at heq
    cases heq
  rw [if_neg hskip] at heq
  by_cases himm : options.ttlAction = .set ∧ isImmediateExpire options.expireAtMs now = true
  · rw [if_pos himm] at heq
    cases heq
    exact removeFieldInBatch_sound hc he (by rcases hlive with hk | hk <;> simp [hk])
  rw [if_neg himm] at heq
  cases ha : options.ttlAction with
  | discard => exact absurd (Or.inl ha) hskip
  | keep => exact absurd ha hkeep
  | persist =>
    have hk : entry.kind = .liveTTL := hlive.resolve_left fun hk => hskip (Or.inr ⟨ha, hk⟩)
    simp only [ha, hk, if_true] at heq
    cases he with
    | missing hg => cases hk
    | persistent hg hexp hlen => cases hk
    | ttl _ hg hexp hlen =>
      rw [extractSubkeyPayload_raw hc.mode hlen] at heq
      cases heq
      exact insert_sound (hc.ttlToPersistent hg hexp) (entryMatches_insert_persistent hlen)
  | set =>
    have h0 := isImmediateExpire_ne_zero fun hi => himm ⟨ha, hi⟩
    simp only [ha, reduceCtorEq, if_false, if_neg h0] at heq
    cases he with
    | missing hg => simp [CachedFieldState.missing] at hlive
    | persistent hg hexp hlen =>
      rw [extractSubkeyPayload_raw hc.mode hlen] at heq
      cases heq
      exact insert_sound (hc.persistentToTtl hg hexp h0) (entryMatches_insert_live h0 hlen)
    | ttl hk hg hexp hlen =>
      rw [extractSubkeyPayload_raw hc.mode hlen] at heq
      rcases hk with rfl | rfl
      · cases heq
        exact insert_sound (hc.ttlToTtl hg hexp h0) (entryMatches_insert_live h0 hlen)
      · simp at hlive

theorem getExHandler_sound (options : HashGetEx) (now : UInt64) :
    (getExHandler options now).Sound := by
  refine purgeExpired_sound fun {hm U f itemK entry reply c} hc he hlive heq => ?_
  simp only [Prod.mk.injEq] at heq
  have heq := heq.2
  split_ifs at heq with hp himm hset himm
  · cases heq
    exact removeFieldInBatch_sound hc he (by simp [hp])
  · cases heq
    exact applyExpireInBatch_sound hc he hlive hset.2
  · cases heq
    exact removeFieldInBatch_sound hc he (by rcases hlive with hk | hk <;> simp [hk])
  · have hk := hlive.resolve_left hp
    cases ha : options.ttlAction with
    | persist =>
      rw [ha] at heq
      cases heq
      exact applyPersistInBatch_sound hc he hk
    | set =>
      rw [ha] at heq
      cases heq
      refine applyExpireInBatch_sound hc he hlive (isImmediateExpire_ne_zero fun hi => himm ⟨ha, hi⟩)
    | keep => rw [ha] at heq; cases heq
    | discard => rw [ha] at heq; cases heq

/-! ## The commands on stored fields -/

theorem getLiveHfeMeta_eq_some (hinv : HashInv s kc key)
    (h : getLiveHfeMeta s kc key now = .ok (some hm)) :
    HashCounts hm (s.family kc key .hashData) := by
  unfold getLiveHfeMeta getHfeMeta at h
  cases hget : getHashMeta s kc key now with
  | error err => rw [hget] at h; cases h
  | ok r =>
    rw [hget] at h
    cases r with
    | none => cases h
    | some m =>
      obtain ⟨-, hc⟩ := getHashMeta_eq_some hinv hget
      simp only [bind, Except.bind, pure, Except.pure, hc.legacy_false, Bool.false_eq_true,
        if_false] at h
      split_ifs at h
      · cases h
      · cases h
        exact hc

theorem HashQueue.change (hq : HashQueue s kc key hm ops) {c : FieldChange}
    (hs : c.Sound (queuedFields s kc key ops) f (keyForField kc key f)) :
    HashQueue s kc key c.hm (ops ++ c.ops) ∧
      EntryMatches (queuedFields s kc key (ops ++ c.ops)) f c.entry ∧
      ∀ g, g ≠ f → (queuedFields s kc key (ops ++ c.ops)).get g =
        (queuedFields s kc key ops).get g := by
  obtain ⟨o, hops, hp, hk, hc, he⟩ := hs
  have ho : o.OnField kc key f := ⟨hp, hk⟩
  rw [hops]
  refine ⟨hq.push ho hc, ?_, fun g hne => ?_⟩
  · rwa [queuedFields_push ho]
  · rw [queuedFields_push ho, SortedMap.get_put, if_neg hne.symm]

theorem hfeOne_kept {handler : FieldHandler ρ} {notFound a : ρ} (hs : handler.Sound)
    (hinv : HashInv s kc key) (h : hfeOne s kc key now handler notFound f = .ok (a, ops)) :
    HashKept s kc key ops := by
  unfold hfeOne at h
  obtain ⟨r, hget, h⟩ := bind_eq_ok h
  cases r with
  | none =>
    cases h
    exact .nil hinv
  | some hm =>
    have hc := getLiveHfeMeta_eq_some hinv hget
    have hentry := loadFieldState_matches hc.mode hc.stored f now
    simp only [bind, Except.bind] at h
    cases hh : handler hm (keyForField kc key f) (loadFieldState s kc key now hm f) with
    | mk reply change =>
      rw [hh] at h
      cases change with
      | none =>
        cases h
        exact .nil hinv
      | some c =>
        cases h
        have hq : HashQueue s kc key hm [] := ⟨hc, List.forall_mem_nil _⟩
        exact (hq.change (hs hc hentry hh)).1.commit

/-- The loop over fields: the cache holds what the queue has for a field it met. -/
structure HfeGood (s : Store) (kc : KeyComposer) (key : Key) (w : HfeWork) : Prop where
  queue : HashQueue s kc key w.hm w.ops
  cached : ∀ f entry, w.stateCache.get f = some entry →
    EntryMatches (queuedFields s kc key w.ops) f entry
  uncached : ∀ f, w.stateCache.get f = none →
    (queuedFields s kc key w.ops).get f = (s.family kc key .hashData).get f

theorem HfeGood.cachedEntry_matches {w : HfeWork} (h : HfeGood s kc key w)
    (hst : Prefixed (s.family kc key .hashData)) (f : Bytes) (now : UInt64) :
    EntryMatches (queuedFields s kc key w.ops) f (cachedEntry s kc key now w f) := by
  unfold cachedEntry
  cases hg : w.stateCache.get f with
  | none => exact (loadFieldState_matches h.queue.counts.mode hst f now).congr (h.uncached f hg)
  | some entry => exact h.cached f entry hg

theorem hfeStep_good {handler : FieldHandler ρ} {w : HfeWork} (hs : handler.Sound)
    (h : HfeGood s kc key w) (hst : Prefixed (s.family kc key .hashData)) :
    HfeGood s kc key (hfeStep s kc key now handler w f).1 := by
  have hentry := h.cachedEntry_matches hst f now
  unfold hfeStep
  cases hh : handler w.hm (keyForField kc key f) (cachedEntry s kc key now w f) with
  | mk reply change =>
    cases change with
    | none =>
      simp only [hh]
      refine ⟨h.queue, fun g entry hg => ?_, fun g hg => ?_⟩
      · simp only [SortedMap.get_insert] at hg
        split_ifs at hg with hfg
        · cases hg
          exact hfg ▸ hentry
        · exact h.cached g entry hg
      · simp only [SortedMap.get_insert] at hg
        split_ifs at hg
        exact h.uncached g hg
    | some c =>
      obtain ⟨hq, hmatch, hframe⟩ := h.queue.change (hs h.queue.counts hentry hh)
      simp only [hh]
      refine ⟨hq, fun g entry hg => ?_, fun g hg => ?_⟩
      · simp only [SortedMap.get_insert] at hg
        by_cases hfg : f = g
        · rw [if_pos hfg, Option.some.injEq] at hg
          rw [← hfg, ← hg]
          exact hmatch
        · rw [if_neg hfg, if_neg hfg] at hg
          exact (h.cached g entry hg).congr (hframe g (Ne.symm hfg))
      · simp only [SortedMap.get_insert] at hg
        by_cases hfg : f = g
        · rw [if_pos hfg] at hg
          cases hg
        · rw [if_neg hfg, if_neg hfg] at hg
          rw [hframe g (Ne.symm hfg), h.uncached g hg]

variable (now) in
theorem hfeFields_good {handler : FieldHandler ρ} {w : HfeWork} (hs : handler.Sound)
    (h : HfeGood s kc key w) (hst : Prefixed (s.family kc key .hashData)) (fields : List Bytes) :
    HfeGood s kc key (hfeFields s kc key now handler w fields).1 := by
  induction fields generalizing w with
  | nil => exact h
  | cons f fields ih => exact ih (hfeStep_good hs h hst)

theorem hfeMany_kept {handler : FieldHandler ρ} {notFound : ρ} {a : List ρ} {fields : List Bytes}
    (hs : handler.Sound) (hinv : HashInv s kc key)
    (h : hfeMany s kc key now handler notFound fields = .ok (a, ops)) :
    HashKept s kc key ops := by
  unfold hfeMany at h
  obtain ⟨r, hget, h⟩ := bind_eq_ok h
  cases r with
  | none =>
    cases h
    exact .nil hinv
  | some hm =>
    have hc := getLiveHfeMeta_eq_some hinv hget
    have hstart : HfeGood s kc key ⟨hm, [], false, ∅⟩ :=
      ⟨⟨hc, List.forall_mem_nil _⟩, fun f entry hg => (nomatch hg), fun f _ => rfl⟩
    have hgood := hfeFields_good now hs hstart hc.stored fields
    cases h
    split_ifs
    · exact hgood.queue.commit
    · exact .nil hinv

theorem hfeCommand_kept {one many : FieldHandler ρ} {notFound : ρ} {a : List ρ}
    {fields : List Bytes} (hone : one.Sound) (hmany : many.Sound) (hinv : HashInv s kc key)
    (h : hfeCommand s kc key now one many notFound fields = .ok (a, ops)) :
    HashKept s kc key ops := by
  unfold hfeCommand at h
  split at h
  · cases h
    exact .nil hinv
  · rename_i field
    obtain ⟨x, hplan, h⟩ := bind_eq_ok h
    cases h
    exact hfeOne_kept hone hinv hplan
  · exact hfeMany_kept hmany hinv h

theorem expireFields_kept {fields : List Bytes} {e : UInt64} {condition : HExpire} {a : List ℤ}
    (hinv : HashInv s kc key) (h : expireFields s kc key now fields e condition = .ok (a, ops)) :
    HashKept s kc key ops :=
  hfeCommand_kept (expireHandler_sound condition e now) (expireHandler_sound condition e now) hinv h

/-! ## Setting fields with an expiry -/

def setexImmediate (now : UInt64) (options : HashSetEx) : Bool :=
  decide (options.ttlAction = .set) && isImmediateExpire options.expireAtMs now

theorem setexImmediate_iff {options : HashSetEx} :
    options.ttlAction = .set ∧ isImmediateExpire options.expireAtMs now = true ↔
      setexImmediate now options = true := by
  simp [setexImmediate]

theorem setexMeta_counts {e : UInt64} {v : Bytes} (hc : HashCounts hm U)
    (he : EntryMatches U f entry) (hlive : entry.kind ≠ .expiredTTLPhysical)
    (hlt : (U.insert f (encodeHashValue v e)).length < 2 ^ 64) :
    HashCounts (setexMeta hm entry.kind e) (U.insert f (encodeHashValue v e)) := by
  cases he with
  | missing hg =>
    simp only [setexMeta, CachedFieldState.missing]
    split_ifs with h0
    · exact h0 ▸ hc.missingToPersistent hg (h0 ▸ hlt)
    · exact hc.missingToTtl hg h0 hlt
  | persistent hg hexp hlen =>
    simp only [setexMeta]
    split_ifs with h0
    · exact hc.persistentToTtl hg hexp h0
    · exact hc.keepExpire hg (hexp.trans (not_not.mp h0).symm)
  | ttl hk hg hexp hlen =>
    rcases hk with rfl | rfl
    · simp only [setexMeta]
      split_ifs with h0
      · exact h0 ▸ hc.ttlToPersistent hg hexp
      · exact hc.ttlToTtl hg hexp h0
    · exact absurd rfl hlive

section
variable {options : HashSetEx} {value : Bytes}

theorem setexField_queue (hq : HashQueue s kc key hm ops)
    (he : EntryMatches (queuedFields s kc key ops) f entry)
    (hsafe : setexImmediate now options = true ∨ entry.kind ≠ .expiredTTLPhysical)
    (hlt : setexImmediate now options = true ∨ Countable s kc key
      (ops ++ (setexField now options hm (keyForField kc key f) value entry).2)) :
    HashQueue s kc key (setexField now options hm (keyForField kc key f) value entry).1
      (ops ++ (setexField now options hm (keyForField kc key f) value entry).2) := by
  unfold setexField at hlt ⊢
  by_cases himm : setexImmediate now options = true
  · rw [if_pos (setexImmediate_iff.mpr himm)]
    split_ifs with hmiss
    · exact hq.push (o := .rmData (keyForField kc key f)) ⟨rfl, rfl⟩
        (hq.counts.removeField he hmiss)
    · rwa [List.append_nil]
  · rw [if_neg fun hi => himm (setexImmediate_iff.mp hi)] at hlt ⊢
    exact hq.pushInsert (setexMeta_counts hq.counts he (hsafe.resolve_left himm)
      ((hlt.resolve_left himm).insert _))

theorem setexField_frame {g : Bytes} (hne : g ≠ f) (ops : Batch) :
    (queuedFields s kc key
      (ops ++ (setexField now options hm (keyForField kc key f) value entry).2)).get g =
      (queuedFields s kc key ops).get g := by
  unfold setexField
  split_ifs
  · have hrm : (WriteOp.rmData (keyForField kc key f)).OnField kc key f := ⟨rfl, rfl⟩
    simp only [queuedFields_push hrm, SortedMap.get_put, if_neg hne.symm]
  · rw [List.append_nil]
  · exact get_queuedFields_insert_of_ne hne

theorem setexField_back
    (h : setexImmediate now options = true ∨ Countable s kc key
      (ops ++ (setexField now options hm (keyForField kc key f) value entry).2)) :
    setexImmediate now options = true ∨ Countable s kc key ops := by
  by_cases himm : setexImmediate now options = true
  · exact Or.inl himm
  · have hlt := h.resolve_left himm
    unfold setexField at hlt
    rw [if_neg fun hi => himm (setexImmediate_iff.mp hi)] at hlt
    exact Or.inr hlt.of_insert

theorem loadFieldState_congr {hm hm' : HashMeta} (h : hm.mode = hm'.mode) (f : Bytes) :
    loadFieldState s kc key now hm f = loadFieldState s kc key now hm' f := by
  have hdec : hm.decodeSubkeyValue = hm'.decodeSubkeyValue := by
    funext raw
    rw [HashMeta.decodeSubkeyValue, HashMeta.decodeSubkeyValue, HashMeta.isLegacySubkeyEncoding,
      HashMeta.isLegacySubkeyEncoding, h]
  simp only [loadFieldState, decodeFieldState, hdec]

theorem setexEntry_congr {hm hm' : HashMeta} (h : hm.mode = hm'.mode) (existed : Bool)
    (f : Bytes) : setexEntry s kc key now existed hm f = setexEntry s kc key now existed hm' f := by
  rw [setexEntry, setexEntry, loadFieldState_congr h]

variable (now) in
theorem WriteStart.setexEntry_matches {existed : Bool} {hm' : HashMeta}
    (h : WriteStart s kc key hm existed ops) (hmode : hm'.mode = .fieldExpiration) (f : Bytes) :
    EntryMatches (queuedFields s kc key ops) f (setexEntry s kc key now existed hm' f) := by
  cases h with
  | live hc => exact loadFieldState_matches hmode hc.stored f now
  | fresh _ hempty => exact .missing (by rw [queuedFields, hempty]; rfl)

/-- No listed field that the command writes is stored with an expiry that has passed. -/
def setexSafe (s : Store) (kc : KeyComposer) (key : Key) (now : UInt64) (fields : List Bytes)
    (options : HashSetEx) : Bool :=
  match getHashMeta s kc key now with
  | .ok (some hm) =>
    let kinds := fields.map fun f => (loadFieldState s kc key now hm f).kind
    setexImmediate now options || !kinds.all (setConditionMet options.condition) ||
      kinds.all fun kind => decide (kind ≠ .expiredTTLPhysical)
  | _ => true

theorem setexSafe_entry {existed : Bool} {fields : List Bytes}
    (hprep : prepareHashMetaForWrite s kc key now version = .ok (hm, existed, ops))
    (hsafe : setexSafe s kc key now fields options = true)
    (hcond : ∀ f ∈ fields,
      setConditionMet options.condition (setexEntry s kc key now existed hm f).kind = true) :
    ∀ f ∈ fields, setexImmediate now options = true ∨
      (setexEntry s kc key now existed hm f).kind ≠ .expiredTTLPhysical := by
  intro f hf
  unfold prepareHashMetaForWrite at hprep
  obtain ⟨r, hget, hprep⟩ := bind_eq_ok hprep
  cases r with
  | none =>
    cases hprep
    exact Or.inr (by simp [setexEntry, CachedFieldState.missing])
  | some m =>
    cases hprep
    simp only [setexSafe, hget, Bool.or_eq_true, Bool.not_eq_true', List.all_eq_false,
      List.all_eq_true, decide_eq_true_eq, List.mem_map, or_assoc] at hsafe
    rcases hsafe with himm | ⟨_, ⟨g, hg, rfl⟩, hmet⟩ | hkinds
    · exact Or.inl himm
    · exact absurd (hcond g hg) hmet
    · exact Or.inr (hkinds _ ⟨f, hf, rfl⟩)

theorem setFieldWithExpireOne_kept {a : Bool} (hinv : HashInv s kc key)
    (hsafe : setexSafe s kc key now [f] options = true)
    (h : setFieldWithExpireOne s kc key now version f value options = .ok (a, ops))
    (hfits : (s.apply ops).Fits) : HashKept s kc key ops := by
  unfold setFieldWithExpireOne at h
  obtain ⟨⟨hm, existed, ops0⟩, hprep, h⟩ := bind_eq_ok h
  have hstart := prepareHashMetaForWrite_start hinv hprep
  have hq := hstart.queue
  simp only [bind, Except.bind, hq.counts.legacy_false, Bool.and_false, Bool.false_eq_true,
    if_false, Bool.not_eq_true'] at h
  split_ifs at h with hcond hmiss
  · cases h
    exact .nil hinv
  · cases h
    exact .nil hinv
  · cases h
    rw [Bool.not_eq_false] at hcond
    have hkind := setexSafe_entry hprep hsafe (by simpa using hcond) f (by simp)
    have hentry := hstart.setexEntry_matches now hq.counts.mode f
    exact (setexField_queue hq hentry hkind (Or.inr (countable_of_fits_commit hfits))).commit

theorem setFieldsWithExpire_kept {a : Bool} {fieldValues : List (Bytes × Bytes)}
    (hinv : HashInv s kc key)
    (hsafe : setexSafe s kc key now (fieldValues.map Prod.fst) options = true)
    (h : setFieldsWithExpire s kc key now version fieldValues options = .ok (a, ops))
    (hfits : (s.apply ops).Fits) : HashKept s kc key ops := by
  unfold setFieldsWithExpire at h
  split at h
  · cases h
    exact .nil hinv
  · exact setFieldWithExpireOne_kept hinv hsafe h hfits
  · obtain ⟨⟨hm, existed, ops0⟩, hprep, h⟩ := bind_eq_ok h
    have hstart := prepareHashMetaForWrite_start hinv hprep
    have hq := hstart.queue
    simp only [bind, Except.bind, hq.counts.legacy_false, Bool.and_false, Bool.false_eq_true,
      if_false, Bool.not_eq_true'] at h
    split_ifs at h with hcond
    · cases h
      exact .nil hinv
    · cases h
      rw [Bool.not_eq_false, List.all_eq_true] at hcond
      have hkind := setexSafe_entry hprep hsafe fun f hf => by
        obtain ⟨fv, hfv, rfl⟩ := List.mem_map.mp hf
        exact hcond fv hfv
      refine HashQueue.commit (HashQueue.foldl Prod.fst Prod.snd Prod.fst
        (setexStep s kc key now options existed)
        (fun w => setexImmediate now options = true ∨ Countable s kc key w.2)
        (queuedFields s kc key ops0) ?_ ?_ ?_ (keepLast_nodup _) hq (fun x _ => rfl)
        (Or.inr (countable_of_fits_commit hfits)))
      · exact fun w x hP => setexField_back hP
      · intro w x hx hw hsame hP
        have hmode := hw.counts.mode
        have hentry := (hstart.setexEntry_matches now hmode x.1).congr hsame
        refine setexField_queue hw hentry ?_ hP
        rw [setexEntry_congr (hmode.trans hq.counts.mode.symm)]
        exact hkind x.1 (List.mem_map.mpr ⟨x, keepLast_subset hx, rfl⟩)
      · exact fun w x g hne => setexField_frame hne w.2

end

end Wedb
