import Wedb.Stream.Lag

/-!
# Queries over runs

A run remembers the fields last given under each id. In every state the stored entries hold
these fields, and a query between two ids, a read after an id and a length on one side of
an id answer from exactly the stored entries.
-/

namespace Wedb

section
variable (s : Store) (kc : KeyComposer) (key : Key) (nowMs : UInt64)

def streamRevrange (stop start : StreamId) (count : Option ℕ) : Except Error (List StreamEntry) :=
  streamRangeWithOptions s kc key nowMs { start := stop, stop := start, count, reverse := true }

def streamRead (startId : StreamId) (count : Option ℕ) : Except Error (List StreamEntry) :=
  streamRangeWithOptions s kc key nowMs { start := startId, count, excludeStart := true }

end

/-- The fields last given under each id. -/
abbrev GivenFields := StreamId → List (Bytes × Bytes)

def StreamCall.given (given : GivenFields) (c : StreamCall) (reply : StreamReply) : GivenFields :=
  match c.command, reply with
  | .xadd _ fieldVals, .id id => Function.update given id fieldVals
  | _, _ => given

/-- The command creates a group or reads through one. -/
def GroupCall.Reads (c : GroupCall) : Prop :=
  match c.command with
  | .xadd _ _ => False
  | _ => True

/-- The runs of allowed commands on a stream and its groups, with the fields given. -/
inductive GivenReachable (kc : KeyComposer) (key : Key) (allowed : StreamCall → Prop) (e₀ : Engine) :
    GivenFields → Engine → Prop
  | start (given : GivenFields) : GivenReachable kc key allowed e₀ given e₀
  | call {given : GivenFields} {e e' : Engine} {c : StreamCall} {reply : StreamReply} :
      GivenReachable kc key allowed e₀ given e → allowed c → c.exec kc key e = .ok (reply, e') →
      GivenReachable kc key allowed e₀ (c.given given reply) e'
  | group {given : GivenFields} {e e' : Engine} {c : GroupCall} {reply : GroupReply} :
      GivenReachable kc key allowed e₀ given e → c.Reads → c.exec kc key e = .ok (reply, e') →
      GivenReachable kc key allowed e₀ given e'

/-- The stored entries hold the fields given. -/
structure GivenState (kc : KeyComposer) (key : Key) (s : Store) (given : GivenFields)
    (xs : EntryLog) (lastId : StreamId) : Prop where
  holds : StreamHolds s kc key xs lastId
  given : ∀ x ∈ xs, x.2 = encodeStreamEntryPairs (given x.1)

variable {s : Store} {kc : KeyComposer} {key : Key} {given : GivenFields} {xs : EntryLog}
  {lastId id : StreamId} {e₀ e e' : Engine} {ops : Batch} {now version : UInt64}

theorem StreamHolds.le_lastId (h : StreamHolds s kc key xs lastId) : ∀ x ∈ xs, x.1 ≤ lastId := by
  rcases h.lookup 0 with ⟨-, -, -, rfl, -⟩ | ⟨m, -, hl, -, rfl⟩
  · simp
  · exact hl.bounded

theorem GivenState.xadd (h : GivenState kc key s given xs lastId) {options : StreamAdd}
    {fieldVals : List (Bytes × Bytes)} (hwithin : options.nextIdStrategy.Within now)
    (hrun : streamAdd s kc key now version options fieldVals = .ok (id, ops))
    (hfits : (s.apply ops).Fits) :
    ∃ xs' lastId', GivenState kc key (s.apply ops) (Function.update given id fieldVals) xs' lastId' := by
  obtain ⟨hlt, n, -, hholds, -⟩ := streamAdd_spec h.holds hwithin hrun hfits
  refine ⟨_, _, hholds, fun x hx => ?_⟩
  rcases List.mem_append.mp hx with hx | hx
  · have hmem := List.mem_of_mem_drop hx
    have hne : x.1 ≠ id := ((h.holds.le_lastId x hmem).trans_lt hlt).ne
    rw [Function.update_of_ne hne]
    exact h.given x hmem
  · split_ifs at hx
    · rw [List.mem_singleton.mp hx, Function.update_self]
    · cases hx

theorem GivenState.sublist (h : GivenState kc key s given xs lastId) {t : Store} {ys : EntryLog}
    {lastId' : StreamId} (hholds : StreamHolds t kc key ys lastId') (hsub : ys.Sublist xs) :
    GivenState kc key t given ys lastId' :=
  ⟨hholds, fun x hx => h.given x (hsub.subset hx)⟩

theorem GivenState.call (h : GivenState kc key e.store given xs lastId) {c : StreamCall}
    {reply : StreamReply} (hwithin : c.Within) (hexec : c.exec kc key e = .ok (reply, e')) :
    ∃ xs' lastId', GivenState kc key e'.store (c.given given reply) xs' lastId' := by
  obtain ⟨ops, hplan, hstore⟩ := Engine.exec_eq_ok hexec
  have hfits := e'.fits
  rw [hstore] at hfits ⊢
  obtain ⟨now, version, command⟩ := c
  cases command with
  | xadd options fieldVals =>
    simp only [StreamCall.plan] at hplan
    obtain ⟨x, hrun, hx⟩ := map_eq_ok hplan
    cases hx
    exact h.xadd hwithin hrun hfits
  | xdel ids =>
    simp only [StreamCall.plan] at hplan
    obtain ⟨x, hrun, hx⟩ := map_eq_ok hplan
    cases hx
    exact ⟨_, _, h.sublist (streamDel_spec h.holds hrun) List.filter_sublist⟩
  | xtrim options =>
    simp only [StreamCall.plan] at hplan
    obtain ⟨x, hrun, hx⟩ := map_eq_ok hplan
    cases hx
    exact ⟨_, _, h.sublist (streamTrim_spec h.holds hrun) (List.drop_sublist _ _)⟩
  | xsetid id entriesAdded maxDeletedId =>
    simp only [StreamCall.plan] at hplan
    obtain ⟨x, hrun, hx⟩ := map_eq_ok hplan
    cases hx
    obtain ⟨hholds, -⟩ := streamSetid_spec h.holds (StreamId.le_max_iff.mpr hwithin) hrun
    exact ⟨_, _, h.sublist hholds (List.Sublist.refl _)⟩

theorem GivenState.group (h : GivenState kc key e.store given xs lastId) {c : GroupCall}
    {reply : GroupReply} (hreads : c.Reads) (hexec : c.exec kc key e = .ok (reply, e')) :
    GivenState kc key e'.store given xs lastId := by
  obtain ⟨ops, hplan, hstore⟩ := Engine.exec_eq_ok hexec
  rw [hstore]
  obtain ⟨now, version, command⟩ := c
  cases command with
  | xadd options fieldVals => exact hreads.elim
  | xgroupCreate group lastIdText mkstream entriesRead =>
    simp only [GroupCall.plan] at hplan
    obtain ⟨x, hrun, hx⟩ := map_eq_ok hplan
    cases hx
    exact h.sublist (streamGroupCreate_spec h.holds hrun).1 (List.Sublist.refl _)
  | xreadgroup group consumer start count noack =>
    simp only [GroupCall.plan] at hplan
    obtain ⟨x, hrun, hx⟩ := map_eq_ok hplan
    cases hx
    have hlen := Store.Fits.length_family_lt_signed kc key .streamData e.fits
    rw [h.holds.log.length] at hlen
    exact h.sublist (h.holds.apply_group (streamReadgroup_spec h.holds hlen hrun).1)
      (List.Sublist.refl _)

theorem GivenReachable.state (hr : GivenReachable kc key StreamCall.Within e₀ given e)
    (hnew : ∀ slot : Slot, slot.Valid → e₀.store.at ⟨kc, key, slot⟩ = none) :
    ∃ xs lastId, GivenState kc key e.store given xs lastId := by
  induction hr with
  | start given => exact ⟨[], .min, .of_new hnew, by simp⟩
  | call _ hwithin hexec ih =>
    obtain ⟨xs, lastId, hstate⟩ := ih
    exact hstate.call hwithin hexec
  | group _ hreads hexec ih =>
    obtain ⟨xs, lastId, hstate⟩ := ih
    exact ⟨xs, lastId, hstate.group hreads hexec⟩

/-! ## Queries -/

/-- An exclusive bound that no id can follow, or precede, is refused. -/
def StreamRange.Refused (options : StreamRange) : Prop :=
  (options.excludeStart && options.start.isMax) = true ∨ (options.excludeEnd && options.stop.isMin) = true

def StreamLen.query (options : StreamLen) : StreamRange :=
  if options.toFirst then { stop := options.entryId, excludeEnd := true }
  else { start := options.entryId, excludeStart := true }

theorem StreamHolds.le_max (h : StreamHolds s kc key xs lastId) : ∀ x ∈ xs, x.1 ≤ .max := fun x hx =>
  (h.le_lastId x hx).trans h.within

theorem answer_query (h : StreamHolds s kc key xs lastId) (options : StreamLen) :
    xs.answer options.query = xs.beside options := by
  rw [StreamLen.query, EntryLog.beside]
  cases options.toFirst with
  | true =>
    refine List.filter_congr fun x hx => ?_
    simp [StreamRange.Covers, StreamRange.low, StreamRange.high, StreamRange.excludesLow,
      StreamRange.excludesHigh, StreamId.min_le]
  | false =>
    refine List.filter_congr fun x hx => ?_
    simp [StreamRange.Covers, StreamRange.low, StreamRange.high, StreamRange.excludesLow,
      StreamRange.excludesHigh, h.le_max x hx]

/-- The queries answer from exactly the stored entries, in order, with the fields given. -/
structure QueriesExact (s : Store) (kc : KeyComposer) (key : Key) (given : GivenFields) : Prop where
  increasing : (storedEntries s kc key).Pairwise fun x y => x.1 < y.1
  fields : ∀ x ∈ storedEntries s kc key, ∀ fields : List (String × String),
    given x.1 = fieldsBytes fields → FieldsFramed (given x.1) → entryOf x = (x.1, fields)
  ranged : ∀ now (options : StreamRange), ¬options.Refused →
    streamRangeWithOptions s kc key now options =
      .ok (((storedEntries s kc key).answer options).map entryOf)
  refused : ∀ now (options : StreamRange), options.Refused →
    ∃ msg, streamRangeWithOptions s kc key now options = .error (.invalidData msg)
  read : ∀ now (startId : StreamId) count, startId ≠ .max → streamRead s kc key now startId count =
    .ok ((cutTo count ((storedEntries s kc key).after startId)).map entryOf)
  length : ∀ now (options : StreamLen), options.withEntryId = true →
    ∃ n, streamLenWithOptions s kc key now options = .ok n ∧
      n.toNat = ((storedEntries s kc key).answer options.query).length

theorem StreamId.isMax_iff (id : StreamId) : id.isMax = true ↔ id = .max := by
  rw [isMax, Bool.and_eq_true, beq_iff_eq, beq_iff_eq, StreamId.ext_iff]
  rfl

theorem GivenState.exact (h : GivenState kc key s given xs lastId) : QueriesExact s kc key given := by
  have hlog := h.holds.log
  have hentries := storedEntries_eq hlog
  have hspec := streamRangeWithOptions_spec h.holds
  constructor
  · rw [hentries]
    exact hlog.sorted encodeId_strictMono
  · rw [hentries]
    intro x hx fields hgiven hframed
    rw [hgiven] at hframed
    rw [entryOf, h.given x hx, hgiven, decodeStreamEntryFields_encode hframed]
    rfl
  · intro now options hrefused
    rw [StreamRange.Refused, not_or] at hrefused
    rw [hspec, if_neg hrefused.1, if_neg hrefused.2, hentries]
  · intro now options hrefused
    rw [hspec]
    split_ifs with hstart hstop
    · exact ⟨_, rfl⟩
    · exact ⟨_, rfl⟩
    · exact absurd hrefused (not_or.mpr ⟨hstart, hstop⟩)
  · intro now startId count hmax
    have hguard : ¬(true && startId.isMax) = true := by
      rw [Bool.true_and, StreamId.isMax_iff]
      exact hmax
    rw [streamRead, hspec, if_neg hguard, if_neg (by simp), answer_after h.holds, hentries]
  · intro now options hwith
    obtain ⟨n, hlen, hn⟩ := streamLenWithOptions_spec h.holds now options
    refine ⟨n, hlen, ?_⟩
    rw [hn, if_pos hwith, hentries, answer_query h.holds]

/-- In every state of a run the queries are exact. -/
theorem streamQueries_exact (hnew : ∀ slot : Slot, slot.Valid → e₀.store.at ⟨kc, key, slot⟩ = none)
    (hr : GivenReachable kc key StreamCall.Within e₀ given e) : QueriesExact e.store kc key given := by
  obtain ⟨xs, lastId, hstate⟩ := hr.state hnew
  exact hstate.exact

theorem streamQueries_exact_sample :
    ∃ given e, GivenReachable ⟨0, 0⟩ sampleKey StreamCall.Within .empty given e ∧
      QueriesExact e.store ⟨0, 0⟩ sampleKey given ∧ storedEntries e.store ⟨0, 0⟩ sampleKey ≠ [] := by
  have hrun : ((sampleXadd.exec ⟨0, 0⟩ sampleKey .empty).map fun x =>
      decide (storedEntries x.2.store ⟨0, 0⟩ sampleKey = [])).toOption = some false := by
    decide +kernel
  obtain ⟨⟨reply, e⟩, hexec, heq⟩ := exists_ok_of_toOption_map hrun
  have hstart : GivenReachable ⟨0, 0⟩ sampleKey StreamCall.Within .empty (fun _ => []) .empty := .start _
  have hreach := hstart.call (c := sampleXadd) (show (5 : UInt64) ≠ _ by decide) hexec
  exact ⟨_, e, hreach, streamQueries_exact (fun slot _ => by cases slot <;> rfl) hreach,
    of_decide_eq_false heq⟩

def sampleXaddBytes : StreamCall :=
  ⟨1, 1, .xadd { nextIdStrategy := .fullySpecified ⟨5, 0⟩ } [([255], [118])]⟩

def answerBytes (answer : Except Error (List StreamEntry)) : Option (List (StreamId × List (Bytes × Bytes))) :=
  answer.toOption.map fun entries => entries.map fun x => (x.1, fieldsBytes x.2)

/-- A reversed query from below the greatest id is refused, a read misses an entry above the
greatest id named, and fields that are no text are lost. -/
theorem streamQueries_exceptions :
    (¬∀ given e, GivenReachable ⟨0, 0⟩ sampleKey StreamCall.Within .empty given e →
      ∀ now options, answerBytes (streamRangeWithOptions e.store ⟨0, 0⟩ sampleKey now options) =
        some (((storedEntries e.store ⟨0, 0⟩ sampleKey).answer options).map fun x => (x.1, given x.1))) ∧
    (¬∀ given e, GivenReachable ⟨0, 0⟩ sampleKey (fun _ => True) .empty given e →
      ∀ now startId count, (answerBytes (streamRead e.store ⟨0, 0⟩ sampleKey now startId count)) =
        some ((cutTo count ((storedEntries e.store ⟨0, 0⟩ sampleKey).after startId)).map
          fun x => (x.1, given x.1))) ∧
    ¬∀ given e, GivenReachable ⟨0, 0⟩ sampleKey StreamCall.Within .empty given e →
      ∀ now, answerBytes (streamRangeWithOptions e.store ⟨0, 0⟩ sampleKey now {}) =
        some ((storedEntries e.store ⟨0, 0⟩ sampleKey).map fun x => (x.1, given x.1)) := by
  refine ⟨fun hclaim => ?_, fun hclaim => ?_, fun hclaim => ?_⟩
  · have hstart : GivenReachable ⟨0, 0⟩ sampleKey StreamCall.Within .empty (fun _ => []) .empty := .start _
    have hanswer := hclaim _ _ hstart 1 { start := .max, stop := .min, reverse := true, excludeStart := true }
    revert hanswer
    decide +kernel
  · have hrun : ((sampleXaddGreatest.exec ⟨0, 0⟩ sampleKey .empty).map fun x =>
        (((storedEntries x.2.store ⟨0, 0⟩ sampleKey).after .min).length,
          (answerBytes (streamRead x.2.store ⟨0, 0⟩ sampleKey 2 .min none)).map List.length)).toOption =
        some (1, some 0) := by
      decide +kernel
    obtain ⟨⟨r, e⟩, h, heq⟩ := exists_ok_of_toOption_map hrun
    simp only [Prod.mk.injEq] at heq
    have hstart : GivenReachable ⟨0, 0⟩ sampleKey (fun _ => True) .empty (fun _ => []) .empty := .start _
    have hanswer := hclaim _ _ (hstart.call trivial h) 2 .min none
    rw [hanswer] at heq
    simp [cutTo, heq.1] at heq
  · have hrun : ((sampleXaddBytes.exec ⟨0, 0⟩ sampleKey .empty).map fun x =>
        ((storedEntries x.2.store ⟨0, 0⟩ sampleKey).length,
          (answerBytes (streamRangeWithOptions x.2.store ⟨0, 0⟩ sampleKey 2 {})).map fun entries =>
            (entries.map fun x => x.2.length).sum)).toOption = some (1, some 0) := by
      decide +kernel
    obtain ⟨⟨r, e⟩, h, heq⟩ := exists_ok_of_toOption_map hrun
    simp only [Prod.mk.injEq] at heq
    have hstart : GivenReachable ⟨0, 0⟩ sampleKey StreamCall.Within .empty (fun _ => [([255], [118])])
        .empty := .start _
    have hreach := hstart.call (c := sampleXaddBytes) (show (5 : UInt64) ≠ _ by decide) h
    have hgiven : sampleXaddBytes.given (fun _ => [([255], [118])]) r = fun _ => [([255], [118])] := by
      cases r with
      | id id => exact Function.update_eq_self id (fun _ => [([255], [118])])
      | _ => rfl
    rw [hgiven] at hreach
    have hanswer := hclaim _ _ hreach 2
    obtain ⟨hlength, hsum⟩ := heq
    rw [hanswer] at hsum
    simp [Function.comp_def, hlength] at hsum

end Wedb
