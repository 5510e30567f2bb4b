import Wedb.List.Impl

/-!
# Sweeping expired keys

`sweepExpired` samples the entries after a cursor in each partition. A data entry
goes when its bytes read as an expired string, whatever slot it lies in; an
expired metadata entry goes with the data its type owns. A later read is of the
live string, the live metadata or a readable slot.
-/

namespace Wedb

structure ExpireCursors where
  dataCursor : Option Bytes
  metaCursor : Option Bytes

def afterCursor (cursor : Option Bytes) (k : Bytes) : Bool :=
  match cursor with
  | some c => decide (c < k)
  | none => true

def sweepSample (m : SortedMap Bytes Bytes) (cursor : Option Bytes) (sampleLimit : ℕ) :
    List (Bytes × Bytes) :=
  (m.entries.filter fun x => afterCursor cursor x.1).take sampleLimit

def sweepKs (m : SortedMap Bytes Bytes) (cursor : Option Bytes) (sampleLimit : ℕ) :
    List (Bytes × Bytes) × Option Bytes :=
  let sampled := sweepSample m cursor sampleLimit
  (sampled, if sampled.length = sampleLimit then sampled.getLast?.map Prod.fst else none)

def looksExpired (nowMs : UInt64) (v : Bytes) : Bool :=
  isStringExpired (decodeStringValue v).1 nowMs

def sweepDataOps (nowMs : UInt64) (sampled : List (Bytes × Bytes)) : Batch :=
  (sampled.filter fun x => looksExpired nowMs x.2).map fun x => .rmData x.1

def metaExpired (nowMs : UInt64) (v : Bytes) : Bool :=
  match KeyMeta.decode v with
  | some baseMeta => baseMeta.isExpired nowMs
  | none => false

def sweepMetaEntry (s : Store) (nowMs : UInt64) (x : Bytes × Bytes) : Option Batch :=
  match KeyComposer.parseScopedPrefix x.1 with
  | some (kc, _, metaTag :: kBytes) =>
    match KeyTag.fromU8 metaTag with
    | some tag =>
      if tag.isMeta && metaExpired nowMs x.2 then
        some (.rmMeta x.1 :: cleanupCompositeDataRaw s kc metaTag kBytes)
      else none
    | none => none
  | _ => none

def sweepMetaOps (s : Store) (nowMs : UInt64) (sampled : List (Bytes × Bytes)) : List Batch :=
  sampled.filterMap (sweepMetaEntry s nowMs)

def sweepExpired (e : Engine) (cursors : ExpireCursors) (nowMs : UInt64) (sampleLimit : ℕ) :
    Except Error (ℕ × Engine × ExpireCursors) := do
  let (dataSample, dataCur) := sweepKs e.store.data cursors.dataCursor sampleLimit
  let (metaSample, metaCur) := sweepKs e.store.metadata cursors.metaCursor sampleLimit
  let dataOps := sweepDataOps nowMs dataSample
  let metaOps := sweepMetaOps e.store nowMs metaSample
  let expiredCount := dataOps.length + metaOps.length
  let e' ← if expiredCount > 0 then e.commit (dataOps ++ metaOps.flatten) else .ok e
  return (expiredCount, e', ⟨dataCur, metaCur⟩)

/-! ## Reads after a sweep -/

structure SameReads (s s' : Store) (kc : KeyComposer) (key : Key) (t : UInt64) : Prop where
  string : liveString s' kc key t = liveString s kc key t
  metadata : ∀ tag ∈ allCompositeMetaTags, liveMeta s' kc key t tag = liveMeta s kc key t tag
  slots : ∀ slot : Slot, slot.Valid → Readable s kc key t slot →
    s'.at ⟨kc, key, slot⟩ = s.at ⟨kc, key, slot⟩

/-- No sampled entry that a later read looks at has the bytes of an expired
string, and no sampled expired stream has pending entries. -/
structure SweepSafe (s : Store) (cursors : ExpireCursors) (now : UInt64) (limit : ℕ) : Prop where
  data : ∀ kc key t (slot : Slot), now ≤ t → slot.Valid → slot.partition = .data →
    Readable s kc key t slot → ∀ v, looksExpired now v = true →
      (Addr.phys ⟨kc, key, slot⟩, v) ∉ sweepSample s.data cursors.dataCursor limit
  pending : ∀ kc key v, metaExpired now v = true →
    (Addr.phys ⟨kc, key, .metadata .streamMeta⟩, v) ∈
      sweepSample s.metadata cursors.metaCursor limit →
    ∀ suffix, s.at ⟨kc, key, .sub .streamPel suffix⟩ = none

section
variable {s t : Store} {b : Addr} {now : UInt64} {xs : List (Bytes × Bytes)}

theorem mem_sweepSample {m : SortedMap Bytes Bytes} {cursor : Option Bytes} {limit : ℕ}
    {x : Bytes × Bytes} (h : x ∈ sweepSample m cursor limit) : m.get x.1 = some x.2 :=
  SortedMap.get_of_mem (List.mem_of_mem_filter (List.mem_of_mem_take h))

theorem sweepDataOps_value {o : WriteOp} (ho : o ∈ sweepDataOps now xs) : o.value = none := by
  simp only [sweepDataOps, List.mem_map] at ho
  obtain ⟨x, -, rfl⟩ := ho
  rfl

open Classical in
theorem at_apply_sweepDataOps (s : Store) (b : Addr) (now : UInt64) (xs : List (Bytes × Bytes)) :
    (s.apply (sweepDataOps now xs)).at b =
      if b.slot.partition = .data ∧ ∃ v, (b.phys, v) ∈ xs ∧ looksExpired now v = true then none
      else s.at b := by
  have hmap : sweepDataOps now xs =
      ((xs.filter fun x => looksExpired now x.2).map Prod.fst).map (WriteOp.rm .data) := by
    simp [sweepDataOps, List.map_map, Function.comp_def]
  rw [Store.at, hmap, Store.part_apply_rms_get]
  refine if_congr ?_ rfl rfl
  rw [eq_comm]
  refine and_congr_right fun _ => ?_
  simp only [List.mem_map, List.mem_filter]
  constructor
  · rintro ⟨x, hx, hk⟩
    exact ⟨x.2, by rw [← hk]; exact hx⟩
  · rintro ⟨v, hv⟩
    exact ⟨(b.phys, v), hv, rfl⟩

/-- The slots an expired metadata entry takes along. -/
def SweptBy (now : UInt64) (x : Bytes × Bytes) (b : Addr) : Prop :=
  ∃ tag : KeyTag, tag.isMeta = true ∧ x.1 = Addr.phys ⟨b.kc, b.key, .metadata tag⟩ ∧
    metaExpired now x.2 = true ∧ (b.slot = .metadata tag ∨ b.slot.ownedBy tag = true)

theorem parseScopedPrefix_phys (a : Addr) :
    KeyComposer.parseScopedPrefix a.phys =
      some (a.kc, a.kc.encodeScopePrefix.length, a.slot.tag.asU8 :: a.tail) := by
  rw [Addr.phys_eq, List.append_assoc, KeyComposer.parseScopedPrefix_scope a.kc (by
    simp [KeyTag.asSlice])]
  rfl

theorem parseScopedPrefix_systemKey {k : Bytes} (h : SystemKey k) :
    KeyComposer.parseScopedPrefix k = none := by
  obtain ⟨t, rfl⟩ := h.head
  rfl

theorem sweepMetaEntry_phys (s : Store) (now : UInt64) {a : Addr} (ha : a.slot.Valid)
    (hp : a.slot.partition = .metadata) (v : Bytes) :
    sweepMetaEntry s now (a.phys, v) =
      if a.slot.tag.isMeta = true ∧ metaExpired now v = true then
        some (rmMetaWithData s a.kc a.slot.tag a.key)
      else none := by
  obtain ⟨kc, key, slot⟩ := a
  simp only [sweepMetaEntry, parseScopedPrefix_phys, KeyTag.fromU8_asU8, Bool.and_eq_true]
  split_ifs with h
  · cases slot with
    | str | hllRaw | sub => cases hp
    | rule => exact absurd (show KeyTag.isMeta .timeSeriesData = true from h.1) (by decide)
    | metadata tag => rfl
  · rfl

theorem sweepMetaEntry_systemKey (s : Store) (now : UInt64) {k : Bytes} (h : SystemKey k)
    (v : Bytes) : sweepMetaEntry s now (k, v) = none := by
  simp [sweepMetaEntry, parseScopedPrefix_systemKey h]

theorem sweepMetaEntry_cases (now : UInt64) (hs : WellKeyed s) {x : Bytes × Bytes}
    (hx : s.metadata.get x.1 = some x.2) :
    (∃ (kc : KeyComposer) (key : Key) (tag : KeyTag), tag.isMeta = true ∧
      x.1 = Addr.phys ⟨kc, key, .metadata tag⟩ ∧ metaExpired now x.2 = true ∧
        sweepMetaEntry s now x = some (rmMetaWithData s kc tag key)) ∨
    sweepMetaEntry s now x = none ∧ ∀ b, ¬SweptBy now x b := by
  obtain ⟨k, v⟩ := x
  rcases hs .metadata k v hx with ⟨a, ha, hp, rfl⟩ | ⟨-, hsys⟩
  · rw [sweepMetaEntry_phys s now ha hp]
    split_ifs with h
    · obtain ⟨kc, key, slot⟩ := a
      cases slot with
      | str | hllRaw | sub => cases hp
      | rule => exact absurd (show KeyTag.isMeta .timeSeriesData = true from h.1) (by decide)
      | metadata tag => exact Or.inl ⟨kc, key, tag, h.1, rfl, h.2, rfl⟩
    · refine Or.inr ⟨rfl, fun b ⟨tag, htag, hk, hexp, _⟩ => h ?_⟩
      obtain rfl := Addr.phys_inj ha (b := ⟨b.kc, b.key, .metadata tag⟩) htag hp hk
      exact ⟨htag, hexp⟩
  · refine Or.inr ⟨sweepMetaEntry_systemKey s now hsys v, fun b ⟨tag, _, hk, _⟩ => ?_⟩
    simp only at hk
    subst hk
    exact (Addr.composedIn_phys _).not_system hsys

theorem sweepMetaOps_value (hs : WellKeyed s) (hxs : ∀ x ∈ xs, s.metadata.get x.1 = some x.2)
    {o : WriteOp} (ho : o ∈ (sweepMetaOps s now xs).flatten) : o.value = none := by
  simp only [sweepMetaOps, List.mem_flatten, List.mem_filterMap] at ho
  obtain ⟨ops, ⟨x, hx, hops⟩, ho⟩ := ho
  rcases sweepMetaEntry_cases now hs (hxs x hx) with
    ⟨kc, key, tag, -, -, -, he⟩ | ⟨he, -⟩
  · rw [he] at hops
    cases hops
    exact rmMetaWithData_value ho
  · rw [he] at hops
    cases hops

open Classical in
theorem at_apply_sweepMetaOps (hs : WellKeyed s) (hxs : ∀ x ∈ xs, s.metadata.get x.1 = some x.2)
    (hb : b.slot.Valid) (hst : s.at b = none → t.at b = none) :
    (t.apply (sweepMetaOps s now xs).flatten).at b =
      if ∃ x ∈ xs, SweptBy now x b then none else t.at b := by
  induction xs generalizing t with
  | nil => simp [sweepMetaOps]
  | cons x xs ih =>
    have hxs' : ∀ y ∈ xs, s.metadata.get y.1 = some y.2 :=
      fun y hy => hxs y (List.mem_cons_of_mem _ hy)
    rcases sweepMetaEntry_cases now hs (hxs x (by simp)) with
      ⟨kc, key, tag, htag, hk, hexp, he⟩ | ⟨he, hnot⟩
    · have hone := at_apply_rmMetaWithData (t := t) kc key htag hb hst
      have hswept : SweptBy now x b ↔
          b.kc = kc ∧ b.key = key ∧ (b.slot = .metadata tag ∨ b.slot.ownedBy tag = true) := by
        constructor
        · rintro ⟨tag', htag', hk', -, hslot⟩
          have ha := Addr.phys_inj (a := ⟨kc, key, .metadata tag⟩)
            (b := ⟨b.kc, b.key, .metadata tag'⟩) htag htag' rfl (hk ▸ hk')
          simp only [Addr.mk.injEq, Slot.metadata.injEq] at ha
          obtain ⟨rfl, rfl, rfl⟩ := ha
          exact ⟨rfl, rfl, hslot⟩
        · rintro ⟨rfl, rfl, hslot⟩
          exact ⟨tag, htag, hk, hexp, hslot⟩
      have hcons : sweepMetaOps s now (x :: xs) =
          rmMetaWithData s kc tag key :: sweepMetaOps s now xs := by
        simp [sweepMetaOps, he]
      rw [hcons, List.flatten_cons, Store.apply_append, ih hxs' fun h => by
        rw [hone, hst h, ite_self], hone]
      simp only [List.mem_cons, exists_eq_or_imp, hswept]
      by_cases h1 : ∃ y ∈ xs, SweptBy now y b
      · simp [h1]
      · simp only [h1, if_false, or_false]
    · have hcons : sweepMetaOps s now (x :: xs) = sweepMetaOps s now xs := by
        simp [sweepMetaOps, he]
      rw [hcons, ih hxs' hst]
      simp [hnot b]

end

/-- The swept data slots and those below swept metadata are gone, no other is. -/
def Swept (s : Store) (cursors : ExpireCursors) (now : UInt64) (limit : ℕ) (b : Addr) : Prop :=
  b.slot.partition = .data ∧ (∃ v, (b.phys, v) ∈ sweepSample s.data cursors.dataCursor limit ∧
    looksExpired now v = true) ∨
  ∃ x ∈ sweepSample s.metadata cursors.metaCursor limit, SweptBy now x b

open Classical in
theorem sweepExpired_spec {e : Engine} (h : WellKeyed e.store) (cursors : ExpireCursors)
    (now : UInt64) (limit : ℕ) :
    ∃ n e' c', sweepExpired e cursors now limit = .ok (n, e', c') ∧
      ∀ b : Addr, b.slot.Valid →
        e'.store.at b = if Swept e.store cursors now limit b then none else e.store.at b := by
  set dataOps := sweepDataOps now (sweepSample e.store.data cursors.dataCursor limit) with hdata
  set metaOps := sweepMetaOps e.store now
    (sweepSample e.store.metadata cursors.metaCursor limit) with hmeta
  have hxs : ∀ x ∈ sweepSample e.store.metadata cursors.metaCursor limit,
      e.store.metadata.get x.1 = some x.2 := fun x hx => mem_sweepSample hx
  have hat : ∀ b : Addr, b.slot.Valid → (e.store.apply (dataOps ++ metaOps.flatten)).at b =
      if Swept e.store cursors now limit b then none else e.store.at b := by
    intro b hb
    have hone := at_apply_sweepDataOps e.store b now
      (sweepSample e.store.data cursors.dataCursor limit)
    rw [Store.apply_append, hmeta, at_apply_sweepMetaOps h hxs hb fun hnone => by
      rw [hdata, hone, hnone, ite_self], hdata, hone]
    by_cases h1 : ∃ x ∈ sweepSample e.store.metadata cursors.metaCursor limit, SweptBy now x b
    · simp [Swept, h1]
    · simp only [Swept, h1, if_false, or_false]
  have hval : ∀ o ∈ dataOps ++ metaOps.flatten, o.value = none := by
    intro o ho
    rcases List.mem_append.mp ho with ho | ho
    · exact sweepDataOps_value ho
    · exact sweepMetaOps_value h hxs ho
  set cursors' : ExpireCursors := ⟨(sweepKs e.store.data cursors.dataCursor limit).2,
    (sweepKs e.store.metadata cursors.metaCursor limit).2⟩ with hcursors
  obtain ⟨e', he', hs⟩ := e.commit_of_forall_rm hval
  by_cases hcount : dataOps.length + metaOps.length > 0
  · refine ⟨dataOps.length + metaOps.length, e', cursors', ?_, fun b hb => by rw [hs, hat b hb]⟩
    simp only [sweepExpired, sweepKs, ← hdata, ← hmeta, hcount, if_true, he', bind, Except.bind]
    rfl
  · refine ⟨dataOps.length + metaOps.length, e, cursors', ?_, fun b hb => ?_⟩
    · simp only [sweepExpired, sweepKs, ← hdata, ← hmeta, hcount, if_false, bind, Except.bind]
      rfl
    · have hd : dataOps = [] := List.eq_nil_of_length_eq_zero (by omega)
      have hm : metaOps = [] := List.eq_nil_of_length_eq_zero (by omega)
      rw [← hat b hb, hd, hm]
      rfl

section
variable {s s' : Store} {cursors : ExpireCursors} {now t : UInt64} {limit : ℕ}
  {kc : KeyComposer} {key : Key}

theorem liveMeta_of_metaExpired {tag : KeyTag} {v : Bytes}
    (hget : s.at ⟨kc, key, .metadata tag⟩ = some v) (hv : metaExpired now v = true)
    (ht : now ≤ t) : liveMeta s kc key t tag = none := by
  refine liveMeta_mono ?_ ht
  rw [liveMeta_eq_at, hget]
  simp only [metaExpired] at hv
  cases hd : KeyMeta.decode v with
  | none => simp [hd]
  | some m =>
    rw [hd] at hv
    simp [hd, Option.filter, hv]

theorem liveString_of_looksExpired {v : Bytes} (hget : s.at ⟨kc, key, .str⟩ = some v)
    (hv : looksExpired now v = true) (ht : now ≤ t) : liveString s kc key t = none := by
  refine liveString_mono ?_ ht
  rw [liveString_eq_at, hget]
  simp only [looksExpired] at hv
  simp [Option.filter, hv]

theorem SweptBy.liveMeta {x : Bytes × Bytes} {slot : Slot}
    (hx : x ∈ sweepSample s.metadata cursors.metaCursor limit)
    (h : SweptBy now x ⟨kc, key, slot⟩) (ht : now ≤ t) :
    ∃ tag : KeyTag, liveMeta s kc key t tag = none ∧
      (slot = .metadata tag ∨ slot.ownedBy tag = true) := by
  obtain ⟨tag, -, hk, hexp, hslot⟩ := h
  have hget := mem_sweepSample hx
  rw [hk] at hget
  exact ⟨tag, liveMeta_of_metaExpired hget hexp ht, hslot⟩

open Classical in
theorem sameReads_of_safe (hsafe : SweepSafe s cursors now limit)
    (hat : ∀ b : Addr, b.slot.Valid →
      s'.at b = if Swept s cursors now limit b then none else s.at b) (ht : now ≤ t) :
    SameReads s s' kc key t := by
  constructor
  · have hstr := hat ⟨kc, key, .str⟩ trivial
    by_cases hsw : Swept s cursors now limit ⟨kc, key, .str⟩
    · rw [if_pos hsw] at hstr
      rw [liveString_of_at_none hstr, eq_comm]
      rcases hsw with ⟨-, v, hv, hexp⟩ | ⟨x, hx, hsw⟩
      · exact liveString_of_looksExpired (mem_sweepSample hv) hexp ht
      · obtain ⟨tag, -, hslot⟩ := hsw.liveMeta hx ht
        simp [Slot.ownedBy] at hslot
    · rw [if_neg hsw] at hstr
      exact liveString_congr hstr
  · intro tag htag
    have hmeta := hat ⟨kc, key, .metadata tag⟩ (allCompositeMetaTags_isMeta htag)
    by_cases hsw : Swept s cursors now limit ⟨kc, key, .metadata tag⟩
    · rw [if_pos hsw] at hmeta
      rw [liveMeta_of_at_none hmeta, eq_comm]
      rcases hsw with ⟨hp, -⟩ | ⟨x, hx, hsw⟩
      · cases hp
      · obtain ⟨u, hu, hslot⟩ := hsw.liveMeta hx ht
        rcases hslot with hslot | hslot
        · cases hslot
          exact hu
        · simp [Slot.ownedBy] at hslot
    · rw [if_neg hsw] at hmeta
      exact liveMeta_congr hmeta
  · intro slot hslot hread
    rw [hat ⟨kc, key, slot⟩ hslot]
    by_cases hsw : Swept s cursors now limit ⟨kc, key, slot⟩
    · rw [if_pos hsw, eq_comm]
      rcases hsw with ⟨hp, v, hv, hexp⟩ | ⟨x, hx, hsw⟩
      · exact absurd hv (hsafe.data kc key t slot ht hslot hp hread v hexp)
      · by_cases hpel : ∃ suffix, slot = .sub .streamPel suffix
        · obtain ⟨suffix, rfl⟩ := hpel
          obtain ⟨tag, htag, hk, hexp, hown⟩ := hsw
          obtain rfl : tag = .streamMeta := by
            rcases hown with hown | hown
            · cases hown
            · exact (Slot.ownedBy_inj (t := .streamMeta) (by decide) (by rfl) hown).symm
          refine hsafe.pending kc key x.2 hexp ?_ suffix
          rw [← hk]
          exact hx
        · obtain ⟨u, hu, hown⟩ := hsw.liveMeta hx ht
          have hgate : liveString s kc key t = none ∧ ∃ tag ∈ allCompositeMetaTags,
              slot.ownedBy tag = true ∧ (liveMeta s kc key t tag).isSome := by
            unfold Readable at hread
            split at hread
            · exact absurd ⟨_, rfl⟩ hpel
            · exact hread
          obtain ⟨-, tag, htag, howned, hlive⟩ := hgate
          rcases hown with rfl | hown
          · simp [Slot.ownedBy] at howned
          · obtain rfl := Slot.ownedBy_inj htag howned hown
            simp [hu] at hlive
    · rw [if_neg hsw]

open Classical in
theorem safe_of_sameReads
    (hat : ∀ b : Addr, b.slot.Valid →
      s'.at b = if Swept s cursors now limit b then none else s.at b)
    (h : ∀ kc key t, now ≤ t → SameReads s s' kc key t) : SweepSafe s cursors now limit := by
  constructor
  · intro kc key t slot ht hslot hp hread v hexp hmem
    have hget : s.at ⟨kc, key, slot⟩ = some v := by
      have hg := mem_sweepSample hmem
      simp only [Store.at, hp]
      exact hg
    have hsame := (h kc key t ht).slots slot hslot hread
    have hsw : Swept s cursors now limit ⟨kc, key, slot⟩ := Or.inl ⟨hp, v, hmem, hexp⟩
    rw [hat ⟨kc, key, slot⟩ hslot, if_pos hsw, hget] at hsame
    cases hsame
  · intro kc key v hexp hmem suffix
    have hvalid : (Slot.sub .streamPel suffix).Valid := rfl
    have hsw : Swept s cursors now limit ⟨kc, key, .sub .streamPel suffix⟩ :=
      Or.inr ⟨_, hmem, .streamMeta, rfl, rfl, hexp, Or.inr rfl⟩
    have hsame := (h kc key now le_rfl).slots _ hvalid trivial
    rw [hat _ hvalid, if_pos hsw] at hsame
    exact hsame.symm

end

/-- The sweep keeps every later read of every key exactly when it is safe. -/
theorem sweepExpired_keeps_reads_iff {e : Engine} (h : WellKeyed e.store)
    (cursors : ExpireCursors) (now : UInt64) (limit : ℕ) :
    ∃ n e' c', sweepExpired e cursors now limit = .ok (n, e', c') ∧
      ((∀ kc key t, now ≤ t → SameReads e.store e'.store kc key t) ↔
        SweepSafe e.store cursors now limit) := by
  classical
  obtain ⟨n, e', c', hrun, hat⟩ := sweepExpired_spec h cursors now limit
  exact ⟨n, e', c', hrun, safe_of_sameReads hat, fun hsafe kc key t ht =>
    sameReads_of_safe hsafe hat ht⟩

def listOfStringBytes : Except Error Engine := do
  let (_, ops) ← rpush ∅ ⟨0, 0⟩ sampleKey 5 1 [encodeStringValue [] 1]
  Engine.empty.commit ops

def firstPushed : Slot := .sub .listData ListMeta.initialIndex.toBeBytes

theorem listOfStringBytes_wellKeyed {e : Engine} (h : listOfStringBytes = .ok e) :
    WellKeyed e.store := by
  obtain ⟨m, hops⟩ : ∃ m, rpush ∅ ⟨0, 0⟩ sampleKey 5 1 [encodeStringValue [] 1] =
      .ok (1, [.insertData (Addr.phys ⟨⟨0, 0⟩, sampleKey, firstPushed⟩) (encodeStringValue [] 1),
        .insertMeta (Addr.phys ⟨⟨0, 0⟩, sampleKey, .metadata .listMeta⟩) m]) := ⟨_, rfl⟩
  simp only [listOfStringBytes, hops, bind, Except.bind] at h
  rw [Engine.commit_eq_ok h]
  refine wellKeyed_empty.apply fun o ho => ?_
  simp only [List.mem_cons, List.not_mem_nil, or_false] at ho
  rcases ho with rfl | rfl
  · exact ⟨⟨⟨0, 0⟩, sampleKey, firstPushed⟩, rfl, rfl, rfl⟩
  · exact ⟨⟨⟨0, 0⟩, sampleKey, .metadata .listMeta⟩, rfl, rfl, rfl⟩

theorem sweepExpired_keeps_reads_iff_list :
    ∃ e, listOfStringBytes = .ok e ∧ ∃ n e' c', sweepExpired e ⟨none, none⟩ 5 10 = .ok (n, e', c') ∧
      ((∀ kc key t, 5 ≤ t → SameReads e.store e'.store kc key t) ↔
        SweepSafe e.store ⟨none, none⟩ 5 10) := by
  have hrun : (listOfStringBytes.map fun _ => ()).toOption = some () := by
    decide +kernel
  obtain ⟨e, he, -⟩ := exists_ok_of_toOption_map hrun
  exact ⟨e, he, sweepExpired_keeps_reads_iff (listOfStringBytes_wellKeyed he) ⟨none, none⟩ 5 10⟩

/-- The element is swept although its list never expires. -/
theorem sweepExpired_removes_element :
    ∃ e, listOfStringBytes = .ok e ∧
      ∃ n e' c', sweepExpired e ⟨none, none⟩ 5 10 = .ok (n, e', c') ∧
        ¬SameReads e.store e'.store ⟨0, 0⟩ sampleKey 5 := by
  have hrun : (listOfStringBytes.bind fun e => (sweepExpired e ⟨none, none⟩ 5 10).map fun r =>
      (decide (liveString e.store ⟨0, 0⟩ sampleKey 5 = none),
        (liveMeta e.store ⟨0, 0⟩ sampleKey 5 .listMeta).isSome,
        e.store.at ⟨⟨0, 0⟩, sampleKey, firstPushed⟩,
        r.2.1.store.at ⟨⟨0, 0⟩, sampleKey, firstPushed⟩)).toOption =
      some (true, true, some (encodeStringValue [] 1), none) := by
    decide +kernel
  obtain ⟨e, he, hrun⟩ := exists_ok_of_toOption_bind hrun
  obtain ⟨⟨n, e', c'⟩, hsweep, hreads⟩ := exists_ok_of_toOption_map hrun
  simp only [Prod.mk.injEq, decide_eq_true_eq] at hreads
  obtain ⟨hstr, hlive, hbefore, hafter⟩ := hreads
  refine ⟨e, he, n, e', c', hsweep, fun h => ?_⟩
  have hread : Readable e.store ⟨0, 0⟩ sampleKey 5 firstPushed :=
    ⟨hstr, .listMeta, by decide, rfl, hlive⟩
  rw [h.slots firstPushed rfl hread, hbefore] at hafter
  cases hafter

end Wedb
