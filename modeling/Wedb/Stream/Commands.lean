import Wedb.Stream.Log

/-!
# What stream commands do to the log

Each command that succeeds leaves the log it describes: trimmed, appended to,
filtered, or as it was under another last id. A query between two ids returns the
entries between them.
-/

namespace Wedb

variable {s : Store} {kc : KeyComposer} {key : Key} {m : StreamMeta} {xs : EntryLog}
  {now version : UInt64} {id lastId : StreamId} {ops : Batch}

theorem entryOp_rm (kc : KeyComposer) (key : Key) (ids : List StreamId) :
    ∀ o ∈ ids.map fun id => WriteOp.rmWeakData (streamItem kc key id), EntryOp kc key o := by
  intro o ho
  obtain ⟨id, -, rfl⟩ := List.mem_map.mp ho
  exact ⟨id, rfl, rfl⟩

theorem entryOp_rm_take (kc : KeyComposer) (key : Key) (xs : EntryLog) (n : ℕ) :
    ∀ o ∈ (xs.take n).map fun x => WriteOp.rmWeakData (streamItem kc key x.1), EntryOp kc key o := by
  intro o ho
  obtain ⟨x, -, rfl⟩ := List.mem_map.mp ho
  exact ⟨x.1, rfl, rfl⟩

theorem streamTrim_spec (h : StreamHolds s kc key xs lastId) {options : StreamTrim} {n : ℕ}
    (hrun : streamTrim s kc key now options = .ok (n, ops)) :
    StreamHolds (s.apply ops) kc key (xs.drop n) lastId := by
  rw [streamTrim] at hrun
  rcases h.lookup now with ⟨hget, -⟩ | ⟨m, hget, hl, hlog, rfl⟩
  · rw [hget] at hrun
    cases hrun
    exact h
  · obtain ⟨k, m', htrim, hl', hlast, -⟩ := trimStreamInternal_spec hl hlog options
    rw [hget] at hrun
    simp only [bind, Except.bind, htrim] at hrun
    split_ifs at hrun
    · cases hrun
      rw [← hlast]
      exact .commit h.only (entryOp_rm_take kc key xs n) (family_rm_entries hlog n) hl'
    · cases hrun
      exact h

/-! ## Adding -/

theorem cleanStreamResidue_at (s : Store) {slot : Slot} (hslot : slot.Valid) :
    (s.apply (cleanStreamResidue s kc key)).at ⟨kc, key, slot⟩ =
      if slot.ownedBy .streamMeta = true then none else s.at ⟨kc, key, slot⟩ := by
  have hclean : (s.apply (cleanStreamResidue s kc key)).at ⟨kc, key, slot⟩ = _ :=
    at_apply_cleanupCompositeData (b := ⟨kc, key, slot⟩) hslot id
  simpa only [true_and] using hclean

theorem cleanStreamResidue_family (s : Store) {tag : KeyTag} (hframed : tag.isFramed = true)
    (howned : (Partition.data, tag) ∈ cleanupFamilies .streamMeta) :
    (s.apply (cleanStreamResidue s kc key)).family kc key tag = ∅ := by
  refine SortedMap.ext_get fun suffix => ?_
  have hsub : Slot.ownedBy .streamMeta (.sub tag suffix) = true := decide_eq_true howned
  rw [Store.get_family, cleanStreamResidue_at s (show (Slot.sub tag suffix).Valid from hframed),
    if_pos hsub]
  rfl

theorem cleanStreamResidue_spec (h : HoldsOnly s kc key .streamMeta) :
    HoldsOnly (s.apply (cleanStreamResidue s kc key)) kc key .streamMeta ∧
      (s.apply (cleanStreamResidue s kc key)).family kc key .streamData = ∅ := by
  refine ⟨⟨?_, fun u hu hne => ?_⟩, cleanStreamResidue_family s rfl (by decide)⟩
  · rw [cleanStreamResidue_at s (show Slot.str.Valid from trivial)]
    exact h.str
  · rw [cleanStreamResidue_at s (show (Slot.metadata u).Valid from allCompositeMetaTags_isMeta hu)]
    exact h.metadata u hu hne

theorem StreamLayout.added (h : StreamLayout m xs) {payload : Bytes} (hid : id ≤ .max)
    (hlt : m.lastGeneratedId < id) (hlen : xs.length + 1 < 2 ^ 64) :
    StreamLayout (m.added id) (xs ++ [(id, payload)]) := by
  have hsize : (m.base.size + 1).toNat = xs.length + 1 := by
    rw [UInt64.toNat_add, h.size, UInt64.toNat_one, Nat.mod_eq_of_lt hlen]
  have hone : m.base.size + 1 = 1 ↔ xs = [] := by
    rw [← UInt64.toNat_inj, hsize, UInt64.toNat_one, ← List.length_eq_zero_iff]
    omega
  refine ⟨h.rtype, h.expireAt, ?_, ?_, ?_, ?_, hid⟩
  · rw [List.length_append]
    exact hsize
  · intro x hx
    show x.1 = if m.base.size + 1 = 1 then id else m.firstEntryId
    by_cases hnil : xs = []
    · rw [if_pos (hone.mpr hnil)]
      subst hnil
      cases hx
      rfl
    · rw [if_neg fun h1 => hnil (hone.mp h1)]
      rw [List.head?_append_of_ne_nil _ hnil] at hx
      exact h.first x hx
  · intro x hx
    rw [List.getLast?_concat] at hx
    cases hx
    rfl
  · intro x hx
    rcases List.mem_append.mp hx with hx | hx
    · exact (h.bounded x hx).trans hlt.le
    · rw [List.mem_singleton.mp hx]
      exact le_rfl

theorem StreamLayout.skipped (h : StreamLayout m xs) (hid : id ≤ .max)
    (hlt : m.lastGeneratedId < id) : StreamLayout (m.skipped id) xs :=
  ⟨h.rtype, h.expireAt, h.size, h.first, h.last, fun x hx => (h.bounded x hx).trans hlt.le, hid⟩

theorem StreamLayout.entriesAdded (h : StreamLayout m xs) (entriesAdded : UInt64) :
    StreamLayout { m with entriesAdded } xs :=
  ⟨h.rtype, h.expireAt, h.size, h.first, h.last, h.bounded, h.within⟩

theorem streamLayout_new (version : UInt64) : StreamLayout (.new 0 version) [] :=
  ⟨rfl, rfl, rfl, by simp, by simp, by simp, StreamId.min_le _⟩

theorem addTrim_spec (hl : StreamLayout m xs) (hlog : LogIn encodeId xs (s.family kc key .streamData))
    (options : StreamTrim) : ∃ n m',
      (if options.strategy ≠ .none then
        (trimStreamInternal s kc key m (addTrimOptions options)).2 else (m, [])) =
        (m', (xs.take n).map fun x => .rmWeakData (streamItem kc key x.1)) ∧
      StreamLayout m' (xs.drop n) ∧ m'.lastGeneratedId = m.lastGeneratedId ∧
      n ≤ xs.length ∧ (n = 0 → m' = m) := by
  split_ifs
  · obtain ⟨n, m', htrim, hspec⟩ := trimStreamInternal_spec hl hlog (addTrimOptions options)
    exact ⟨n, m', by rw [htrim], hspec⟩
  · exact ⟨0, m, rfl, hl, rfl, Nat.zero_le _, fun _ => rfl⟩

theorem addOps_spec (honly : HoldsOnly s kc key .streamMeta) {n : ℕ}
    (hlog : LogIn encodeId xs (s.family kc key .streamData)) (hl : StreamLayout m (xs.drop n))
    (hid : id ≤ .max) (hlt : m.lastGeneratedId < id) (add : Bool) (payload : Bytes)
    (entriesAdded : UInt64 → UInt64) {m' : StreamMeta} {itemOps : Batch}
    (hitem : itemOps = if add then [WriteOp.insertData (streamItem kc key id) payload] else [])
    (hm : m' = if add then m.added id else m.skipped id)
    (hops : ops = (xs.take n).map (fun x => .rmWeakData (streamItem kc key x.1)) ++ (itemOps ++
      [.insertMeta (streamMetaKey kc key) { m' with entriesAdded := entriesAdded m'.entriesAdded }.encode]))
    (hfits : (s.apply ops).Fits) :
    StreamHolds (s.apply ops) kc key (xs.drop n ++ if add then [(id, payload)] else []) id := by
  have hdrop := family_rm_entries hlog n
  have htake := entryOp_rm_take kc key xs n
  cases add with
  | false =>
    simp only [Bool.false_eq_true, if_false] at hitem hm ⊢
    subst hitem hm hops
    rw [List.nil_append, List.append_nil]
    exact .commit honly htake hdrop ((hl.skipped hid hlt).entriesAdded _)
  | true =>
    simp only [if_true] at hitem hm ⊢
    subst hitem hm
    rw [← List.append_assoc] at hops
    subst hops
    have habove : ∀ x ∈ xs.drop n, x.1 < id := fun x hx => (hl.bounded x hx).trans_lt hlt
    have hlog' : LogIn encodeId (xs.drop n ++ [(id, payload)]) ((s.apply ((xs.take n).map
        (fun x => .rmWeakData (streamItem kc key x.1)) ++
          [.insertData (streamItem kc key id) payload])).family kc key .streamData) := by
      rw [Store.apply_append, Store.apply_cons, Store.apply_nil, streamItem_eq_phys,
        Store.family_insert]
      exact hdrop.append encodeId_strictMono habove
    have hlen : (xs.drop n).length + 1 < 2 ^ 64 := by
      have hlt64 := Store.Fits.length_family_lt kc key .streamData hfits
      rw [Store.apply_append, Store.apply_cons, Store.apply_nil,
        Store.family_applyOp_of_metadata rfl, hlog'.length, List.length_append] at hlt64
      exact hlt64
    refine .commit honly ?_ hlog' ((hl.added hid hlt hlen).entriesAdded _)
    intro o ho
    rcases List.mem_append.mp ho with ho | ho
    · exact htake o ho
    · rw [List.mem_singleton.mp ho]
      exact ⟨id, rfl, rfl⟩

theorem metadata_get_queued (s : Store) (a b : Batch) (k v : Bytes) :
    (s.apply (a ++ (b ++ [.insertMeta k v]))).metadata.get k = some v := by
  simp only [Store.apply_append, Store.apply_cons, Store.apply_nil]
  exact SortedMap.get_insert_self _ _ _

/-- The counters an addition leaves, if it drops no entry. -/
def CountsAddition (m m' : StreamMeta) : Prop :=
  m'.entriesAdded = m.entriesAdded + 1 ∧ m'.maxDeletedEntryId = m.maxDeletedEntryId

/-- An addition returns an id above the last one and appends its entry, if the
options keep it, to what they leave of the log. -/
theorem streamAdd_spec (h : StreamHolds s kc key xs lastId) {options : StreamAdd}
    {fields : List (Bytes × Bytes)} (hwithin : options.nextIdStrategy.Within now)
    (hrun : streamAdd s kc key now version options fields = .ok (id, ops))
    (hfits : (s.apply ops).Fits) :
    lastId < id ∧ ∃ n, n ≤ xs.length ∧ StreamHolds (s.apply ops) kc key (xs.drop n ++
      if decide (options.trimOptions.strategy = .none) || shouldAdd options.trimOptions id then
        [(id, encodeStreamEntryPairs fields)] else []) id ∧
      ∃ found m', getStreamMeta s kc key now = .ok found ∧
        (s.apply ops).metadata.get (streamMetaKey kc key) = some m'.encode ∧
        (n = 0 → (decide (options.trimOptions.strategy = .none) ||
          shouldAdd options.trimOptions id) = true → CountsAddition (found.getD (.new 0 version)) m') := by
  rw [streamAdd] at hrun
  rcases h.lookup now with ⟨hget, -, -, rfl, rfl⟩ | ⟨m, hget, hl, hlog, rfl⟩
  · rw [hget] at hrun
    simp only [bind, Except.bind, Option.isNone_none, Bool.true_and, Option.getD_none, if_true] at hrun
    obtain ⟨honly, hclean⟩ := cleanStreamResidue_spec h.only
    have hlog : LogIn encodeId ([] : EntryLog)
        ((s.apply (cleanStreamResidue s kc key)).family kc key .streamData) := by
      rw [hclean]
      exact .nil encodeId
    have htrim : (if options.trimOptions.strategy ≠ .none then
        (trimStreamInternal s kc key (.new 0 version) (addTrimOptions options.trimOptions)).2
        else (.new 0 version, [])) = (.new 0 version, []) := by
      split_ifs
      · have hzero : (StreamMeta.new 0 version).base.size = 0 := rfl
        rw [trimStreamInternal, if_pos hzero]
      · rfl
    have hmk : ¬options.nomkstream = true := by
      intro hmk
      rw [if_pos hmk] at hrun
      cases hrun
    rw [if_neg hmk] at hrun
    cases hgen : options.nextIdStrategy.generateId (StreamMeta.new 0 version).lastGeneratedId now with
    | error err =>
      rw [hgen] at hrun
      cases hrun
    | ok id' =>
      obtain ⟨hid, hlt⟩ := NextStreamEntryIdStrategy.generateId_spec (StreamId.min_le _) hwithin hgen
      rw [hgen] at hrun
      simp only [htrim] at hrun
      cases hrun
      rw [Store.apply_append] at hfits ⊢
      refine ⟨hlt, 0, Nat.zero_le _, addOps_spec (n := 0) honly hlog (streamLayout_new version) hid hlt _ _
        (· + 1) rfl rfl rfl hfits, none, _, hget, metadata_get_queued _ _ _ _ _, fun _ hadd => ?_⟩
      rw [hadd]
      exact ⟨rfl, rfl⟩
  · rw [hget] at hrun
    simp only [bind, Except.bind, Option.isNone_some, Bool.false_and, Bool.false_eq_true, if_false,
      Option.getD_some] at hrun
    obtain ⟨n, m', htrim, hl', hlast, hle, hsame⟩ := addTrim_spec hl hlog options.trimOptions
    cases hgen : options.nextIdStrategy.generateId m.lastGeneratedId now with
    | error err =>
      rw [hgen] at hrun
      cases hrun
    | ok id' =>
      obtain ⟨hid, hlt⟩ := NextStreamEntryIdStrategy.generateId_spec hl.within hwithin hgen
      rw [hgen] at hrun
      simp only [htrim] at hrun
      cases hrun
      refine ⟨hlt, n, hle, addOps_spec h.only hlog hl' hid (hlast ▸ hlt) _ _ (· + 1) rfl rfl rfl hfits,
        some m, _, hget, metadata_get_queued _ _ _ _ _, fun hzero hadd => ?_⟩
      rw [hadd, hsame hzero]
      exact ⟨rfl, rfl⟩

/-! ## Deleting -/

theorem streamItem_contains (hlog : LogIn encodeId xs (s.family kc key .streamData)) (id : StreamId) :
    s.data.contains (streamItem kc key id) = true ↔ id ∈ xs.map Prod.fst := by
  have hget : (s.family kc key .streamData).get (encodeId id) = s.data.get (streamItem kc key id) := by
    rw [Store.get_family, streamItem_eq_phys]
    rfl
  rw [← hlog.contains_iff encodeId_strictMono, SortedMap.contains, SortedMap.contains, hget]

theorem storedIds_spec (hlog : LogIn encodeId xs (s.family kc key .streamData))
    (ids seen : List StreamId) : (storedIds s kc key ids seen).Nodup ∧
      ∀ id, id ∈ storedIds s kc key ids seen ↔ id ∈ ids ∧ id ∉ seen ∧ id ∈ xs.map Prod.fst := by
  induction ids generalizing seen with
  | nil => exact ⟨List.nodup_nil, by simp [storedIds]⟩
  | cons a ids ih =>
    rw [storedIds]
    by_cases hseen : a ∈ seen
    · rw [if_pos hseen]
      refine ⟨(ih seen).1, fun id => ?_⟩
      rw [(ih seen).2, List.mem_cons]
      refine ⟨fun h => ⟨Or.inr h.1, h.2⟩, fun h => ⟨h.1.resolve_left ?_, h.2⟩⟩
      rintro rfl
      exact h.2.1 hseen
    · rw [if_neg hseen]
      obtain ⟨hnodup, hmem⟩ := ih (a :: seen)
      by_cases hstored : s.data.contains (streamItem kc key a) = true
      · rw [if_pos hstored]
        rw [streamItem_contains hlog] at hstored
        refine ⟨List.nodup_cons.mpr ⟨fun h => ((hmem a).mp h).2.1 (by simp), hnodup⟩, fun id => ?_⟩
        rw [List.mem_cons, hmem, List.mem_cons, List.mem_cons, not_or]
        by_cases ha : id = a
        · subst ha
          simp [hseen, hstored]
        · simp [ha]
      · rw [if_neg hstored]
        rw [streamItem_contains hlog] at hstored
        refine ⟨hnodup, fun id => ?_⟩
        rw [hmem, List.mem_cons, List.mem_cons, not_or]
        by_cases ha : id = a
        · subst ha
          simp [hstored]
        · simp [ha]

def EntryLog.without (xs : EntryLog) (ids : List StreamId) : EntryLog :=
  xs.filter fun x => decide (x.1 ∉ ids)

theorem without_nil (xs : EntryLog) : xs.without [] = xs :=
  List.filter_eq_self.mpr fun x _ => by simp

theorem without_congr {ids ids' : List StreamId} (h : ∀ x ∈ xs, x.1 ∈ ids ↔ x.1 ∈ ids') :
    xs.without ids = xs.without ids' :=
  List.filter_congr fun x hx => decide_eq_decide.mpr (not_congr (h x hx))

theorem without_cons (xs : EntryLog) (id : StreamId) (ids : List StreamId) :
    EntryLog.without (xs.filter fun x => decide (x.1 ≠ id)) ids = xs.without (id :: ids) := by
  rw [EntryLog.without, EntryLog.without, List.filter_filter]
  refine List.filter_congr fun x _ => ?_
  by_cases hx : x.1 = id <;> simp [hx]

theorem family_rm_ids (hlog : LogIn encodeId xs (s.family kc key .streamData)) (ids : List StreamId) :
    LogIn encodeId (xs.without ids) ((s.apply (ids.map fun id =>
      .rmWeakData (streamItem kc key id))).family kc key .streamData) := by
  induction ids generalizing s xs with
  | nil =>
    rw [without_nil]
    exact hlog
  | cons id ids ih =>
    rw [← without_cons]
    refine ih (s := s.applyOp (.rmWeakData (streamItem kc key id))) ?_
    rw [streamItem_eq_phys, Store.family_rmWeak]
    exact hlog.erase encodeId_strictMono id

theorem length_without (hs : xs.Pairwise fun x y => x.1 < y.1) {hit : List StreamId}
    (hnodup : hit.Nodup) (hsub : ∀ id ∈ hit, id ∈ xs.map Prod.fst) :
    (xs.without hit).length + hit.length = xs.length := by
  have hids : (xs.map Prod.fst).Nodup := by
    rw [List.Nodup, List.pairwise_map]
    exact hs.imp fun hlt => hlt.ne
  have hperm : ((xs.map Prod.fst).filter fun id => decide (id ∈ hit)).Perm hit := by
    rw [List.perm_ext_iff_of_nodup (hids.filter _) hnodup]
    intro id
    rw [List.mem_filter, decide_eq_true_eq]
    exact ⟨fun h => h.2, fun h => ⟨hsub id h, h⟩⟩
  have hlen := hperm.length_eq
  rw [List.filter_map, List.length_map] at hlen
  have hsplit := List.length_eq_length_filter_add (l := xs) fun x => decide (x.1 ∈ hit)
  rw [EntryLog.without, hsplit, ← hlen, Nat.add_comm]
  congr 2
  refine List.filter_congr fun x _ => ?_
  simp

theorem findStreamBoundaryId_eq (kc : KeyComposer) (key : Key) (xs : EntryLog) (ids : List StreamId) :
    findStreamBoundaryId (xs.map fun x => (streamItem kc key x.1, x.1)) ids =
      (xs.without ids).head?.map Prod.fst := by
  rw [findStreamBoundaryId, EntryLog.without, List.head?_filter, List.find?_map, Option.map_map,
    Function.comp_def, Function.comp_def]

theorem head?_without_of_not_mem {x : StreamId × Bytes} {ids : List StreamId}
    (hx : xs.head? = some x) (hnot : x.1 ∉ ids) : (xs.without ids).head? = some x := by
  cases xs with
  | nil => cases hx
  | cons y ys =>
    cases hx
    rw [EntryLog.without, List.filter_cons_of_pos (by simpa using hnot)]
    rfl

theorem without_reverse (xs : EntryLog) (ids : List StreamId) :
    EntryLog.without xs.reverse ids = (xs.without ids).reverse := List.filter_reverse

theorem boundary_without (ids : List StreamId) {bound : StreamId}
    (hbound : ∀ x ∈ xs.head?, x.1 = bound) : ∀ x ∈ (xs.without ids).head?,
      x.1 = (if bound ∈ ids then (xs.without ids).head?.map Prod.fst else none).getD bound := by
  intro x hx
  by_cases hmem : bound ∈ ids
  · rw [if_pos hmem, hx]
    rfl
  · rw [if_neg hmem, Option.getD_none]
    cases hhead : xs.head? with
    | none =>
      rw [List.head?_eq_none_iff] at hhead
      subst hhead
      cases hx
    | some y =>
      have hy := hbound y hhead
      rw [head?_without_of_not_mem hhead (hy ▸ hmem)] at hx
      cases hx
      exact hy

theorem StreamLayout.deleted (h : StreamLayout m xs) (hs : xs.Pairwise fun x y => x.1 < y.1)
    {ids hit : List StreamId} (hnodup : hit.Nodup)
    (hhit : ∀ id, id ∈ hit ↔ id ∈ ids ∧ id ∈ xs.map Prod.fst) :
    StreamLayout (m.deleted (xs.map fun x => (streamItem kc key x.1, x.1)) ids hit)
        (xs.without hit) ∧
      (m.deleted (xs.map fun x => (streamItem kc key x.1, x.1)) ids hit).lastGeneratedId =
        m.lastGeneratedId := by
  have hlen := length_without hs hnodup fun id hid => ((hhit id).mp hid).2
  have hlt : xs.length < 2 ^ 64 := h.size ▸ m.base.size.toNat_lt
  have hsize : (m.base.size.satSub (UInt64.ofNat hit.length)).toNat = (xs.without hit).length := by
    rw [UInt64.toNat_satSub, h.size, UInt64.toNat_ofNat_of_lt' (show hit.length < 2 ^ 64 by omega)]
    omega
  have hids : xs.without hit = xs.without ids := without_congr fun x hx => by
    rw [hhit]
    exact and_iff_left (List.mem_map_of_mem hx)
  have hbounded : ∀ x ∈ xs.without hit, x.1 ≤ m.lastGeneratedId := fun x hx =>
    h.bounded x (List.mem_of_mem_filter hx)
  rw [StreamMeta.deleted, ← List.map_reverse, findStreamBoundaryId_eq, findStreamBoundaryId_eq,
    without_reverse, ← hids]
  generalize m.base.size.satSub (UInt64.ofNat hit.length) = size at hsize
  dsimp only
  by_cases hzero : size = 0
  · rw [if_pos hzero]
    have hnil : xs.without hit = [] := by
      rw [hzero] at hsize
      exact List.length_eq_zero_iff.mp hsize.symm
    rw [hnil] at hsize ⊢
    exact ⟨⟨h.rtype, h.expireAt, hsize, by simp, by simp, by simp, h.within⟩, rfl⟩
  · rw [if_neg hzero]
    refine ⟨⟨h.rtype, h.expireAt, hsize, ?_, ?_, hbounded, h.within⟩, rfl⟩
    · have hfirst := boundary_without ids h.first
      rw [← hids] at hfirst
      exact hfirst
    · have hend : ∀ x ∈ xs.reverse.head?, x.1 = m.lastEntryId := by
        rw [List.head?_reverse]
        exact h.last
      have hlast := boundary_without ids hend
      rw [without_reverse, ← hids] at hlast
      simp only [List.head?_reverse] at hlast ⊢
      exact hlast

theorem streamDel_spec (h : StreamHolds s kc key xs lastId) {ids : List StreamId} {n : ℕ}
    (hrun : streamDel s kc key now ids = .ok (n, ops)) :
    StreamHolds (s.apply ops) kc key (xs.without ids) lastId := by
  have hkeep : (∀ x ∈ xs, x.1 ∉ ids) → StreamHolds s kc key (xs.without ids) lastId := by
    intro hnone
    have hnil : xs.without ids = xs.without [] :=
      without_congr fun x hx => iff_of_false (hnone x hx) (by simp)
    rw [hnil, without_nil]
    exact h
  rw [streamDel] at hrun
  by_cases hempty : ids.isEmpty = true
  · rw [if_pos hempty] at hrun
    cases hrun
    rw [List.isEmpty_iff] at hempty
    exact hkeep fun x _ => by simp [hempty]
  · rw [if_neg hempty] at hrun
    rcases h.lookup now with ⟨hget, -, -, rfl, -⟩ | ⟨m, hget, hl, hlog, rfl⟩
    · rw [hget] at hrun
      cases hrun
      exact h
    · rw [hget] at hrun
      simp only [bind, Except.bind] at hrun
      obtain ⟨hnodup, hmem⟩ := storedIds_spec hlog ids []
      have hhit : ∀ id, id ∈ storedIds s kc key ids [] ↔ id ∈ ids ∧ id ∈ xs.map Prod.fst := fun id => by
        rw [hmem]
        simp
      have hids : xs.without (storedIds s kc key ids []) = xs.without ids := without_congr fun x hx => by
        rw [hhit]
        exact and_iff_left (List.mem_map_of_mem hx)
      split_ifs at hrun with hzero hpos
      · cases hrun
        rw [hl.size_eq_zero] at hzero
        exact hkeep fun x hx => by simp [hzero] at hx
      · cases hrun
        rw [streamSubkeys_eq hlog]
        obtain ⟨hl', hlast⟩ := hl.deleted (hlog.sorted encodeId_strictMono)
          hnodup hhit
        rw [← hlast, ← hids]
        exact .commit h.only (entryOp_rm kc key _) (family_rm_ids hlog _) hl'
      · cases hrun
        rw [Nat.not_lt, Nat.le_zero, List.length_eq_zero_iff] at hpos
        rw [← hids, hpos, without_nil]
        exact h

/-! ## Setting the last id -/

theorem StreamLayout.setid (h : StreamLayout m xs) (hid : id ≤ .max)
    (hge : xs ≠ [] → m.lastGeneratedId ≤ id) (entriesAdded : UInt64) (maxDeletedEntryId : StreamId) :
    StreamLayout { m with lastGeneratedId := id, entriesAdded, maxDeletedEntryId } xs := by
  refine ⟨h.rtype, h.expireAt, h.size, h.first, h.last, fun x hx => ?_, hid⟩
  exact (h.bounded x hx).trans (hge (List.ne_nil_of_mem hx))

/-- Setting the last id keeps the log; below the last id only where it is empty. -/
theorem streamSetid_spec (h : StreamHolds s kc key xs lastId) (hid : id ≤ .max)
    {entriesAdded : Option UInt64} {maxDeletedId : Option StreamId} {u : Unit}
    (hrun : streamSetid s kc key now version id entriesAdded maxDeletedId = .ok (u, ops)) :
    StreamHolds (s.apply ops) kc key xs id ∧ (xs ≠ [] → lastId ≤ id) := by
  rw [streamSetid] at hrun
  split_ifs at hrun
  rcases h.lookup now with ⟨hget, -, hfam, rfl, rfl⟩ | ⟨m, hget, hl, hlog, rfl⟩
  · rw [hget] at hrun
    simp only [bind, Except.bind, Option.getD_none] at hrun
    have hlog : LogIn encodeId ([] : EntryLog) ((s.apply []).family kc key .streamData) := by
      rw [Store.apply_nil, hfam]
      exact .nil encodeId
    split_ifs at hrun
    cases hrun
    exact ⟨.commit h.only (List.forall_mem_nil _) hlog ((streamLayout_new version).setid hid
      (fun hne => absurd rfl hne) _ _), fun hne => absurd rfl hne⟩
  · rw [hget] at hrun
    simp only [bind, Except.bind, Option.getD_some] at hrun
    split_ifs at hrun with _ _ hsmall
    cases hrun
    have hge : xs ≠ [] → m.lastGeneratedId ≤ id := by
      intro hne
      by_contra hlt
      refine hsmall ⟨?_, not_le.mp hlt⟩
      rw [gt_iff_lt, UInt64.lt_iff_toNat_lt, hl.size]
      exact List.length_pos_of_ne_nil hne
    exact ⟨.commit h.only (List.forall_mem_nil _) hlog (hl.setid hid hge _ _), hge⟩

end Wedb
