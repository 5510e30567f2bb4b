import Wedb.Cuckoo.Chain

/-!
# Stored cuckoo filters

A command opens a cache on the committed pages and its writes are committed
together. Committed pages read as they did through the cache that wrote them, so
the stored filter holds the hashes of the items the command left in its pages.
-/

namespace Wedb

open CuckooFilterHelper

def Store.cuckooCache (s : Store) (kc : KeyComposer) (key : Key) (m : CuckooChainMeta) :
    CuckooPageCache :=
  .new s.data kc key m.bucketSize m.pageSize

/-- The filter stored under a key holds the items. -/
inductive CuckooRep (hash : Bytes → UInt64) (s : Store) (kc : KeyComposer) (key : Key) :
    Multiset Bytes → Prop
  | absent : s.metadata.get (cuckooMetaKey kc key) = none →
      (∀ f p, s.data.get (cuckooPage kc key f p) = none) → CuckooRep hash s kc key 0
  | present {m : CuckooChainMeta} {A : Multiset (UInt16 × UInt64)} {L : Multiset Bytes} :
      s.metadata.get (cuckooMetaKey kc key) = some m.encode →
      CuckooChain (s.cuckooCache kc key m) m → Placed (s.cuckooCache kc key m) m ∅ A →
      A.map Prod.snd = L.map hash → CuckooRep hash s kc key L

variable {hash : Bytes → UInt64} {s : Store} {kc : KeyComposer} {key : Key} {now : UInt64}
  {m m' : CuckooChainMeta} {pages : CuckooPages} {A : Multiset (UInt16 × UInt64)}
  {L : Multiset Bytes}

theorem cuckooPage_eq_phys (kc : KeyComposer) (key : Key) (f : UInt16) (p : UInt32) :
    cuckooPage kc key f p = Addr.phys ⟨kc, key, .sub .cuckooData (f.toBeBytes ++ p.toBeBytes)⟩ := by
  rw [cuckooPage, KeyComposer.composeSubkey2Stack_eq, Addr.phys_sub]

theorem cuckooPage_inj {f g : UInt16} {p q : UInt32}
    (h : cuckooPage kc key f p = cuckooPage kc key g q) : (f, p) = (g, q) := by
  rw [cuckooPage, cuckooPage, KeyComposer.composeSubkey2Stack_eq,
    KeyComposer.composeSubkey2Stack_eq] at h
  obtain ⟨hf, hp⟩ := List.append_inj (List.append_cancel_left h) (by simp)
  rw [UInt16.toBeBytes_injective hf, UInt32.toBeBytes_injective hp]

/-! ## Committing pages -/

theorem get_apply_pages (s : Store) (kc : KeyComposer) (key : Key) (f : UInt16) (p : UInt32)
    {entries : List (Sigma fun _ : UInt16 × UInt32 => CuckooPageData)} (hnd : entries.NodupKeys) :
    (s.apply (entries.filterMap fun x => CuckooPageCache.dirtyOp kc key x.1 x.2)).data.get
        (cuckooPage kc key f p) =
      match List.dlookup (f, p) entries with
      | some (.dirty vec) => some vec
      | _ => s.data.get (cuckooPage kc key f p) := by
  induction entries generalizing s with
  | nil => rfl
  | cons x entries ih =>
    obtain ⟨k, entry⟩ := x
    obtain ⟨hk, hnd'⟩ := List.nodupKeys_cons.mp hnd
    by_cases hkf : k = (f, p)
    · subst hkf
      have hnone : List.dlookup (f, p) entries = none := List.dlookup_eq_none.mpr hk
      rw [List.dlookup_cons_eq]
      cases entry with
      | dirty vec =>
        simp only [List.filterMap_cons, CuckooPageCache.dirtyOp_dirty, Store.apply_cons]
        rw [ih _ hnd', hnone]
        exact SortedMap.get_insert_self _ _ _
      | clean v | empty v =>
        simp only [List.filterMap_cons, CuckooPageCache.dirtyOp_clean,
          CuckooPageCache.dirtyOp_empty]
        rw [ih _ hnd', hnone]
    · rw [List.dlookup_cons_ne _ _ (Ne.symm hkf)]
      cases entry with
      | dirty vec =>
        simp only [List.filterMap_cons, CuckooPageCache.dirtyOp_dirty, Store.apply_cons]
        rw [ih _ hnd']
        have hget : (s.applyOp (.insertData (cuckooPage kc key k.1 k.2) vec)).data.get
            (cuckooPage kc key f p) = s.data.get (cuckooPage kc key f p) :=
          SortedMap.get_insert_of_ne _ _ fun h => hkf (cuckooPage_inj h)
        rw [hget]
      | clean v | empty v =>
        simp only [List.filterMap_cons, CuckooPageCache.dirtyOp_clean,
          CuckooPageCache.dirtyOp_empty]
        rw [ih _ hnd']

def cuckooBatch (kc : KeyComposer) (key : Key) (m : CuckooChainMeta) (pages : CuckooPages) : Batch :=
  .insertMeta (cuckooMetaKey kc key) m.encode ::
    pages.entries.filterMap fun x => CuckooPageCache.dirtyOp kc key x.1 x.2

theorem mem_dirtyOps {o : WriteOp}
    (ho : o ∈ pages.entries.filterMap fun x => CuckooPageCache.dirtyOp kc key x.1 x.2) :
    ∃ f p vec, o = .insertData (cuckooPage kc key f p) vec := by
  obtain ⟨⟨k, entry⟩, -, hx⟩ := List.mem_filterMap.mp ho
  cases entry with
  | dirty vec =>
    cases hx
    exact ⟨_, _, _, rfl⟩
  | clean w | empty w => cases hx

theorem mem_cuckooBatch {o : WriteOp} (ho : o ∈ cuckooBatch kc key m pages) :
    ∃ slot : Slot, slot.Valid ∧ slot.partition = o.partition ∧
      Addr.phys ⟨kc, key, slot⟩ = o.key ∧ slot ≠ .str ∧
        ∀ u, slot = .metadata u → u = .cuckooMeta := by
  rcases List.mem_cons.mp ho with rfl | ho
  · exact ⟨.metadata .cuckooMeta, rfl, rfl, rfl, by simp, fun u hu => by cases hu; rfl⟩
  · obtain ⟨f, p, vec, rfl⟩ := mem_dirtyOps ho
    exact ⟨.sub .cuckooData (f.toBeBytes ++ p.toBeBytes), rfl, rfl,
      (cuckooPage_eq_phys kc key _ _).symm, by simp, fun u hu => by cases hu⟩

theorem metadata_apply_cuckooBatch (s : Store) (kc : KeyComposer) (key : Key) (m : CuckooChainMeta)
    (pages : CuckooPages) :
    (s.apply (cuckooBatch kc key m pages)).metadata.get (cuckooMetaKey kc key) = some m.encode := by
  rw [cuckooBatch, Store.apply_cons, Store.apply_metadata_of_forall_data fun o ho => by
    obtain ⟨f, p, vec, rfl⟩ := mem_dirtyOps ho; rfl]
  exact SortedMap.get_insert_self _ _ _

theorem data_apply_cuckooBatch (s : Store) (kc : KeyComposer) (key : Key) (m : CuckooChainMeta)
    (pages : CuckooPages) (f : UInt16) (p : UInt32) :
    (s.apply (cuckooBatch kc key m pages)).data.get (cuckooPage kc key f p) =
      match pages.lookup (f, p) with
      | some (.dirty vec) => some vec
      | _ => s.data.get (cuckooPage kc key f p) :=
  get_apply_pages (s.applyOp (.insertMeta (cuckooMetaKey kc key) m.encode)) kc key f p pages.nodupKeys

section
variable {nbs : UInt16 → Except Error UInt32} {c : CuckooPageCache}

def CuckooPageCache.reopen (c : CuckooPageCache) (s : Store) : CuckooPageCache :=
  { c with data := s.data }

/-- Committed pages read as they did through the cache that wrote them. -/
theorem table_reopen (hs : c.Sound nbs pages) (hdata : c.data = s.data) :
    (c.reopen (s.apply (cuckooBatch c.kc c.key m pages))).table ∅ = c.table pages := by
  have hbyte : ∀ f p o, (c.reopen (s.apply (cuckooBatch c.kc c.key m pages))).byte ∅ f p o =
      c.byte pages f p o := by
    intro f p o
    have hget := data_apply_cuckooBatch s c.kc c.key m pages f p
    simp only [CuckooPageCache.byte, AList.lookup_empty, CuckooPageCache.reopen]
    rw [hget, ← hdata]
    cases hl : pages.lookup (f, p) with
    | none => rfl
    | some entry =>
      cases entry with
      | dirty vec => rfl
      | clean w =>
        simp only [hs.clean f p w hl]
        rfl
      | empty n =>
        simp only [hs.absent f p n hl]
        rfl
  funext f b i
  unfold CuckooPageCache.table
  rw [hbyte]
  rfl

theorem storedSized_reopen (hst : c.StoredSized nbs) (hs : c.Sound nbs pages)
    (hdata : c.data = s.data) :
    (c.reopen (s.apply (cuckooBatch c.kc c.key m pages))).StoredSized nbs := by
  intro f nb p v hnb hget
  have hnew := data_apply_cuckooBatch s c.kc c.key m pages f p
  rw [← hdata] at hnew
  simp only [CuckooPageCache.reopen] at hget
  rw [hnew] at hget
  cases hl : pages.lookup (f, p) with
  | none =>
    simp only [hl] at hget
    exact hst f nb p v hnb hget
  | some entry =>
    cases entry with
    | dirty vec =>
      simp only [hl, Option.some.injEq] at hget
      rw [← hget]
      exact hs.sized f nb p _ hnb hl
    | clean w | empty w =>
      simp only [hl] at hget
      exact hst f nb p v hnb hget

theorem cuckooRep_apply (hdata : c.data = s.data) (hkc : c.kc = kc) (hkey : c.key = key)
    (hch : CuckooChain c m) (hp : Placed c m pages A) (hA : A.map Prod.snd = L.map hash) :
    CuckooRep hash (s.apply (cuckooBatch kc key m pages)) kc key L := by
  subst hkc hkey
  have hcache : (s.apply (cuckooBatch c.kc c.key m pages)).cuckooCache c.kc c.key m =
      c.reopen (s.apply (cuckooBatch c.kc c.key m pages)) := by
    rw [CuckooPageCache.reopen]
    conv_rhs => rw [hch.cache]
    rfl
  have htable := table_reopen (m := m) hp.sound hdata
  refine .present (metadata_apply_cuckooBatch s c.kc c.key m pages) ?_ ?_ hA
  · rw [hcache]
    refine ⟨hch.rtype, hch.expireAt, ?_, ⟨hch.valid.bucketSize, hch.valid.bucketsPerPage⟩,
      storedSized_reopen hch.stored hp.sound hdata, hch.pos, hch.ok⟩
    rw [CuckooPageCache.reopen]
    conv_lhs => rw [hch.cache]
    rfl
  · rw [hcache]
    refine ⟨CuckooPageCache.sound_empty _ _, ?_, hp.within, hp.size, ?_⟩
    · rw [htable]
      exact hp.held
    · rw [htable]
      exact hp.fresh

end

/-! ## A new filter -/

theorem table_of_absent {c : CuckooPageCache}
    (h : ∀ f p, c.data.get (cuckooPage c.kc c.key f p) = none) (f : UInt16) (b : UInt32) (i : ℕ) :
    c.table ∅ f b i = 0 := by
  simp [CuckooPageCache.table, CuckooPageCache.byte, h]

theorem checkCuckooShape_eq_ok {capacity : UInt64} {bucketSize : UInt8}
    {maxIterations expansion : UInt16} {pageSize : UInt32}
    (h : checkCuckooShape capacity bucketSize maxIterations expansion pageSize = .ok ()) :
    bucketSize ≠ 0 ∧ ∃ nb, calculateRequiredBuckets capacity bucketSize = .ok nb := by
  unfold checkCuckooShape at h
  split_ifs at h with _ _ hbs
  cases hcalc : calculateRequiredBuckets capacity bucketSize with
  | error err => rw [hcalc] at h; cases h
  | ok nb => exact ⟨hbs, nb, rfl⟩

theorem subFilterCapacity_new (capacity version : UInt64) (bucketSize : UInt8)
    (maxIterations e : UInt16) (pageSize : UInt32) :
    (CuckooChainMeta.new capacity bucketSize maxIterations e pageSize version 0).subFilterCapacity
      0 = some capacity := by
  rw [CuckooChainMeta.subFilterCapacity, if_pos rfl, if_pos (Or.inr rfl), ite_self]
  rfl

theorem CuckooPageCache.bucketsPerPage_pos (data : SortedMap Bytes Bytes) (kc : KeyComposer)
    (key : Key) (bucketSize : UInt8) (pageSize : UInt32) :
    0 < (CuckooPageCache.new data kc key bucketSize pageSize).bucketsPerPage.toNat := by
  simp only [CuckooPageCache.new]
  split_ifs with hlt
  · decide
  · rw [UInt32.lt_iff_toNat_lt] at hlt
    exact not_lt.mp hlt

theorem placed_new {c : CuckooPageCache} {capacity version : UInt64} {bucketSize : UInt8}
    {maxIterations expansion : UInt16} {pageSize : UInt32}
    (hcheck : checkCuckooShape capacity bucketSize maxIterations expansion pageSize = .ok ())
    (e : UInt16) (hm : m = .new capacity bucketSize maxIterations e pageSize version 0)
    (hc : c = .new c.data c.kc c.key m.bucketSize m.pageSize)
    (habsent : ∀ f p, c.data.get (cuckooPage c.kc c.key f p) = none) :
    CuckooChain c m ∧ Placed c m ∅ 0 := by
  obtain ⟨hbs, nb, hnb⟩ := checkCuckooShape_eq_ok hcheck
  have hbucket : c.bucketSize = bucketSize := by
    rw [hc, hm]
    rfl
  have hone : m.nFilters = 1 := by rw [hm]; rfl
  have hbase : m.subFilterNumBuckets 0 = .ok nb := by
    subst hm
    rw [CuckooChainMeta.subFilterNumBuckets, subFilterCapacity_new]
    exact hnb
  have hok : ∀ f, f < m.nFilters → ∃ nb, m.subFilterNumBuckets f = .ok nb := by
    intro f hf
    rw [hone, UInt16.lt_iff_toNat_lt] at hf
    have hf0 : f = 0 := UInt16.toNat_inj.mp (Nat.lt_one_iff.mp hf)
    exact ⟨nb, hf0 ▸ hbase⟩
  refine ⟨⟨by rw [hm]; rfl, by rw [hm]; rfl, hc, ⟨?_, ?_⟩, ?_, by rw [hone]; decide, hok⟩,
    ⟨CuckooPageCache.sound_empty _ _, ?_, ?_, by rw [hm]; rfl, ?_⟩⟩
  · rw [hbucket]
    exact Nat.pos_of_ne_zero fun h0 => hbs (UInt8.toNat_inj.mp h0)
  · rw [hc]
    exact CuckooPageCache.bucketsPerPage_pos _ _ _ _ _
  · intro f nb' p v _ hget
    rw [habsent] at hget
    cases hget
  · intro f _ Q hQ
    simp [Buckets.count, table_of_absent habsent, hQ.zero]
  · intro a ha
    cases ha
  · intro f _ b s
    exact table_of_absent habsent f b s

/-! ## Commands on a stored filter -/

/-- The key holds a filter of the items, or nothing. -/
structure CuckooHolds (hash : Bytes → UInt64) (s : Store) (kc : KeyComposer) (key : Key)
    (L : Multiset Bytes) : Prop where
  only : HoldsOnly s kc key .cuckooMeta
  rep : CuckooRep hash s kc key L

theorem CuckooHolds.apply (h : CuckooHolds hash s kc key L) {c : CuckooPageCache}
    (hdata : c.data = s.data) (hkc : c.kc = kc) (hkey : c.key = key) (hch : CuckooChain c m)
    (hp : Placed c m pages A) {L' : Multiset Bytes} (hA : A.map Prod.snd = L'.map hash) :
    CuckooHolds hash (s.apply (cuckooBatch kc key m pages)) kc key L' :=
  ⟨h.only.apply fun _ ho => mem_cuckooBatch ho, cuckooRep_apply hdata hkc hkey hch hp hA⟩

theorem CuckooHolds.getCfMetaChecked (h : CuckooHolds hash s kc key L) (now : UInt64) :
    (Wedb.getCfMetaChecked s kc key now = .ok none ∧ L = 0 ∧
      ∀ f p, s.data.get (cuckooPage kc key f p) = none) ∨
    ∃ m A, Wedb.getCfMetaChecked s kc key now = .ok (some m) ∧
      s.metadata.get (cuckooMetaKey kc key) = some m.encode ∧
      CuckooChain (s.cuckooCache kc key m) m ∧ Placed (s.cuckooCache kc key m) m ∅ A ∧
      A.map Prod.snd = L.map hash := by
  obtain ⟨honly, hrep⟩ := h
  cases hrep with
  | absent hnone hpages => exact Or.inl ⟨honly.getMetaChecked_absent hnone now, rfl, hpages⟩
  | present hget hch hp hA =>
    refine Or.inr ⟨_, _, honly.getMetaChecked_present hget (CuckooChainMeta.decode_encode _) ?_,
      hget, hch, hp, hA⟩
    show KeyMeta.isExpired _ now = false
    rw [KeyMeta.isExpired, KeyMeta.isEmptyableType, hch.rtype, hch.expireAt]
    rfl

theorem cfReserve_holds (h : CuckooHolds hash s kc key L) {version capacity : UInt64}
    {options : List CfReserve} {u : Unit} {ops : Batch}
    (hrun : cfReserve s kc key now version capacity options = .ok (u, ops)) :
    CuckooHolds hash (s.apply ops) kc key L := by
  unfold cfReserve rawCfReserve at hrun
  dsimp only at hrun
  generalize options.foldl CfReserveOpts.apply {} = opt at hrun
  simp only [bind, Except.bind] at hrun
  cases hcheck : checkCuckooShape capacity opt.bucketSize opt.maxIterations opt.expansion
      (opt.pageSize.getD defaultPageSize) with
  | error err => simp [hcheck] at hrun
  | ok v =>
    simp only [hcheck] at hrun
    rcases h.getCfMetaChecked now with ⟨hget, rfl, hpages⟩ | ⟨m, A, hget, -⟩
    · simp only [hget] at hrun
      cases hrun
      obtain ⟨hch, hp⟩ := placed_new (c := s.cuckooCache kc key (.new capacity opt.bucketSize
        opt.maxIterations (normalizeExpansion opt.expansion) (opt.pageSize.getD defaultPageSize)
        version 0)) hcheck _ rfl rfl hpages
      exact h.apply rfl rfl rfl hch hp rfl
    · simp only [hget] at hrun
      cases hrun

theorem cfMetaForInsert_spec (h : CuckooHolds hash s kc key L) {version : UInt64}
    {opt : CuckooFilterInsert} (hrun : cfMetaForInsert s kc key now version opt = .ok m) :
    CuckooChain (s.cuckooCache kc key m) m ∧
      ∃ A, Placed (s.cuckooCache kc key m) m ∅ A ∧ A.map Prod.snd = L.map hash := by
  unfold cfMetaForInsert at hrun
  simp only [bind, Except.bind] at hrun
  rcases h.getCfMetaChecked now with ⟨hget, rfl, hpages⟩ | ⟨m', A, hget, -, hch, hp, hA⟩
  · simp only [hget] at hrun
    split_ifs at hrun with hcreate
    obtain ⟨v, hcheck, hrun⟩ := bind_eq_ok hrun
    cases hrun
    obtain ⟨hch, hp⟩ := placed_new (c := s.cuckooCache kc key (.new opt.capacity opt.bucketSize
      opt.maxIterations opt.expansion opt.pageSize version 0)) hcheck _ rfl rfl hpages
    exact ⟨hch, 0, hp, rfl⟩
  · simp only [hget] at hrun
    cases hrun
    exact ⟨hch, A, hp, hA⟩

theorem cfInsert_holds (h : CuckooHolds hash s kc key L) {version : UInt64} {items : List Bytes}
    {options : List CfInsert} {victim : ℕ → ℕ → ℕ} {results : List Bool} {ops : Batch}
    (hrun : cfInsert hash s kc key now version items options victim = .ok (results, ops)) :
    CuckooHolds hash (s.apply ops) kc key (L + insertedItems items results) := by
  unfold cfInsert rawCfInsert at hrun
  generalize CuckooFilterInsert.fromOptions options = opt at hrun
  split_ifs at hrun with hempty
  · cases hrun
    rw [List.isEmpty_iff.mp hempty]
    simpa [insertedItems] using h
  · simp only [bind, Except.bind] at hrun
    cases hmeta : cfMetaForInsert s kc key now version opt with
    | error err => simp [hmeta] at hrun
    | ok m =>
      obtain ⟨hch, A, hp, hA⟩ := cfMetaForInsert_spec h hmeta
      simp only [hmeta] at hrun
      cases hitems : cfInsertItems hash (s.cuckooCache kc key m) opt.nx victim 0 items m ∅ with
      | error err =>
        rw [Store.cuckooCache] at hitems
        simp [hitems] at hrun
      | ok x =>
        obtain ⟨rs, m', pages⟩ := x
        obtain ⟨hch', A', hp', hA'⟩ := cfInsertItems_spec hch hp hitems
        rw [Store.cuckooCache] at hitems
        simp only [hitems] at hrun
        cases hrun
        refine h.apply rfl rfl rfl hch' hp' ?_
        rw [hA', hA, Multiset.map_add]

theorem cfDel_holds (h : CuckooHolds hash s kc key L) {item : Bytes} (hmem : item ∈ L) {r : Bool}
    {ops : Batch} (hrun : cfDel hash s kc key now item = .ok (r, ops)) :
    r = true ∧ CuckooHolds hash (s.apply ops) kc key (L.erase item) := by
  unfold cfDel at hrun
  simp only [bind, Except.bind] at hrun
  rcases h.getCfMetaChecked now with ⟨hget, rfl, hpages⟩ | ⟨m, A, hget, -, hch, hp, hA⟩
  · cases hmem
  · simp only [hget] at hrun
    have hplaced : hash item ∈ A.map Prod.snd := by
      rw [hA]
      exact Multiset.mem_map_of_mem hash hmem
    obtain ⟨pages', A', hany, hA', hp'⟩ := hp.delete hch hplaced
    rw [Store.cuckooCache] at hany
    simp only [hany, if_true] at hrun
    cases hrun
    have hch' : CuckooChain (s.cuckooCache kc key m) { m.setSize (m.base.size.satSub 1) with
        numDeletedItems := m.numDeletedItems.satAdd 1 } :=
      ⟨hch.rtype, hch.expireAt, hch.cache, hch.valid, hch.stored, hch.pos, hch.ok⟩
    refine ⟨rfl, h.apply rfl rfl rfl hch' hp' ?_⟩
    rw [hA', hA, Multiset.map_erase_of_mem hash L hmem]

/-! ## Queries on a stored filter -/

section
variable {c : CuckooPageCache} {f : UInt16} {nb b : UInt32} {fp : UInt8} {x : UInt64}

theorem bucketContainsFp_of_table (hc : c.Valid) (hst : c.StoredSized m.subFilterNumBuckets)
    (hnb : m.subFilterNumBuckets f = .ok nb) (hb : b < nb) (hfp : fp ≠ 0) {i : ℕ}
    (hi : i < c.bucketSize.toNat) (hv : c.table ∅ f b i = fp) :
    bucketContainsFp (c.data.get (cuckooPage c.kc c.key f (c.getBucketLocation b).1))
      (c.getBucketLocation b).2 c.bucketSize.toNat fp = true := by
  simp only [CuckooPageCache.table, if_pos hi, CuckooPageCache.byte, AList.lookup_empty] at hv
  cases hget : c.data.get (cuckooPage c.kc c.key f (c.getBucketLocation b).1) with
  | none =>
    simp only [hget] at hv
    exact absurd hv.symm hfp
  | some page =>
    have hle := CuckooPageCache.location_le hc hb
    rw [← hst f nb _ page hnb hget] at hle
    simp only [hget] at hv
    rw [bucketContainsFp]
    simp only [if_pos hle]
    by_contra hnone
    rw [Option.not_isSome_iff_eq_none] at hnone
    exact memchr_slice_none hle hnone hi hv

theorem cfExistsIn_of_table (hch : CuckooChain (s.cuckooCache kc key m) m)
    (hnb : m.subFilterNumBuckets f = .ok nb) (hb : m.geometry.Paired f x b) {i : ℕ}
    (hi : i < m.bucketSize.toNat)
    (hv : (s.cuckooCache kc key m).table ∅ f b i = generateFingerprint x) :
    cfExistsIn s kc key m f nb x (generateFingerprint x) = true := by
  have hseen := bucketContainsFp_of_table hch.valid hch.stored hnb (CuckooPageCache.Paired.lt hnb hb)
    (generateFingerprint_ne_zero x) hi hv
  rw [cfExistsIn]
  dsimp only
  split_ifs with h1 hne hpage
  · rfl
  · rcases (CuckooPageCache.paired_iff hnb).mp hb with rfl | rfl
    · exact absurd hseen h1
    · rw [← hpage]
      exact hseen
  · rcases (CuckooPageCache.paired_iff hnb).mp hb with rfl | rfl
    · exact absurd hseen h1
    · exact hseen
  · rcases (CuckooPageCache.paired_iff hnb).mp hb with rfl | rfl
    · exact absurd hseen h1
    · rw [← not_not.mp hne] at hseen
      exact absurd hseen h1

theorem cfExistsLoop_of_mem (hch : CuckooChain (s.cuckooCache kc key m) m)
    (hp : Placed (s.cuckooCache kc key m) m ∅ A) (hmem : (f, x) ∈ A) {n : ℕ} (hf : f.toNat < n)
    (hn : n ≤ m.nFilters.toNat) :
    cfExistsLoop s kc key m x (generateFingerprint x) n = .ok true := by
  induction n with
  | zero => exact absurd hf (Nat.not_lt_zero _)
  | succ n ih =>
    have hnat : (UInt16.ofNat n).toNat = n :=
      UInt16.toNat_ofNat_of_lt' (show n < 2 ^ 16 by have := m.nFilters.toNat_lt; omega)
    obtain ⟨nb, hnb⟩ := hch.ok_toNat (f := UInt16.ofNat n) (by omega)
    simp only [cfExistsLoop, hnb, bind, Except.bind]
    split_ifs with hin
    · rfl
    · refine ih (lt_of_le_of_ne (Nat.lt_succ_iff.mp hf) fun heq => hin ?_) (by omega)
      obtain rfl : UInt16.ofNat n = f := UInt16.toNat_inj.mp (hnat.trans heq.symm)
      obtain ⟨b, hb, i, hi, hv⟩ := hp.found hch hmem
      exact cfExistsIn_of_table hch hnb hb hi hv

theorem cfExists_of_mem (h : CuckooHolds hash s kc key L) {item : Bytes} (hmem : item ∈ L) :
    cfExists hash s kc key now item = .ok true := by
  unfold cfExists
  rcases h.getCfMetaChecked now with ⟨hget, rfl, -⟩ | ⟨m, A, hget, -, hch, hp, hA⟩
  · cases hmem
  · have hplaced : hash item ∈ A.map Prod.snd := by
      rw [hA]
      exact Multiset.mem_map_of_mem hash hmem
    obtain ⟨⟨f, x⟩, ha, hx⟩ := Multiset.mem_map.mp hplaced
    simp only [hget, bind, Except.bind]
    rw [← hx]
    exact cfExistsLoop_of_mem hch hp ha (UInt16.lt_iff_toNat_lt.mp (hp.within _ ha)) le_rfl

theorem cfMexistsItems_spec (hch : CuckooChain c m) (hp : Placed c m pages A)
    (items : List Bytes) : ∃ results, cfMexistsItems hash c m items pages = .ok results ∧
      results.length = items.length ∧
      ∀ i (hi : i < items.length), hash items[i] ∈ A.map Prod.snd → results[i]? = some true := by
  induction items generalizing pages with
  | nil => exact ⟨[], rfl, rfl, fun i hi => absurd hi (Nat.not_lt_zero _)⟩
  | cons item items ih =>
    obtain ⟨r, pages', hany, hp', hfound⟩ := hp.contains hch (h := hash item)
    obtain ⟨results, hrun, hlen, hmem⟩ := ih hp'
    refine ⟨r :: results, ?_, by simp [hlen], fun i hi => ?_⟩
    · simp only [cfMexistsItems, hany, hrun, bind, Except.bind]
      rfl
    · cases i with
      | zero => exact fun hm => congrArg some (hfound hm)
      | succ i => exact hmem i (Nat.lt_of_succ_lt_succ hi)

theorem cfMexists_of_mem (h : CuckooHolds hash s kc key L) (items : List Bytes) :
    ∃ results, cfMexists hash s kc key now items = .ok results ∧
      ∀ i (hi : i < items.length), items[i] ∈ L → results[i]? = some true := by
  unfold cfMexists
  rcases h.getCfMetaChecked now with ⟨hget, rfl, -⟩ | ⟨m, A, hget, -, hch, hp, hA⟩
  · simp only [hget, bind, Except.bind]
    exact ⟨_, rfl, fun i hi hm => absurd hm (Multiset.notMem_zero _)⟩
  · simp only [hget, bind, Except.bind]
    obtain ⟨results, hrun, -, hmem⟩ := cfMexistsItems_spec hch hp items
    refine ⟨results, hrun, fun i hi hm => hmem i hi ?_⟩
    rw [hA]
    exact Multiset.mem_map_of_mem hash hm

theorem cfCount_of_holds (h : CuckooHolds hash s kc key L) (item : Bytes) :
    ∃ n, cfCount hash s kc key now item = .ok n ∧ L.count item ≤ n := by
  unfold cfCount
  rcases h.getCfMetaChecked now with ⟨hget, rfl, -⟩ | ⟨m, A, hget, -, hch, hp, hA⟩
  · simp only [hget, bind, Except.bind]
    exact ⟨0, rfl, by simp⟩
  · simp only [hget, bind, Except.bind]
    obtain ⟨n, hrun, hle⟩ := hp.countFilters hch (hash item)
    refine ⟨n, hrun, le_trans ?_ hle⟩
    rw [hA, Multiset.count_map, Multiset.count, Multiset.countP_eq_card_filter]
    exact Multiset.card_le_card (Multiset.monotone_filter_right L fun _ hb => congrArg hash hb)

end

end Wedb
