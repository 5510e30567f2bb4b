import Wedb.Core.Catalog

/-!
# Tenant isolation

A removal takes the keys of its own scope and its own system keys, and nothing
else. The iterators then list the remaining catalog in increasing order.
-/

namespace Wedb

/-! ## Iteration over the catalog -/

theorem decode_catalogDbKey_ns (nsId dbId : UInt64) :
    decodeOppvU64 ((catalogDbKey nsId dbId).drop catalogPrefix.length) =
      some (nsId, oppvLenU64 nsId) := by
  rw [catalogDbKey, List.append_assoc, List.drop_left, decodeOppvU64_encodeOppvU64]

theorem decode_catalogDbKey_db (nsId dbId : UInt64) :
    decodeOppvU64 ((catalogDbKey nsId dbId).drop (catalogNsPrefix nsId).length) =
      some (dbId, oppvLenU64 dbId) := by
  have h := decodeOppvU64_encodeOppvU64 dbId []
  rw [List.append_nil] at h
  rw [catalogDbKey, ← catalogNsPrefix, List.drop_left, h]

def CatalogEntries (xs : List (Bytes × Bytes)) : Prop :=
  ∀ x ∈ xs, ∃ nsId dbId, x.1 = catalogDbKey nsId dbId

theorem mem_namespacesNext {xs : List (Bytes × Bytes)} (hc : CatalogEntries xs)
    (hs : xs.Pairwise fun x y => x.1 < y.1) (last : Option UInt64)
    (hlast : ∀ m, last = some m → ∀ x ∈ xs, ∀ n d, x.1 = catalogDbKey n d → m ≤ n) :
    (∀ n, n ∈ namespacesNext last xs ↔
      some n ≠ last ∧ ∃ x ∈ xs, ∃ d, x.1 = catalogDbKey n d) ∧
      (namespacesNext last xs).Pairwise (· < ·) := by
  induction xs generalizing last with
  | nil => simp [namespacesNext]
  | cons x xs ih =>
    obtain ⟨n, d, hx⟩ := hc x (by simp)
    obtain ⟨hhead, htail⟩ := List.pairwise_cons.mp hs
    have hcx : CatalogEntries xs := fun y hy => hc y (List.mem_cons_of_mem _ hy)
    have hpre : catalogPrefix <+: catalogDbKey n d := by
      rw [SystemKey.catalogPrefix_iff (.catalog n d)]
      exact ⟨n, d, rfl⟩
    have hle : ∀ y ∈ xs, ∀ n' d', y.1 = catalogDbKey n' d' → n ≤ n' := by
      intro y hy n' d' he
      have hlt := hhead y hy
      rw [hx, he, catalogDbKey_lt_iff] at hlt
      rcases hlt with hlt | ⟨rfl, -⟩
      · exact UInt64.le_of_lt hlt
      · exact UInt64.le_refl n
    simp only [namespacesNext, hx, hpre, not_true_eq_false, if_false, decode_catalogDbKey_ns]
    split_ifs with hn
    · obtain ⟨hmem, hsort⟩ := ih hcx htail (some n) (by
        rintro m ⟨⟩
        exact hle)
      refine ⟨fun k => ?_, List.pairwise_cons.mpr ⟨fun k hk => ?_, hsort⟩⟩
      · rw [List.mem_cons, hmem]
        constructor
        · rintro (rfl | ⟨hk, y, hy, d', he⟩)
          · exact ⟨hn, x, by simp, d, hx⟩
          · refine ⟨fun hkl => ?_, y, List.mem_cons_of_mem _ hy, d', he⟩
            have h1 := hlast k hkl.symm x (by simp) n d hx
            have h2 := hle y hy k d' he
            exact hn (hkl ▸ congrArg some (UInt64.le_antisymm h2 h1))
        · rintro ⟨hk, y, hy, d', he⟩
          by_cases hkn : k = n
          · exact Or.inl hkn
          · rcases List.mem_cons.mp hy with rfl | hy
            · rw [hx, catalogDbKey_inj] at he
              exact absurd he.1.symm hkn
            · exact Or.inr ⟨by simpa using hkn, y, hy, d', he⟩
      · obtain ⟨hk, y, hy, d', he⟩ := (hmem k).mp hk
        exact UInt64.lt_of_le_of_ne (hle y hy k d' he) fun h => hk (by rw [h])
    · obtain ⟨hmem, hsort⟩ := ih hcx htail last fun m hm y hy =>
        hlast m hm y (List.mem_cons_of_mem _ hy)
      refine ⟨fun k => ?_, hsort⟩
      rw [hmem]
      refine and_congr_right fun hk => ⟨?_, ?_⟩
      · rintro ⟨y, hy, d', he⟩
        exact ⟨y, List.mem_cons_of_mem _ hy, d', he⟩
      · rintro ⟨y, hy, d', he⟩
        rcases List.mem_cons.mp hy with rfl | hy
        · rw [hx, catalogDbKey_inj] at he
          exact absurd (he.1 ▸ not_not.mp hn) hk
        · exact ⟨y, hy, d', he⟩

theorem mem_dbsNext (nsId : UInt64) {xs : List (Bytes × Bytes)}
    (hc : ∀ x ∈ xs, catalogNsPrefix nsId <+: x.1 → ∃ d, x.1 = catalogDbKey nsId d)
    (hs : xs.Pairwise fun x y => x.1 < y.1)
    (hstart : ∀ x ∈ xs, ∀ y ∈ xs, x.1 ≤ y.1 → catalogNsPrefix nsId <+: y.1 →
      catalogNsPrefix nsId <+: x.1) :
    (∀ d, d ∈ dbsNext (catalogNsPrefix nsId) xs ↔ ∃ x ∈ xs, x.1 = catalogDbKey nsId d) ∧
      (dbsNext (catalogNsPrefix nsId) xs).Pairwise (· < ·) := by
  induction xs with
  | nil => simp [dbsNext]
  | cons x xs ih =>
    obtain ⟨hhead, htail⟩ := List.pairwise_cons.mp hs
    obtain ⟨hmem, hsort⟩ := ih (fun y hy => hc y (List.mem_cons_of_mem _ hy)) htail
      fun y hy z hz => hstart y (List.mem_cons_of_mem _ hy) z (List.mem_cons_of_mem _ hz)
    by_cases hp : catalogNsPrefix nsId <+: x.1
    · obtain ⟨d, hx⟩ := hc x (by simp) hp
      rw [hx] at hp
      simp only [dbsNext, hx, hp, not_true_eq_false, if_false, decode_catalogDbKey_db]
      refine ⟨fun k => ?_, List.pairwise_cons.mpr ⟨fun k hk => ?_, hsort⟩⟩
      · rw [List.mem_cons, hmem]
        constructor
        · rintro (rfl | ⟨y, hy, he⟩)
          · exact ⟨x, by simp, hx⟩
          · exact ⟨y, List.mem_cons_of_mem _ hy, he⟩
        · rintro ⟨y, hy, he⟩
          rcases List.mem_cons.mp hy with rfl | hy
          · rw [hx, catalogDbKey_inj] at he
            exact Or.inl he.2.symm
          · exact Or.inr ⟨y, hy, he⟩
      · obtain ⟨y, hy, he⟩ := (hmem k).mp hk
        have hlt := hhead y hy
        rw [hx, he, catalogDbKey_lt_iff] at hlt
        rcases hlt with hlt | ⟨-, hlt⟩
        · exact absurd hlt (UInt64.lt_irrefl _)
        · exact hlt
    · simp only [dbsNext, hp, not_false_eq_true, if_true]
      refine ⟨fun k => iff_of_false (by simp) ?_, List.Pairwise.nil⟩
      rintro ⟨y, hy, he⟩
      have hyp : catalogNsPrefix nsId <+: y.1 := by
        rw [he, catalogNsPrefix_prefix_catalogDbKey]
      rcases List.mem_cons.mp hy with rfl | hym
      · exact hp hyp
      · exact hp (hstart x (by simp) y hy (hhead y hym).le hyp)

theorem mem_rangeFrom {m : SortedMap Bytes Bytes} {start : Bytes} {x : Bytes × Bytes} :
    x ∈ rangeFrom m start ↔ m.get x.1 = some x.2 ∧ start ≤ x.1 := by
  simp [rangeFrom, SortedMap.get_eq_some]

theorem rangeFrom_sorted (m : SortedMap Bytes Bytes) (start : Bytes) :
    (rangeFrom m start).Pairwise fun x y => x.1 < y.1 := m.sorted.filter _

theorem exists_mem_rangeFrom {m : SortedMap Bytes Bytes} {start k : Bytes} :
    (∃ x ∈ rangeFrom m start, x.1 = k) ↔ k ∈ m.keys ∧ start ≤ k := by
  rw [SortedMap.mem_keys]
  constructor
  · rintro ⟨x, hx, rfl⟩
    obtain ⟨hget, hle⟩ := mem_rangeFrom.mp hx
    exact ⟨⟨x.2, hget⟩, hle⟩
  · rintro ⟨⟨v, hv⟩, hle⟩
    exact ⟨(k, v), mem_rangeFrom.mpr ⟨hv, hle⟩, rfl⟩

theorem Scoped.catalog_of_ge {s : Store} (h : Scoped s) {k : Bytes} (hk : k ∈ s.metadata.keys)
    (hle : catalogPrefix ≤ k) : ∃ nsId dbId, k = catalogDbKey nsId dbId := by
  have hsys : ∀ t : Bytes, ¬catalogPrefix ≤ 0xFF :: 0x01 :: t := by
    intro t
    rw [not_le]
    exact List.cons_lt_cons_iff.mpr (Or.inr ⟨rfl, List.cons_lt_cons_iff.mpr (Or.inl (by decide))⟩)
  rcases h.metadata k hk with ⟨kc, hkc⟩ | hkey
  · obtain ⟨t, rfl⟩ := hkc.head
    refine absurd hle (not_le.mpr ?_)
    exact List.cons_lt_cons_iff.mpr (Or.inl (by decide))
  · cases hkey with
    | catalog ns db => exact ⟨ns, db, rfl⟩
    | nsNextId => exact absurd hle (hsys _)
    | dbNextId ns => exact absurd hle (hsys _)

theorem Scoped.catalog_of_prefix {s : Store} (h : Scoped s) {nsId : UInt64} {k : Bytes}
    (hk : k ∈ s.metadata.keys) (hp : catalogNsPrefix nsId <+: k) :
    ∃ dbId, k = catalogDbKey nsId dbId := by
  have hle := (Bytes.le_of_prefix (catalogPrefix_prefix_nsPrefix nsId)).trans (Bytes.le_of_prefix hp)
  obtain ⟨n, d, rfl⟩ := h.catalog_of_ge hk hle
  rw [catalogNsPrefix_prefix_catalogDbKey] at hp
  exact ⟨d, by rw [hp]⟩

theorem catalogNsPrefix_le_iff {nsId n d : UInt64} :
    catalogNsPrefix nsId ≤ catalogDbKey n d ↔ nsId ≤ n := by
  rcases lt_trichotomy n.toNat nsId.toNat with hlt | heq | hgt
  · have h := catalogNsPrefix_append_lt (show n < nsId from hlt) (encodeOppvU64 d) []
    rw [List.append_nil] at h
    exact iff_of_false (not_le.mpr h) (UInt64.not_le.mpr hlt)
  · obtain rfl := UInt64.toNat.inj heq
    exact iff_of_true (Bytes.le_of_prefix (List.prefix_append _ _)) (UInt64.le_refl n)
  · have h := catalogNsPrefix_append_lt (show nsId < n from hgt) [] (encodeOppvU64 d)
    rw [List.append_nil] at h
    exact iff_of_true h.le (UInt64.le_of_lt hgt)

theorem catalogDbKey_le_iff {nsId d d' : UInt64} :
    catalogDbKey nsId d ≤ catalogDbKey nsId d' ↔ d ≤ d' := by
  rw [← not_lt, catalogDbKey_lt_iff, ← UInt64.not_lt]
  simp

theorem catalog_le_catalogDbKey (n d : UInt64) : catalogPrefix ≤ catalogDbKey n d := by
  refine Bytes.le_of_prefix ?_
  rw [catalogDbKey, List.append_assoc]
  exact List.prefix_append _ _

theorem namespaces_spec {s : Store} (h : Scoped s) (start : UInt64) :
    (∀ n, n ∈ namespaces s start ↔ start ≤ n ∧ ∃ d, Registered s n d) ∧
      (namespaces s start).Pairwise (· < ·) := by
  set startKey := if start = 0 then catalogPrefix else catalogNsPrefix start with hstart
  have hge : catalogPrefix ≤ startKey := by
    rw [hstart]
    split_ifs
    · exact le_refl _
    · exact Bytes.le_of_prefix (catalogPrefix_prefix_nsPrefix start)
  have hle : ∀ n d, startKey ≤ catalogDbKey n d ↔ start ≤ n := by
    intro n d
    rw [hstart]
    split_ifs with h0
    · exact iff_of_true (catalog_le_catalogDbKey n d) (h0 ▸ UInt64.zero_le)
    · exact catalogNsPrefix_le_iff
  have hc : CatalogEntries (rangeFrom s.metadata startKey) := by
    intro x hx
    obtain ⟨hget, hk⟩ := mem_rangeFrom.mp hx
    exact h.catalog_of_ge (SortedMap.mem_keys.mpr ⟨x.2, hget⟩) (hge.trans hk)
  obtain ⟨hmem, hsort⟩ := mem_namespacesNext hc (rangeFrom_sorted _ _) none
    fun m hm => absurd hm (by simp)
  refine ⟨fun n => ?_, hsort⟩
  rw [namespaces, ← hstart, hmem]
  constructor
  · rintro ⟨-, x, hx, d, he⟩
    obtain ⟨hkey, hk⟩ := exists_mem_rangeFrom.mp ⟨x, hx, he⟩
    exact ⟨(hle n d).mp hk, d, hkey⟩
  · rintro ⟨hn, d, hreg⟩
    obtain ⟨x, hx, he⟩ := exists_mem_rangeFrom.mpr ⟨hreg, (hle n d).mpr hn⟩
    exact ⟨by simp, x, hx, d, he⟩

/-- The databases listed from `start` are those with a catalog entry, in order. -/
theorem dbs_spec {s : Store} (h : Scoped s) (nsId start : UInt64) :
    (∀ d, d ∈ dbs s nsId start ↔ start ≤ d ∧ Registered s nsId d) ∧
      (dbs s nsId start).Pairwise (· < ·) := by
  set startKey := if start = 0 then catalogNsPrefix nsId else catalogDbKey nsId start with hstart
  have hpre : catalogNsPrefix nsId <+: startKey := by
    rw [hstart]
    split_ifs
    · exact List.prefix_refl _
    · exact List.prefix_append _ _
  have hle : ∀ d, startKey ≤ catalogDbKey nsId d ↔ start ≤ d := by
    intro d
    rw [hstart]
    split_ifs with h0
    · exact iff_of_true (catalogNsPrefix_le_iff.mpr (UInt64.le_refl _)) (h0 ▸ UInt64.zero_le)
    · exact catalogDbKey_le_iff
  obtain ⟨hmem, hsort⟩ := mem_dbsNext nsId
    (fun x hx hp => h.catalog_of_prefix
      (SortedMap.mem_keys.mpr ⟨x.2, (mem_rangeFrom.mp hx).1⟩) hp)
    (rangeFrom_sorted _ _)
    (fun x hx y _ hxy hy => Bytes.prefix_of_between hpre hy (mem_rangeFrom.mp hx).2 hxy)
  refine ⟨fun d => ?_, hsort⟩
  rw [dbs, ← hstart, hmem, exists_mem_rangeFrom, hle, and_comm]
  rfl

/-! ## Removal and isolation -/

/-- The iterators list the catalog. -/
def ListsCatalog (s : Store) : Prop :=
  (∀ start, (∀ n, n ∈ namespaces s start ↔ start ≤ n ∧ ∃ d, Registered s n d) ∧
    (namespaces s start).Pairwise (· < ·)) ∧
  ∀ nsId start, (∀ d, d ∈ dbs s nsId start ↔ start ≤ d ∧ Registered s nsId d) ∧
    (dbs s nsId start).Pairwise (· < ·)

theorem Scoped.listsCatalog {s : Store} (h : Scoped s) : ListsCatalog s :=
  ⟨namespaces_spec h, dbs_spec h⟩

theorem Scoped.scope_prefix_iff {s : Store} (h : Scoped s) {p : Partition} {k v : Bytes}
    (hk : (s.part p).get k = some v) (kc : KeyComposer) :
    kc.encodeScopePrefix <+: k ↔ ComposedIn kc k := by
  rcases h.key hk with ⟨kc', hkc'⟩ | ⟨-, hs⟩
  · rw [hkc'.scope_prefix_iff]
    constructor
    · rintro rfl
      exact hkc'
    · intro hkc
      exact hkc'.scope_prefix_iff.mp (hkc.scope_prefix_iff.mpr rfl)
  · exact iff_of_false hs.not_zero_prefix fun hc => hc.not_system hs

theorem Scoped.nsPrefix_iff {s : Store} (h : Scoped s) {p : Partition} {k v : Bytes}
    (hk : (s.part p).get k = some v) (nsId : UInt64) :
    KeyComposer.nsPrefix nsId <+: k ↔ ∃ dbId, ComposedIn ⟨nsId, dbId⟩ k := by
  rcases h.key hk with ⟨kc', hkc'⟩ | ⟨-, hs⟩
  · rw [hkc'.nsPrefix_prefix_iff]
    constructor
    · rintro rfl
      exact ⟨kc'.db, hkc'⟩
    · rintro ⟨d, hd⟩
      rw [← hkc'.nsPrefix_prefix_iff, hd.nsPrefix_prefix_iff]
  · refine iff_of_false hs.not_zero_prefix ?_
    rintro ⟨d, hc⟩
    exact hc.not_system hs

theorem dbRmImpl_removes {e : Engine} (h : Scoped e.store) (nsId dbId : UInt64) :
    ∃ (n : UInt64) (e' : Engine), dbRmImpl e nsId dbId = .ok (n, e') ∧
      (∀ p k v, (e'.store.part p).get k = some v ↔
        (e.store.part p).get k = some v ∧ ¬ComposedIn ⟨nsId, dbId⟩ k ∧
          ¬(p = .metadata ∧ k = catalogDbKey nsId dbId)) ∧ ListsCatalog e'.store := by
  obtain ⟨n, e', he', hget⟩ := dbRmImpl_spec e nsId dbId
  have hiff : ∀ p k v, (e'.store.part p).get k = some v ↔
      (e.store.part p).get k = some v ∧ ¬ComposedIn ⟨nsId, dbId⟩ k ∧
        ¬(p = .metadata ∧ k = catalogDbKey nsId dbId) := by
    intro p k v
    rw [hget]
    constructor
    · intro hk
      split_ifs at hk with hcond
      obtain ⟨h1, h2⟩ := not_or.mp hcond
      exact ⟨hk, fun hc => h1 ((h.scope_prefix_iff hk _).mpr hc), h2⟩
    · rintro ⟨hk, h1, h2⟩
      rw [if_neg (not_or.mpr ⟨fun hp => h1 ((h.scope_prefix_iff hk _).mp hp), h2⟩), hk]
  exact ⟨n, e', he', hiff, (h.of_get fun p k v hk => ((hiff p k v).mp hk).1).listsCatalog⟩

theorem namespaceRmImpl_removes {e : Engine} (h : Scoped e.store) (nsId : UInt64) :
    ∃ (n : UInt64) (e' : Engine), namespaceRmImpl e nsId = .ok (n, e') ∧
      (∀ p k v, (e'.store.part p).get k = some v ↔
        (e.store.part p).get k = some v ∧ (¬∃ dbId, ComposedIn ⟨nsId, dbId⟩ k) ∧
          ¬(p = .metadata ∧ ((∃ dbId, k = catalogDbKey nsId dbId) ∨ k = dbNextIdKey nsId))) ∧
      ListsCatalog e'.store := by
  obtain ⟨n, e', he', hget⟩ := namespaceRmImpl_spec e nsId
  have hcat : ∀ p k v, (e.store.part p).get k = some v →
      (p = .metadata ∧ (catalogNsPrefix nsId <+: k ∨ k = dbNextIdKey nsId) ↔
        p = .metadata ∧ ((∃ dbId, k = catalogDbKey nsId dbId) ∨ k = dbNextIdKey nsId)) := by
    rintro p k v hk
    refine and_congr_right fun hp => or_congr_left ?_
    subst hp
    constructor
    · exact h.catalog_of_prefix (SortedMap.mem_keys.mpr ⟨v, hk⟩)
    · rintro ⟨d, rfl⟩
      exact List.prefix_append _ _
  have hiff : ∀ p k v, (e'.store.part p).get k = some v ↔
      (e.store.part p).get k = some v ∧ (¬∃ dbId, ComposedIn ⟨nsId, dbId⟩ k) ∧
        ¬(p = .metadata ∧ ((∃ dbId, k = catalogDbKey nsId dbId) ∨ k = dbNextIdKey nsId)) := by
    intro p k v
    rw [hget]
    constructor
    · intro hk
      split_ifs at hk with hcond
      obtain ⟨h1, h2⟩ := not_or.mp hcond
      exact ⟨hk, fun hc => h1 ((h.nsPrefix_iff hk _).mpr hc), fun hc => h2 ((hcat p k v hk).mpr hc)⟩
    · rintro ⟨hk, h1, h2⟩
      rw [if_neg (not_or.mpr ⟨fun hp => h1 ((h.nsPrefix_iff hk _).mp hp),
        fun hc => h2 ((hcat p k v hk).mp hc)⟩), hk]
  exact ⟨n, e', he', hiff, (h.of_get fun p k v hk => ((hiff p k v).mp hk).1).listsCatalog⟩

/-- No key of another scope and no system key has the scope prefix of `kc`, a
system key has no other namespace's catalog prefix, and removals are exact. -/
theorem tenant_isolation {e : Engine} (h : Scoped e.store) (kc : KeyComposer) :
    (∀ kc' k, kc' ≠ kc → ComposedIn kc' k → ¬kc.encodeScopePrefix <+: k) ∧
    (∀ k, SystemKey k → ¬kc.encodeScopePrefix <+: k ∧
      (catalogNsPrefix kc.nsId <+: k → ∃ dbId, k = catalogDbKey kc.nsId dbId)) ∧
    (∃ (n : UInt64) (e' : Engine), dbRmImpl e kc.nsId kc.db = .ok (n, e') ∧
      (∀ p k v, (e'.store.part p).get k = some v ↔
        (e.store.part p).get k = some v ∧ ¬ComposedIn kc k ∧
          ¬(p = .metadata ∧ k = catalogDbKey kc.nsId kc.db)) ∧ ListsCatalog e'.store) ∧
    (∃ (n : UInt64) (e' : Engine), namespaceRmImpl e kc.nsId = .ok (n, e') ∧
      (∀ p k v, (e'.store.part p).get k = some v ↔
        (e.store.part p).get k = some v ∧ (¬∃ dbId, ComposedIn ⟨kc.nsId, dbId⟩ k) ∧
          ¬(p = .metadata ∧ ((∃ dbId, k = catalogDbKey kc.nsId dbId) ∨ k = dbNextIdKey kc.nsId))) ∧
      ListsCatalog e'.store) := by
  refine ⟨fun kc' k hne hc hp => ?_, fun k hs => ⟨hs.not_zero_prefix, fun hp => ?_⟩,
    dbRmImpl_removes h kc.nsId kc.db, namespaceRmImpl_removes h kc.nsId⟩
  · exact hne (hc.scope_prefix_iff.mp hp).symm
  · obtain ⟨n, d, rfl⟩ := hs.catalogPrefix_iff.mp ((catalogPrefix_prefix_nsPrefix _).trans hp)
    rw [catalogNsPrefix_prefix_catalogDbKey] at hp
    exact ⟨d, by rw [hp]⟩

theorem tenant_isolation_wedbNew :
    ∃ (n : UInt64) (e' : Engine), dbRmImpl (wedbNew Engine.empty) 0 0 = .ok (n, e') ∧
      (∀ p k v, (e'.store.part p).get k = some v ↔
        ((wedbNew Engine.empty).store.part p).get k = some v ∧ ¬ComposedIn ⟨0, 0⟩ k ∧
          ¬(p = .metadata ∧ k = catalogDbKey 0 0)) ∧ ListsCatalog e'.store :=
  (tenant_isolation (e := wedbNew Engine.empty) scoped_empty.wedbNew ⟨0, 0⟩).2.2.1

end Wedb
