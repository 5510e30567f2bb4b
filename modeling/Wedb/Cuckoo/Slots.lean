import Wedb.Cuckoo.Pages

/-!
# Slots seen through the page cache

Every byte of a page has one value in the cache or in the store, and every slot
of a bucket one place in one page. An operation of the cache reads the slots of
its bucket and writes at most one of them; loading a page changes no slot.
-/

namespace Wedb

theorem slice_getElem? {s : Bytes} {o len i : ℕ} (hi : i < len) :
    (slice s o len)[i]? = s[o + i]? := by
  rw [slice, List.getElem?_take_of_lt hi, List.getElem?_drop]

theorem slice_length {s : Bytes} {offset len : ℕ} (h : offset + len ≤ s.length) :
    (slice s offset len).length = len := by
  rw [slice, List.length_take, List.length_drop]
  omega

theorem memchr_slice_some {s : Bytes} {offset len pos : ℕ} {v : UInt8}
    (hlen : offset + len ≤ s.length) (h : memchr v (slice s offset len) = some pos) :
    pos < len ∧ s.getD (offset + pos) 0 = v := by
  rw [memchr, List.findIdx?_eq_some_iff_getElem] at h
  obtain ⟨hlt, hv, -⟩ := h
  rw [slice_length hlen] at hlt
  refine ⟨hlt, ?_⟩
  rw [List.getD_eq_getElem?_getD, ← slice_getElem? hlt, List.getElem?_eq_getElem (by
    rwa [slice_length hlen])]
  simpa using hv

theorem memchr_slice_none {s : Bytes} {offset len i : ℕ} {v : UInt8}
    (hlen : offset + len ≤ s.length) (h : memchr v (slice s offset len) = none) (hi : i < len) :
    s.getD (offset + i) 0 ≠ v := by
  rw [memchr, List.findIdx?_eq_none_iff] at h
  have hlt : i < (slice s offset len).length := by rwa [slice_length hlen]
  have hne := h _ (List.getElem_mem hlt)
  rw [List.getD_eq_getElem?_getD, ← slice_getElem? hi, List.getElem?_eq_getElem hlt]
  simpa using hne

theorem getD_set {v : Bytes} {i j : ℕ} {x : UInt8} (hi : i < v.length) :
    (v.set i x).getD j 0 = if j = i then x else v.getD j 0 := by
  rw [List.getD_eq_getElem?_getD, List.getElem?_set, List.getD_eq_getElem?_getD]
  split_ifs with h1 h2 h2
  · rfl
  · exact absurd h1.symm h2
  · exact absurd h2.symm h1
  · rfl

namespace CuckooPageData

section
variable {d : CuckooPageData} {n offset len pos i : ℕ} {v : UInt8}

theorem search_some (h : d.Sized n) (hle : offset + len ≤ n)
    (hm : (d.getSubslice offset len).bind (memchr v) = some pos) :
    pos < len ∧ d.getByte (offset + pos) = v := by
  cases d with
  | clean s | dirty s =>
    have hlen : s.length = n := h
    simp only [getSubslice, if_pos (hlen ▸ hle), Option.bind_some] at hm
    exact memchr_slice_some (hlen ▸ hle) hm
  | empty size => cases hm

theorem search_none (h : d.Sized n) (hle : offset + len ≤ n) (hv : v ≠ 0)
    (hm : (d.getSubslice offset len).bind (memchr v) = none) (hi : i < len) :
    d.getByte (offset + i) ≠ v := by
  cases d with
  | clean s | dirty s =>
    have hlen : s.length = n := h
    simp only [getSubslice, if_pos (hlen ▸ hle), Option.bind_some] at hm
    exact memchr_slice_none (hlen ▸ hle) hm hi
  | empty size => exact Ne.symm hv

theorem count_slice {s : Bytes} (hle : offset + len ≤ s.length) (v : UInt8) :
    (slice s offset len).count v =
      ((Finset.range len).filter fun i => s.getD (offset + i) 0 = v).card := by
  have hmap : slice s offset len = (List.range len).map fun i => s.getD (offset + i) 0 := by
    refine List.ext_getElem (by rw [slice_length hle, List.length_map, List.length_range])
      fun i h1 h2 => ?_
    rw [slice_length hle] at h1
    have hget := slice_getElem? (s := s) (o := offset) h1
    rw [List.getElem?_eq_getElem (by rwa [slice_length hle])] at hget
    rw [List.getElem_map, List.getElem_range, List.getD_eq_getElem?_getD, ← hget]
    rfl
  rw [hmap, List.count, List.countP_map, List.countP_eq_length_filter, Finset.card_def,
    Finset.filter_val, Finset.range_val, Multiset.range, Multiset.filter_coe, Multiset.coe_card]
  rfl

end

end CuckooPageData

namespace CuckooPageCache

def byte (c : CuckooPageCache) (pages : CuckooPages) (f : UInt16) (p : UInt32) (offset : ℕ) :
    UInt8 :=
  match pages.lookup (f, p) with
  | some entry => entry.getByte offset
  | none => ((c.data.get (cuckooPage c.kc c.key f p)).getD []).getD offset 0

def table (c : CuckooPageCache) (pages : CuckooPages) (f : UInt16) (b : UInt32) (s : ℕ) : UInt8 :=
  if s < c.bucketSize.toNat then
    c.byte pages f (c.getBucketLocation b).1 ((c.getBucketLocation b).2 + s)
  else 0

/-- The cached and the stored pages have the sizes of their sub-filters, and a
page that was not written is as it is stored. -/
structure Sound (c : CuckooPageCache) (nbs : UInt16 → Except Error UInt32) (pages : CuckooPages) :
    Prop where
  sized : ∀ f nb p entry, nbs f = .ok nb → pages.lookup (f, p) = some entry →
    entry.Sized (c.getExpectedPageSize nb p)
  clean : ∀ f p s, pages.lookup (f, p) = some (.clean s) →
    c.data.get (cuckooPage c.kc c.key f p) = some s
  absent : ∀ f p n, pages.lookup (f, p) = some (.empty n) →
    c.data.get (cuckooPage c.kc c.key f p) = none

/-- The pages in the store have the sizes of their sub-filters. -/
def StoredSized (c : CuckooPageCache) (nbs : UInt16 → Except Error UInt32) : Prop :=
  ∀ f nb p s, nbs f = .ok nb → c.data.get (cuckooPage c.kc c.key f p) = some s →
    s.length = c.getExpectedPageSize nb p

/-- Written pages stay written, with their sizes. -/
def KeepsDirty (pages pages' : CuckooPages) : Prop :=
  ∀ k v, pages.lookup k = some (.dirty v) →
    ∃ v', pages'.lookup k = some (.dirty v') ∧ v'.length = v.length

/-- The pages have other cached data and the same bytes. -/
structure Same (c : CuckooPageCache) (nbs : UInt16 → Except Error UInt32)
    (pages pages' : CuckooPages) : Prop where
  sound : c.Sound nbs pages'
  bytes : c.byte pages' = c.byte pages
  keeps : KeepsDirty pages pages'

/-- One byte is written, in a page that is now dirty. -/
structure Written (c : CuckooPageCache) (nbs : UInt16 → Except Error UInt32)
    (pages pages' : CuckooPages) (f : UInt16) (p : UInt32) (offset : ℕ) (v : UInt8) : Prop where
  sound : c.Sound nbs pages'
  bytes : ∀ g q o, c.byte pages' g q o =
    if g = f ∧ q = p ∧ o = offset then v else c.byte pages g q o
  keeps : KeepsDirty pages pages'
  dirty : ∃ vec, pages'.lookup (f, p) = some (.dirty vec) ∧ offset < vec.length

section
variable {c : CuckooPageCache} {nbs : UInt16 → Except Error UInt32} {pages pages' : CuckooPages}
  {f : UInt16} {nb b p : UInt32} {fp v : UInt8} {s : ℕ}

theorem KeepsDirty.refl (pages : CuckooPages) : KeepsDirty pages pages := fun _ v h => ⟨v, h, rfl⟩

theorem KeepsDirty.trans {pages'' : CuckooPages} (h : KeepsDirty pages pages')
    (h' : KeepsDirty pages' pages'') : KeepsDirty pages pages'' := by
  intro k v hk
  obtain ⟨v', hv', hlen'⟩ := h k v hk
  obtain ⟨v'', hv'', hlen''⟩ := h' k v' hv'
  exact ⟨v'', hv'', hlen''.trans hlen'⟩

theorem sound_empty (c : CuckooPageCache) (nbs : UInt16 → Except Error UInt32) :
    c.Sound nbs ∅ :=
  ⟨fun _ _ _ _ _ h => (nomatch h), fun _ _ _ h => (nomatch h), fun _ _ _ h => (nomatch h)⟩

/-- What loading a page gives. -/
structure Loaded (c : CuckooPageCache) (nbs : UInt16 → Except Error UInt32)
    (pages pages' : CuckooPages) (f : UInt16) (nb p : UInt32) (entry : CuckooPageData) : Prop where
  same : c.Same nbs pages pages'
  lookup : pages'.lookup (f, p) = some entry
  sized : entry.Sized (c.getExpectedPageSize nb p)
  bytes : ∀ o, entry.getByte o = c.byte pages f p o

theorem getPageEntryMut_loaded (hst : c.StoredSized nbs) (hs : c.Sound nbs pages)
    (hnb : nbs f = .ok nb) (p : UInt32) :
    c.Loaded nbs pages (c.getPageEntryMut f nb p pages).2 f nb p
      (c.getPageEntryMut f nb p pages).1 := by
  cases hl : pages.lookup (f, p) with
  | some entry =>
    simp only [getPageEntryMut, hl]
    exact ⟨⟨hs, rfl, .refl _⟩, hl, hs.sized f nb p entry hnb hl, fun o => by simp [byte, hl]⟩
  | none =>
    simp only [getPageEntryMut, hl]
    have hbyte : ∀ o, (c.load f nb p).getByte o = c.byte pages f p o := by
      intro o
      simp only [load, byte, hl]
      cases c.data.get (cuckooPage c.kc c.key f p) with
      | some s => rfl
      | none => simp [CuckooPageData.getByte]
    have hsized : (c.load f nb p).Sized (c.getExpectedPageSize nb p) := by
      unfold load
      cases hget : c.data.get (cuckooPage c.kc c.key f p) with
      | some s => exact hst f nb p s hnb hget
      | none => rfl
    refine ⟨⟨⟨?_, ?_, ?_⟩, ?_, ?_⟩, AList.lookup_insert _, hsized, hbyte⟩
    · intro g nb' q entry hg hget
      by_cases hk : (g, q) = (f, p)
      · cases hk
        rw [AList.lookup_insert, Option.some.injEq] at hget
        rw [hnb, Except.ok.injEq] at hg
        rw [← hget, ← hg]
        exact hsized
      · rw [AList.lookup_insert_ne hk] at hget
        exact hs.sized g nb' q entry hg hget
    · intro g q s hget
      by_cases hk : (g, q) = (f, p)
      · cases hk
        rw [AList.lookup_insert, Option.some.injEq] at hget
        unfold load at hget
        split at hget
        · next hd =>
          cases hget
          exact hd
        · cases hget
      · rw [AList.lookup_insert_ne hk] at hget
        exact hs.clean g q s hget
    · intro g q n hget
      by_cases hk : (g, q) = (f, p)
      · cases hk
        rw [AList.lookup_insert, Option.some.injEq] at hget
        unfold load at hget
        split at hget
        · cases hget
        · next hd => exact hd
      · rw [AList.lookup_insert_ne hk] at hget
        exact hs.absent g q n hget
    · funext g q o
      by_cases hk : (g, q) = (f, p)
      · cases hk
        rw [← hbyte o, byte, AList.lookup_insert]
      · simp only [byte, AList.lookup_insert_ne hk]
    · intro k v hk
      have hne : k ≠ (f, p) := by
        rintro rfl
        rw [hl] at hk
        cases hk
      exact ⟨v, by rw [AList.lookup_insert_ne hne, hk], rfl⟩

theorem Sound.insert_of_sized (hs : c.Sound nbs pages) {vec : Bytes}
    (hlen : ∀ nb, nbs f = .ok nb → vec.length = c.getExpectedPageSize nb p) :
    c.Sound nbs (pages.insert (f, p) (.dirty vec)) := by
  constructor
  · intro g nb' q entry hg hget
    by_cases hk : (g, q) = (f, p)
    · cases hk
      rw [AList.lookup_insert, Option.some.injEq] at hget
      rw [← hget]
      exact hlen nb' hg
    · rw [AList.lookup_insert_ne hk] at hget
      exact hs.sized g nb' q entry hg hget
  · intro g q s hget
    by_cases hk : (g, q) = (f, p)
    · cases hk
      rw [AList.lookup_insert] at hget
      cases hget
    · rw [AList.lookup_insert_ne hk] at hget
      exact hs.clean g q s hget
  · intro g q n hget
    by_cases hk : (g, q) = (f, p)
    · cases hk
      rw [AList.lookup_insert] at hget
      cases hget
    · rw [AList.lookup_insert_ne hk] at hget
      exact hs.absent g q n hget

theorem Sound.insert_dirty (hs : c.Sound nbs pages) (hnb : nbs f = .ok nb) {vec : Bytes}
    (hlen : vec.length = c.getExpectedPageSize nb p) :
    c.Sound nbs (pages.insert (f, p) (.dirty vec)) := by
  refine hs.insert_of_sized fun nb' hnb' => ?_
  rw [hnb, Except.ok.injEq] at hnb'
  rw [hlen, hnb']

theorem Sound.replace_dirty (hs : c.Sound nbs pages) {vec vec' : Bytes}
    (hvec : pages.lookup (f, p) = some (.dirty vec)) (hlen : vec'.length = vec.length) :
    c.Sound nbs (pages.insert (f, p) (.dirty vec')) :=
  hs.insert_of_sized fun nb hnb => hlen.trans (hs.sized f nb p _ hnb hvec)

theorem byte_insert_dirty (c : CuckooPageCache) (pages : CuckooPages) (f g : UInt16)
    (p q : UInt32) (vec : Bytes) (o : ℕ) :
    c.byte (pages.insert (f, p) (.dirty vec)) g q o =
      if g = f ∧ q = p then vec.getD o 0 else c.byte pages g q o := by
  by_cases hk : g = f ∧ q = p
  · obtain ⟨rfl, rfl⟩ := hk
    rw [byte, AList.lookup_insert, if_pos ⟨rfl, rfl⟩]
    rfl
  · rw [if_neg hk, byte, byte, AList.lookup_insert_ne fun h => hk (Prod.mk.inj h)]

theorem Loaded.written {entry : CuckooPageData} {vec : Bytes} {offset : ℕ} (hnb : nbs f = .ok nb)
    (h : c.Loaded nbs pages pages' f nb p entry)
    (hlen : vec.length = c.getExpectedPageSize nb p) (hget : ∀ o, vec.getD o 0 = entry.getByte o)
    (ho : offset < c.getExpectedPageSize nb p) :
    c.Written nbs pages (pages'.insert (f, p) (.dirty (vec.set offset v))) f p offset v := by
  have hset : (vec.set offset v).length = c.getExpectedPageSize nb p := by
    rw [List.length_set, hlen]
  refine ⟨h.same.sound.insert_dirty hnb hset, fun g q o => ?_, h.same.keeps.trans fun k w hk => ?_,
    _, AList.lookup_insert _, by rwa [hset]⟩
  · rw [byte_insert_dirty, getD_set (by rwa [hlen]), h.same.bytes]
    by_cases hk : g = f ∧ q = p
    · obtain ⟨rfl, rfl⟩ := hk
      rw [if_pos ⟨rfl, rfl⟩, hget, h.bytes]
      simp only [true_and]
    · rw [if_neg hk, if_neg fun hc => hk ⟨hc.1, hc.2.1⟩]
  · by_cases hkf : k = (f, p)
    · subst hkf
      refine ⟨_, AList.lookup_insert _, ?_⟩
      have hsized := h.same.sound.sized f nb p _ hnb hk
      rw [hset]
      exact hsized.symm
    · exact ⟨w, by rw [AList.lookup_insert_ne hkf, hk], rfl⟩

theorem Loaded.insert_same {vec : Bytes} (hnb : nbs f = .ok nb)
    (h : c.Loaded nbs pages pages' f nb p (.dirty vec)) :
    c.Same nbs pages (pages'.insert (f, p) (.dirty vec)) := by
  refine ⟨h.same.sound.insert_dirty hnb h.sized, ?_, h.same.keeps.trans fun k w hk => ?_⟩
  · funext g q o
    rw [byte_insert_dirty, h.same.bytes]
    by_cases hk : g = f ∧ q = p
    · obtain ⟨rfl, rfl⟩ := hk
      rw [if_pos ⟨rfl, rfl⟩, ← h.bytes]
      rfl
    · rw [if_neg hk]
  · by_cases hkf : k = (f, p)
    · subst hkf
      rw [h.lookup] at hk
      cases hk
      exact ⟨_, AList.lookup_insert _, rfl⟩
    · exact ⟨w, by rw [AList.lookup_insert_ne hkf, hk], rfl⟩

/-! ## Buckets -/

/-- The sizes a cache is opened with are not zero. -/
structure Valid (c : CuckooPageCache) : Prop where
  bucketSize : 0 < c.bucketSize.toNat
  bucketsPerPage : 0 < c.bucketsPerPage.toNat

theorem location_page (c : CuckooPageCache) (b : UInt32) :
    (c.getBucketLocation b).1.toNat = b.toNat / c.bucketsPerPage.toNat := UInt32.toNat_div ..

theorem location_offset (c : CuckooPageCache) (b : UInt32) : (c.getBucketLocation b).2 =
    (b.toNat % c.bucketsPerPage.toNat) * c.bucketSize.toNat := by
  rw [getBucketLocation, UInt32.toNat_mod]

theorem location_le (hc : c.Valid) (hb : b < nb) : (c.getBucketLocation b).2 + c.bucketSize.toNat ≤
    c.getExpectedPageSize nb (c.getBucketLocation b).1 := by
  have hlt := UInt32.lt_iff_toNat_lt.mp hb
  have hdiv := Nat.div_add_mod b.toNat c.bucketsPerPage.toNat
  have hmod := Nat.mod_lt b.toNat hc.bucketsPerPage
  have hfirst : ((c.getBucketLocation b).1 * c.bucketsPerPage).toNat =
      c.bucketsPerPage.toNat * (b.toNat / c.bucketsPerPage.toNat) := by
    rw [UInt32.toNat_mul, location_page, Nat.mul_comm, Nat.mod_eq_of_lt]
    have := b.toNat_lt
    omega
  rw [getExpectedPageSize, hfirst, location_offset, ← Nat.succ_mul]
  exact Nat.mul_le_mul_right _ (by omega)

theorem location_inj (hc : c.Valid) {b' : UInt32} {s' : ℕ} (hs : s < c.bucketSize.toNat)
    (hs' : s' < c.bucketSize.toNat) :
    (c.getBucketLocation b').1 = (c.getBucketLocation b).1 ∧
      (c.getBucketLocation b').2 + s' = (c.getBucketLocation b).2 + s ↔ b' = b ∧ s' = s := by
  constructor
  · rintro ⟨hpage, hoff⟩
    have hp := congrArg UInt32.toNat hpage
    rw [location_page, location_page] at hp
    rw [location_offset, location_offset] at hoff
    have hmod : b'.toNat % c.bucketsPerPage.toNat = b.toNat % c.bucketsPerPage.toNat := by
      have hdiv := congrArg (· / c.bucketSize.toNat) hoff
      simpa [Nat.mul_comm _ c.bucketSize.toNat, Nat.mul_add_div hc.bucketSize,
        Nat.div_eq_of_lt hs, Nat.div_eq_of_lt hs'] using hdiv
    refine ⟨UInt32.toNat_inj.mp ?_, ?_⟩
    · rw [← Nat.div_add_mod b'.toNat c.bucketsPerPage.toNat, hp, hmod, Nat.div_add_mod]
    · rw [hmod] at hoff
      omega
  · rintro ⟨rfl, rfl⟩
    exact ⟨rfl, rfl⟩

theorem Same.table (h : c.Same nbs pages pages') : c.table pages' = c.table pages := by
  funext f b s
  rw [CuckooPageCache.table, CuckooPageCache.table, h.bytes]

theorem Same.refl (hs : c.Sound nbs pages) : c.Same nbs pages pages := ⟨hs, rfl, .refl _⟩

theorem Same.trans {pages'' : CuckooPages} (h : c.Same nbs pages pages')
    (h' : c.Same nbs pages' pages'') : c.Same nbs pages pages'' :=
  ⟨h'.sound, h'.bytes.trans h.bytes, h.keeps.trans h'.keeps⟩

/-- One slot of a bucket is written. -/
structure SlotWritten (c : CuckooPageCache) (nbs : UInt16 → Except Error UInt32)
    (pages pages' : CuckooPages) (f : UInt16) (b : UInt32) (pos : ℕ) (v : UInt8) : Prop where
  written : c.Written nbs pages pages' f (c.getBucketLocation b).1
    ((c.getBucketLocation b).2 + pos) v
  pos_lt : pos < c.bucketSize.toNat

theorem SlotWritten.table {pos : ℕ} (hc : c.Valid) (h : c.SlotWritten nbs pages pages' f b pos v) :
    c.table pages' f = Buckets.set (c.table pages f) b pos v := by
  funext b' s'
  simp only [CuckooPageCache.table, Buckets.set, h.written.bytes, true_and]
  by_cases hs' : s' < c.bucketSize.toNat
  · simp only [if_pos hs', location_inj hc h.pos_lt hs']
  · rw [if_neg hs', if_neg hs', if_neg]
    rintro ⟨-, rfl⟩
    exact hs' h.pos_lt

theorem SlotWritten.table_ne {pos : ℕ} {g : UInt16} (h : c.SlotWritten nbs pages pages' f b pos v)
    (hg : g ≠ f) : c.table pages' g = c.table pages g := by
  funext b' s'
  simp only [CuckooPageCache.table, h.written.bytes, if_neg fun hk : g = f ∧ _ => hg hk.1]

theorem getBucketSlot_eq (hst : c.StoredSized nbs) (hs : c.Sound nbs pages)
    (hnb : nbs f = .ok nb) (hslot : s < c.bucketSize.toNat) :
    (c.getBucketSlot f nb b pages s).1 = c.table pages f b s ∧
      c.Same nbs pages (c.getBucketSlot f nb b pages s).2 := by
  have hl := getPageEntryMut_loaded hst hs hnb (c.getBucketLocation b).1
  refine ⟨?_, hl.same⟩
  rw [table, if_pos hslot, ← hl.bytes]
  rfl

section
variable (hc : c.Valid) (hst : c.StoredSized nbs) (hs : c.Sound nbs pages) (hnb : nbs f = .ok nb)
  (hb : b < nb)
include hc hst hs hnb hb

variable (fp) in
theorem setBucketSlotRecorded_spec (hslot : s < c.bucketSize.toNat) (log : List PageSlotUndo) :
    (c.setBucketSlotRecorded f nb b pages s fp log).2 =
        log ++ [⟨f, (c.getBucketLocation b).1, (c.getBucketLocation b).2 + s,
          c.table pages f b s⟩] ∧
      c.SlotWritten nbs pages (c.setBucketSlotRecorded f nb b pages s fp log).1 f b s fp := by
  have hl := getPageEntryMut_loaded hst hs hnb (c.getBucketLocation b).1
  have hle := location_le hc hb
  have hlt : (c.getBucketLocation b).2 + s < c.getExpectedPageSize nb (c.getBucketLocation b).1 := by
    omega
  refine ⟨?_, hl.written hnb (CuckooPageData.ensureMut_length hl.sized)
    (CuckooPageData.ensureMut_getD hl.sized) hlt, hslot⟩
  rw [table, if_pos hslot, ← hl.bytes]
  rfl

variable (fp) in
theorem insertInBucket_spec :
    (∃ pos pages', c.insertInBucket f nb b pages fp =
        (some ((c.getBucketLocation b).2 + pos), pages') ∧
      c.table pages f b pos = 0 ∧ c.SlotWritten nbs pages pages' f b pos fp) ∨
    ∃ pages', c.insertInBucket f nb b pages fp = (none, pages') ∧ c.Same nbs pages pages' ∧
      ∀ s < c.bucketSize.toNat, c.table pages f b s ≠ 0 := by
  have hl := getPageEntryMut_loaded hst hs hnb (c.getBucketLocation b).1
  have hle := location_le hc hb
  have hwrite : ∀ (pos : ℕ) (vec : Bytes), pos < c.bucketSize.toNat →
      vec.length = c.getExpectedPageSize nb (c.getBucketLocation b).1 →
      (∀ o, vec.getD o 0 = (c.getPageEntryMut f nb (c.getBucketLocation b).1 pages).1.getByte o) →
      c.SlotWritten nbs pages ((c.getPageEntryMut f nb (c.getBucketLocation b).1 pages).2.insert
        (f, (c.getBucketLocation b).1)
        (.dirty (vec.set ((c.getBucketLocation b).2 + pos) fp))) f b pos fp :=
    fun pos vec hpos hlen hget => ⟨hl.written hnb hlen hget (by omega), hpos⟩
  have htable : ∀ pos, pos < c.bucketSize.toNat → c.table pages f b pos =
      (c.getPageEntryMut f nb (c.getBucketLocation b).1 pages).1.getByte
        ((c.getBucketLocation b).2 + pos) := fun pos hpos => by
    rw [table, if_pos hpos, hl.bytes]
  unfold insertInBucket
  dsimp only
  generalize c.getPageEntryMut f nb (c.getBucketLocation b).1 pages = r at hl hwrite htable
  obtain ⟨entry, pages'⟩ := r
  have hsized := hl.sized
  cases entry with
  | empty n =>
    refine Or.inl ⟨0, _, rfl, htable 0 hc.bucketSize, hwrite 0 _ hc.bucketSize
      (CuckooPageData.ensureMut_length hsized) (CuckooPageData.ensureMut_getD hsized)⟩
  | clean w =>
    have hlen : w.length = _ := hsized
    simp only [CuckooPageData.getSubslice, if_pos (hlen ▸ hle)]
    cases hm : memchr 0 (slice w (c.getBucketLocation b).2 c.bucketSize.toNat) with
    | some pos =>
      obtain ⟨hpos, hzero⟩ := memchr_slice_some (hlen ▸ hle) hm
      exact Or.inl ⟨pos, _, rfl, (htable pos hpos).trans hzero, hwrite pos _ hpos
        (CuckooPageData.ensureMut_length hsized) (CuckooPageData.ensureMut_getD hsized)⟩
    | none =>
      refine Or.inr ⟨_, rfl, hl.same, fun s hs' => ?_⟩
      rw [htable s hs']
      exact memchr_slice_none (hlen ▸ hle) hm hs'
  | dirty w =>
    have hlen : w.length = _ := hsized
    have hresize : resize w ((c.getBucketLocation b).2 + c.bucketSize.toNat) = w := by
      rw [resize, Nat.sub_eq_zero_of_le (hlen ▸ hle), List.replicate_zero, List.append_nil]
    simp only [hresize]
    cases hm : memchr 0 (slice w (c.getBucketLocation b).2 c.bucketSize.toNat) with
    | some pos =>
      obtain ⟨hpos, hzero⟩ := memchr_slice_some (hlen ▸ hle) hm
      exact Or.inl ⟨pos, _, rfl, (htable pos hpos).trans hzero, hwrite pos w hpos hlen fun _ => rfl⟩
    | none =>
      refine Or.inr ⟨_, rfl, hl.insert_same hnb, fun s hs' => ?_⟩
      rw [htable s hs']
      exact memchr_slice_none (hlen ▸ hle) hm hs'

theorem search_spec (hfp : fp ≠ 0) :
    (∃ pos < c.bucketSize.toNat, (((c.getPageEntryMut f nb (c.getBucketLocation b).1 pages).1
        |>.getSubslice (c.getBucketLocation b).2 c.bucketSize.toNat).bind (memchr fp)) = some pos ∧
      c.table pages f b pos = fp) ∨
    (((c.getPageEntryMut f nb (c.getBucketLocation b).1 pages).1
        |>.getSubslice (c.getBucketLocation b).2 c.bucketSize.toNat).bind (memchr fp)) = none ∧
      ∀ s < c.bucketSize.toNat, c.table pages f b s ≠ fp := by
  have hl := getPageEntryMut_loaded hst hs hnb (c.getBucketLocation b).1
  have hle := location_le hc hb
  cases hm : (((c.getPageEntryMut f nb (c.getBucketLocation b).1 pages).1
      |>.getSubslice (c.getBucketLocation b).2 c.bucketSize.toNat).bind (memchr fp)) with
  | some pos =>
    obtain ⟨hpos, hv⟩ := CuckooPageData.search_some hl.sized hle hm
    refine Or.inl ⟨pos, hpos, rfl, ?_⟩
    rw [table, if_pos hpos, ← hl.bytes]
    exact hv
  | none =>
    refine Or.inr ⟨rfl, fun s hs' => ?_⟩
    rw [table, if_pos hs', ← hl.bytes]
    exact CuckooPageData.search_none hl.sized hle hfp hm hs'

theorem containsInBucket_spec (hfp : fp ≠ 0) :
    ((c.containsInBucket f nb b pages fp).1 = true ↔
        ∃ s < c.bucketSize.toNat, c.table pages f b s = fp) ∧
      c.Same nbs pages (c.containsInBucket f nb b pages fp).2 := by
  have hl := getPageEntryMut_loaded hst hs hnb (c.getBucketLocation b).1
  have hsearch := search_spec hc hst hs hnb hb hfp
  have hres : c.containsInBucket f nb b pages fp =
      ((((c.getPageEntryMut f nb (c.getBucketLocation b).1 pages).1 |>.getSubslice
        (c.getBucketLocation b).2 c.bucketSize.toNat).bind (memchr fp)).isSome,
      (c.getPageEntryMut f nb (c.getBucketLocation b).1 pages).2) := by
    unfold containsInBucket
    dsimp only
    cases (c.getPageEntryMut f nb (c.getBucketLocation b).1 pages).1.getSubslice
      (c.getBucketLocation b).2 c.bucketSize.toNat <;> rfl
  rw [hres]
  refine ⟨?_, hl.same⟩
  rcases hsearch with ⟨pos, hpos, hm, hv⟩ | ⟨hm, hne⟩
  · rw [hm]
    exact iff_of_true rfl ⟨pos, hpos, hv⟩
  · rw [hm]
    exact iff_of_false Bool.false_ne_true fun ⟨s, hs', hv⟩ => hne s hs' hv

theorem countInBucket_spec (hfp : fp ≠ 0) :
    (c.countInBucket f nb b pages fp).1 =
        ((Finset.range c.bucketSize.toNat).filter fun s => c.table pages f b s = fp).card ∧
      c.Same nbs pages (c.countInBucket f nb b pages fp).2 := by
  have hl := getPageEntryMut_loaded hst hs hnb (c.getBucketLocation b).1
  have hle := location_le hc hb
  have htable : ∀ s ∈ Finset.range c.bucketSize.toNat, (c.table pages f b s = fp ↔
      (c.getPageEntryMut f nb (c.getBucketLocation b).1 pages).1.getByte
        ((c.getBucketLocation b).2 + s) = fp) := fun s hs' => by
    rw [table, if_pos (Finset.mem_range.mp hs'), hl.bytes]
  rw [Finset.filter_congr htable]
  unfold countInBucket
  dsimp only
  generalize c.getPageEntryMut f nb (c.getBucketLocation b).1 pages = r at hl
  obtain ⟨entry, pages'⟩ := r
  cases entry with
  | clean w | dirty w =>
    have hlen : w.length = _ := hl.sized
    simp only [CuckooPageData.getSubslice, if_pos (hlen ▸ hle)]
    exact ⟨CuckooPageData.count_slice (hlen ▸ hle) fp, hl.same⟩
  | empty n =>
    exact ⟨(Finset.card_eq_zero.mpr (Finset.filter_eq_empty_iff.mpr fun s _ => Ne.symm hfp)).symm,
      hl.same⟩

theorem deleteFromBucket_spec (hfp : fp ≠ 0) :
    (∃ pos pages', c.deleteFromBucket f nb b pages fp = (true, pages') ∧
      c.table pages f b pos = fp ∧ c.SlotWritten nbs pages pages' f b pos 0) ∨
    ∃ pages', c.deleteFromBucket f nb b pages fp = (false, pages') ∧ c.Same nbs pages pages' ∧
      ∀ s < c.bucketSize.toNat, c.table pages f b s ≠ fp := by
  have hl := getPageEntryMut_loaded hst hs hnb (c.getBucketLocation b).1
  have hle := location_le hc hb
  have hsearch := search_spec hc hst hs hnb hb hfp
  unfold deleteFromBucket
  dsimp only
  generalize c.getPageEntryMut f nb (c.getBucketLocation b).1 pages = r at hl hsearch
  obtain ⟨entry, pages'⟩ := r
  rcases hsearch with ⟨pos, hpos, hm, hv⟩ | ⟨hm, hne⟩
  · have hlt : (c.getBucketLocation b).2 + pos <
        c.getExpectedPageSize nb (c.getBucketLocation b).1 := by
      omega
    rw [hm]
    refine Or.inl ⟨pos, _, rfl, hv, ?_, hpos⟩
    have hsized := hl.sized
    cases entry with
    | clean w | empty w =>
      exact hl.written hnb (CuckooPageData.ensureMut_length hsized)
        (CuckooPageData.ensureMut_getD hsized) hlt
    | dirty w => exact hl.written hnb hsized (fun _ => rfl) hlt
  · rw [hm]
    exact Or.inr ⟨_, rfl, hl.same, hne⟩

end

end

end CuckooPageCache

end Wedb
