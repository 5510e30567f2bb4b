import Wedb.Cuckoo.Impl
import Wedb.Cuckoo.Slots

/-!
# Kicking out

The two buckets of an item are paired in every sub-filter, and pairs of a larger
sub-filter are pairs of a smaller one. Each step of a kick-out keeps the weight
of the table with the print in hand, so a kick-out that ends adds the item's
weight; one that gives up undoes its log and leaves every byte as it was.
-/

namespace Wedb

open CuckooFilterHelper

/-! ## The geometry of a chain -/

def bucketRange (nb : UInt32) : Finset UInt32 := (Finset.range nb.toNat).image UInt32.ofNat

theorem mem_bucketRange {nb b : UInt32} : b ∈ bucketRange nb ↔ b < nb := by
  simp only [bucketRange, Finset.mem_image, Finset.mem_range, UInt32.lt_iff_toNat_lt]
  constructor
  · rintro ⟨n, hn, rfl⟩
    rwa [UInt32.toNat_ofNat_of_lt' (hn.trans nb.toNat_lt)]
  · intro hb
    exact ⟨b.toNat, hb, UInt32.ofNat_toNat⟩

theorem card_bucketRange_le (nb : UInt32) : (bucketRange nb).card ≤ nb.toNat :=
  Finset.card_image_le.trans_eq (Finset.card_range _)

namespace CuckooChainMeta

def numBuckets (m : CuckooChainMeta) (f : UInt16) : UInt32 :=
  (m.subFilterNumBuckets f).toOption.getD 1

theorem numBuckets_of_ok {m : CuckooChainMeta} {f : UInt16} {nb : UInt32}
    (h : m.subFilterNumBuckets f = .ok nb) : m.numBuckets f = nb := by
  rw [numBuckets, h]
  rfl

def geometry (m : CuckooChainMeta) : Buckets.Geometry UInt16 UInt32 UInt8 UInt64 where
  ok f := ∃ nb, m.subFilterNumBuckets f = .ok nb
  buckets f := bucketRange (m.numBuckets f)
  home f h := firstBucket h (m.numBuckets f)
  alt f b v := getAltBucketIndex b v (m.numBuckets f)
  print := generateFingerprint
  home_mem := by
    rintro f x ⟨nb, hnb⟩
    obtain ⟨k, -, hk⟩ := subFilterNumBuckets_pow hnb
    rw [numBuckets_of_ok hnb, mem_bucketRange]
    exact and_mask_lt hk _
  alt_mem := by
    rintro f b v ⟨nb, hnb⟩ -
    obtain ⟨k, -, hk⟩ := subFilterNumBuckets_pow hnb
    rw [numBuckets_of_ok hnb, mem_bucketRange]
    exact and_mask_lt hk _
  alt_alt := by
    rintro f b v ⟨nb, hnb⟩ hb
    obtain ⟨k, -, hk⟩ := subFilterNumBuckets_pow hnb
    rw [numBuckets_of_ok hnb, mem_bucketRange] at hb
    rw [numBuckets_of_ok hnb]
    exact getAltBucketIndex_involutive v (and_mask_of_lt hk hb)
  nested := by
    rintro f g x y ⟨nf, hf⟩ ⟨ng, hg⟩ hgf - hpair
    obtain ⟨k, -, hk⟩ := subFilterNumBuckets_pow hf
    obtain ⟨k', -, hk'⟩ := subFilterNumBuckets_pow hg
    have hmask := mask_subset hk hk' (subFilterNumBuckets_mono hgf hg hf)
    have hhome : ∀ h : UInt64, firstBucket h ng = firstBucket h nf &&& (ng - 1) := fun h =>
      (and_and_of_subset hmask).symm
    rw [numBuckets_of_ok hf] at hpair
    rw [numBuckets_of_ok hg, hhome y]
    rcases hpair with h | h
    · rw [h, ← hhome x]
      exact Or.inl rfl
    · rw [h, getAltBucketIndex_eq, xor_and_of_subset hmask, ← hhome x, ← getAltBucketIndex_eq]
      exact Or.inr rfl

theorem print_ne_zero (m : CuckooChainMeta) (x : UInt64) : m.geometry.print x ≠ 0 :=
  generateFingerprint_ne_zero x

end CuckooChainMeta

namespace CuckooPageCache

/-! ## Undoing -/

def undoBytes (g : UInt16 → UInt32 → ℕ → UInt8) (log : List PageSlotUndo) :
    UInt16 → UInt32 → ℕ → UInt8 :=
  log.reverse.foldl (fun g u f p o =>
    if f = u.filterIdx ∧ p = u.pageIdx ∧ o = u.byteOffset then u.oldFp else g f p o) g

/-- The logged bytes lie in dirty pages. -/
def LogDirty (pages : CuckooPages) (log : List PageSlotUndo) : Prop :=
  ∀ u ∈ log, ∃ vec, pages.lookup (u.filterIdx, u.pageIdx) = some (.dirty vec) ∧
    u.byteOffset < vec.length

variable {c : CuckooPageCache} {nbs : UInt16 → Except Error UInt32} {pages pages' : CuckooPages}
  {log : List PageSlotUndo} {u : PageSlotUndo} {f : UInt16} {nb : UInt32}

theorem LogDirty.keeps (h : LogDirty pages log) (hk : KeepsDirty pages pages') :
    LogDirty pages' log := by
  intro u hu
  obtain ⟨vec, hvec, hlt⟩ := h u hu
  obtain ⟨vec', hvec', hlen⟩ := hk _ vec hvec
  exact ⟨vec', hvec', hlen ▸ hlt⟩

theorem undoOne_spec (hs : c.Sound nbs pages)
    (hu : ∃ vec, pages.lookup (u.filterIdx, u.pageIdx) = some (.dirty vec) ∧
      u.byteOffset < vec.length) :
    c.Written nbs pages (undoOne pages u) u.filterIdx u.pageIdx u.byteOffset u.oldFp := by
  obtain ⟨vec, hvec, hlt⟩ := hu
  have hundo : undoOne pages u = pages.insert (u.filterIdx, u.pageIdx)
      (.dirty (vec.set u.byteOffset u.oldFp)) := by
    simp only [undoOne, hvec, if_pos hlt]
  rw [hundo]
  refine ⟨hs.replace_dirty hvec (by simp), fun g q o => ?_, fun k w hk => ?_, _,
    AList.lookup_insert _, by simpa using hlt⟩
  · rw [byte_insert_dirty, getD_set hlt]
    by_cases hk : g = u.filterIdx ∧ q = u.pageIdx
    · obtain ⟨rfl, rfl⟩ := hk
      simp only [true_and, and_self, if_true, byte, hvec]
      rfl
    · rw [if_neg hk, if_neg fun hc => hk ⟨hc.1, hc.2.1⟩]
  · by_cases hkf : k = (u.filterIdx, u.pageIdx)
    · subst hkf
      rw [hvec] at hk
      cases hk
      exact ⟨_, AList.lookup_insert _, by simp⟩
    · exact ⟨w, by rw [AList.lookup_insert_ne hkf, hk], rfl⟩

theorem applyUndoLog_spec (hs : c.Sound nbs pages) (hlog : LogDirty pages log) :
    c.Sound nbs (applyUndoLog pages log) ∧
      c.byte (applyUndoLog pages log) = undoBytes (c.byte pages) log := by
  unfold applyUndoLog undoBytes
  have hrev : LogDirty pages log.reverse := fun u hu => hlog u (List.mem_reverse.mp hu)
  clear hlog
  generalize log.reverse = l at hrev
  induction l generalizing pages with
  | nil => exact ⟨hs, rfl⟩
  | cons u l ih =>
    have hw := undoOne_spec (c := c) hs (hrev u (by simp))
    have hrest : LogDirty (undoOne pages u) l :=
      LogDirty.keeps (fun x hx => hrev x (by simp [hx])) hw.keeps
    obtain ⟨hsound, hbyte⟩ := ih hw.sound hrest
    refine ⟨hsound, hbyte.trans ?_⟩
    rw [List.foldl_cons]
    congr 1
    funext g q o
    exact hw.bytes g q o

theorem undoBytes_concat (g : UInt16 → UInt32 → ℕ → UInt8) (log : List PageSlotUndo)
    (u : PageSlotUndo) : undoBytes g (log ++ [u]) = undoBytes (fun f p o =>
      if f = u.filterIdx ∧ p = u.pageIdx ∧ o = u.byteOffset then u.oldFp else g f p o) log := by
  rw [undoBytes, undoBytes, List.reverse_append, List.reverse_singleton, List.singleton_append,
    List.foldl_cons]

theorem Written.undo {p : UInt32} {offset : ℕ} {v : UInt8}
    (h : c.Written nbs pages pages' f p offset v) (log : List PageSlotUndo) :
    undoBytes (c.byte pages') (log ++ [⟨f, p, offset, c.byte pages f p offset⟩]) =
      undoBytes (c.byte pages) log := by
  rw [undoBytes_concat]
  congr 1
  funext g q o
  rw [h.bytes]
  dsimp only
  split_ifs with hk
  · obtain ⟨rfl, rfl, rfl⟩ := hk
    rfl
  · rfl

theorem Written.logDirty {p : UInt32} {offset : ℕ} {v old : UInt8}
    (h : c.Written nbs pages pages' f p offset v) (hlog : LogDirty pages log) :
    LogDirty pages' (log ++ [⟨f, p, offset, old⟩]) := by
  intro u hu
  rcases List.mem_append.mp hu with hu | hu
  · exact hlog.keeps h.keeps u hu
  · rw [List.mem_singleton] at hu
    subst hu
    exact h.dirty

/-! ## The loop -/

/-- The weight of sub-filter `f` with the print in hand; the others are as in `T`. -/
structure InHand (c : CuckooPageCache) (m : CuckooChainMeta) (f : UInt16)
    (T : UInt16 → UInt32 → ℕ → UInt8) (N : (UInt32 → UInt8 → Bool) → ℕ) (pages : CuckooPages)
    (b : UInt32) (fp : UInt8) : Prop where
  others : ∀ g, g ≠ f → c.table pages g = T g
  weight : ∀ Q, m.geometry.Symmetric f Q →
    Buckets.count (m.geometry.buckets f) (Finset.range c.bucketSize.toNat) (c.table pages f) Q +
      (Q b fp).toNat = N Q

variable {m : CuckooChainMeta} {T : UInt16 → UInt32 → ℕ → UInt8}
  {N : (UInt32 → UInt8 → Bool) → ℕ} {b : UInt32} {fp old : UInt8} {pos : ℕ}

theorem InHand.same (h : c.InHand m f T N pages b fp) (hsame : c.Same nbs pages pages') :
    c.InHand m f T N pages' b fp :=
  ⟨fun g hg => by rw [hsame.table, h.others g hg], fun Q hQ => by rw [hsame.table, h.weight Q hQ]⟩

theorem InHand.write (hc : c.Valid) (h : c.InHand m f T N pages b fp)
    (hb : b ∈ m.geometry.buckets f) (hw : c.SlotWritten nbs pages pages' f b pos fp) :
    c.InHand m f T N pages' b (c.table pages f b pos) := by
  refine ⟨fun g hg => by rw [hw.table_ne hg, h.others g hg], fun Q hQ => ?_⟩
  rw [hw.table hc, Buckets.count_set Q fp hb (Finset.mem_range.mpr hw.pos_lt), h.weight Q hQ]

theorem InHand.alt (h : c.InHand m f T N pages b fp) (hb : b ∈ m.geometry.buckets f) :
    c.InHand m f T N pages (m.geometry.alt f b fp) fp :=
  ⟨h.others, fun Q hQ => by rw [hQ.alt b hb, h.weight Q hQ]⟩

theorem InHand.weight_of_zero (h : c.InHand m f T N pages b 0) {Q : UInt32 → UInt8 → Bool}
    (hQ : m.geometry.Symmetric f Q) :
    Buckets.count (m.geometry.buckets f) (Finset.range c.bucketSize.toNat) (c.table pages f) Q =
      N Q := by
  rw [← h.weight Q hQ, hQ.zero, Bool.toNat_false, add_zero]

theorem kickoutLoop_spec (hc : c.Valid) (hst : c.StoredSized m.subFilterNumBuckets)
    (hnb : m.subFilterNumBuckets f = .ok nb) (victim : ℕ → ℕ) (n i : ℕ)
    (hs : c.Sound m.subFilterNumBuckets pages) (hlog : LogDirty pages log) (hb : b < nb)
    (hhand : c.InHand m f T N pages b fp) :
    (∃ pages' b', c.kickoutLoop f nb victim n i pages log b fp = (true, pages') ∧
      c.Sound m.subFilterNumBuckets pages' ∧ c.InHand m f T N pages' b' 0) ∨
    ∃ pages', c.kickoutLoop f nb victim n i pages log b fp = (false, pages') ∧
      c.Sound m.subFilterNumBuckets pages' ∧ c.byte pages' = undoBytes (c.byte pages) log := by
  have hok : m.geometry.ok f := ⟨nb, hnb⟩
  have hrange : ∀ {b : UInt32}, b ∈ m.geometry.buckets f ↔ b < nb := fun {b} => by
    rw [← CuckooChainMeta.numBuckets_of_ok hnb]
    exact mem_bucketRange
  induction n generalizing i pages log b fp with
  | zero =>
    obtain ⟨hsound, hbyte⟩ := applyUndoLog_spec hs hlog
    exact Or.inr ⟨_, rfl, hsound, hbyte⟩
  | succ n ih =>
    have hslot : victim i % c.bucketSize.toNat < c.bucketSize.toNat := Nat.mod_lt _ hc.bucketSize
    obtain ⟨hold, hsame⟩ := getBucketSlot_eq (b := b) hst hs hnb hslot
    rw [kickoutLoop]
    dsimp only
    generalize c.getBucketSlot f nb b pages (victim i % c.bucketSize.toNat) = r at hold hsame
    obtain ⟨old, pages1⟩ := r
    dsimp only at hold hsame ⊢
    subst hold
    obtain ⟨hlog2, hw⟩ := setBucketSlotRecorded_spec fp hc hst hsame.sound hnb hb hslot log
    generalize c.setBucketSlotRecorded f nb b pages1 (victim i % c.bucketSize.toNat) fp log = r
      at hlog2 hw
    obtain ⟨pages2, log2⟩ := r
    dsimp only at hlog2 hw ⊢
    rw [hsame.table] at hlog2
    have hbyte : c.table pages f b (victim i % c.bucketSize.toNat) =
        c.byte pages1 f (c.getBucketLocation b).1
          ((c.getBucketLocation b).2 + victim i % c.bucketSize.toNat) := by
      rw [← hsame.table, table, if_pos hslot]
    have hundo2 : undoBytes (c.byte pages2) log2 = undoBytes (c.byte pages) log := by
      rw [hlog2, hbyte, hw.written.undo log, hsame.bytes]
    have hlogDirty2 : LogDirty pages2 log2 := by
      rw [hlog2]
      exact hw.written.logDirty (hlog.keeps hsame.keeps)
    have hhand2 := (hhand.same hsame).write hc (hrange.mpr hb) hw
    rw [hsame.table] at hhand2
    generalize c.table pages f b (victim i % c.bucketSize.toNat) = old at hhand2
    split_ifs with hzero
    · subst hzero
      exact Or.inl ⟨pages2, b, rfl, hw.written.sound, hhand2⟩
    · have halt := hhand2.alt (hrange.mpr hb)
      have haltb : m.geometry.alt f b old = getAltBucketIndex b old nb := by
        rw [← CuckooChainMeta.numBuckets_of_ok hnb]
        rfl
      have haltlt := hrange.mp (m.geometry.alt_mem old hok (hrange.mpr hb))
      rw [haltb] at halt haltlt
      rcases insertInBucket_spec old hc hst hw.written.sound hnb haltlt with
        ⟨pos, pages3, hins, hempty, hw3⟩ | ⟨pages3, hins, hsame3, -⟩
      · simp only [tryInsertInBucketRecorded, hins]
        have hhand3 := halt.write hc (hrange.mpr haltlt) hw3
        rw [hempty] at hhand3
        exact Or.inl ⟨pages3, _, rfl, hw3.written.sound, hhand3⟩
      · simp only [tryInsertInBucketRecorded, hins]
        have hnext := ih (i + 1) hsame3.sound (hlogDirty2.keeps hsame3.keeps) haltlt
          (halt.same hsame3)
        rwa [hsame3.bytes, hundo2] at hnext

/-- A kick-out that ends makes the sub-filter grow by the item; a failed one
restores every slot. -/
theorem tryCuckooKickout_spec (hc : c.Valid) (hst : c.StoredSized m.subFilterNumBuckets)
    (hnb : m.subFilterNumBuckets f = .ok nb) (maxIterations : UInt16) (victim : ℕ → ℕ)
    (hs : c.Sound m.subFilterNumBuckets pages) (h : UInt64) :
    (∃ pages', c.tryCuckooKickout f nb maxIterations victim pages h (generateFingerprint h) =
        (true, pages') ∧ c.Sound m.subFilterNumBuckets pages' ∧
      m.geometry.Grows (Finset.range c.bucketSize.toNat) f h (c.table pages) (c.table pages')) ∨
    ∃ pages', c.tryCuckooKickout f nb maxIterations victim pages h (generateFingerprint h) =
        (false, pages') ∧ c.Sound m.subFilterNumBuckets pages' ∧
      c.table pages' = c.table pages := by
  have hhome : m.geometry.home f h = firstBucket h nb := by
    rw [← CuckooChainMeta.numBuckets_of_ok hnb]
    rfl
  have hb : firstBucket h nb < nb := by
    have hmem := m.geometry.home_mem (f := f) (x := h) ⟨nb, hnb⟩
    rw [hhome] at hmem
    rw [← CuckooChainMeta.numBuckets_of_ok hnb]
    rw [← CuckooChainMeta.numBuckets_of_ok hnb] at hmem
    exact mem_bucketRange.mp hmem
  have hlog : LogDirty pages [] := fun u hu => by cases hu
  have hhand : c.InHand m f (c.table pages) (fun Q => Buckets.count (m.geometry.buckets f)
      (Finset.range c.bucketSize.toNat) (c.table pages f) Q +
        (Q (firstBucket h nb) (generateFingerprint h)).toNat) pages (firstBucket h nb)
      (generateFingerprint h) := ⟨fun _ _ => rfl, fun _ _ => rfl⟩
  rcases kickoutLoop_spec hc hst hnb victim maxIterations.toNat 0 hs hlog hb hhand with
    ⟨pages', b', hrun, hsound, hend⟩ | ⟨pages', hrun, hsound, hbyte⟩
  · refine Or.inl ⟨pages', hrun, hsound, hend.others, fun Q hQ => ?_⟩
    rw [hhome]
    exact hend.weight_of_zero hQ
  · refine Or.inr ⟨pages', hrun, hsound, ?_⟩
    funext g b s
    rw [table, table, hbyte]
    rfl

end CuckooPageCache

end Wedb
