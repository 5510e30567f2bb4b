import Wedb.Key.Cleanup
import Wedb.Ordered.Saturating

/-!
# Deadlines

EXPIRE and its relatives turn their argument into an absolute time in 64-bit
arithmetic and move the expiry of the type that is live under the key. A target
of zero is the mark of no expiry, and a target past the word wraps.
-/

namespace Wedb

section
variable (e : Engine) (kc : KeyComposer) (key : Key) (nowMs : UInt64)

def setKeyExpireAt (expireAtMs : UInt64) (cond : ExpireCondition) :
    Except Error (Bool × Engine) := do
  let r := setKeyExpireAtImplWithCondition e.store kc key nowMs expireAtMs cond
  let e' ← e.commit r.2
  return (r.1, e')

def persist : Except Error (Bool × Engine) := setKeyExpireAt e kc key nowMs 0 .none

def expire (ttlSec : UInt64) : Except Error (Bool × Engine) :=
  setKeyExpireAt e kc key nowMs (nowMs + ttlSec * 1000) .none

def expireWithCondition (ttlSec : UInt64) (cond : ExpireCondition) : Except Error (Bool × Engine) :=
  setKeyExpireAt e kc key nowMs (nowMs + ttlSec * 1000) cond

def pexpire (ttlMs : UInt64) : Except Error (Bool × Engine) :=
  setKeyExpireAt e kc key nowMs (nowMs + ttlMs) .none

def pexpireWithCondition (ttlMs : UInt64) (cond : ExpireCondition) : Except Error (Bool × Engine) :=
  setKeyExpireAt e kc key nowMs (nowMs + ttlMs) cond

def expireat (unixSec : UInt64) : Except Error (Bool × Engine) :=
  setKeyExpireAt e kc key nowMs (unixSec * 1000) .none

def expireatWithCondition (unixSec : UInt64) (cond : ExpireCondition) :
    Except Error (Bool × Engine) :=
  setKeyExpireAt e kc key nowMs (unixSec * 1000) cond

def pexpireat (unixMs : UInt64) : Except Error (Bool × Engine) :=
  setKeyExpireAt e kc key nowMs unixMs .none

def pexpireatWithCondition (unixMs : UInt64) (cond : ExpireCondition) :
    Except Error (Bool × Engine) :=
  setKeyExpireAt e kc key nowMs unixMs cond

def queryKeyExpireInfo (mapLiveTtl : UInt64 → UInt64 → ℤ) : ℤ :=
  match getKeyExpireAtImpl e.store kc key nowMs with
  | some exp => if exp = 0 then -1 else if nowMs ≥ exp then -2 else mapLiveTtl exp nowMs
  | none => -2

def pexpiretime : ℤ := queryKeyExpireInfo e kc key nowMs fun exp _ => exp.asI64

end

inductive ExpireCall
  | expire (ttlSec : UInt64)
  | expireWithCondition (ttlSec : UInt64) (cond : ExpireCondition)
  | pexpire (ttlMs : UInt64)
  | pexpireWithCondition (ttlMs : UInt64) (cond : ExpireCondition)
  | expireat (unixSec : UInt64)
  | expireatWithCondition (unixSec : UInt64) (cond : ExpireCondition)
  | pexpireat (unixMs : UInt64)
  | pexpireatWithCondition (unixMs : UInt64) (cond : ExpireCondition)

namespace ExpireCall

def run (e : Engine) (kc : KeyComposer) (key : Key) (nowMs : UInt64) :
    ExpireCall → Except Error (Bool × Engine)
  | expire ttlSec => Wedb.expire e kc key nowMs ttlSec
  | expireWithCondition ttlSec cond => Wedb.expireWithCondition e kc key nowMs ttlSec cond
  | pexpire ttlMs => Wedb.pexpire e kc key nowMs ttlMs
  | pexpireWithCondition ttlMs cond => Wedb.pexpireWithCondition e kc key nowMs ttlMs cond
  | expireat unixSec => Wedb.expireat e kc key nowMs unixSec
  | expireatWithCondition unixSec cond => Wedb.expireatWithCondition e kc key nowMs unixSec cond
  | pexpireat unixMs => Wedb.pexpireat e kc key nowMs unixMs
  | pexpireatWithCondition unixMs cond => Wedb.pexpireatWithCondition e kc key nowMs unixMs cond

def target (nowMs : UInt64) : ExpireCall → ℕ
  | expire ttlSec | expireWithCondition ttlSec _ => nowMs.toNat + 1000 * ttlSec.toNat
  | pexpire ttlMs | pexpireWithCondition ttlMs _ => nowMs.toNat + ttlMs.toNat
  | expireat unixSec | expireatWithCondition unixSec _ => 1000 * unixSec.toNat
  | pexpireat unixMs | pexpireatWithCondition unixMs _ => unixMs.toNat

def cond : ExpireCall → ExpireCondition
  | expireWithCondition _ c | pexpireWithCondition _ c | expireatWithCondition _ c
  | pexpireatWithCondition _ c => c
  | _ => .none

theorem run_eq (e : Engine) (kc : KeyComposer) (key : Key) (now : UInt64) (call : ExpireCall) :
    call.run e kc key now =
      setKeyExpireAt e kc key now (UInt64.ofNat (call.target now)) call.cond := by
  have hsec : ∀ ttlSec : UInt64, UInt64.ofNat (now.toNat + 1000 * ttlSec.toNat) =
      now + ttlSec * 1000 := fun ttlSec => by
    rw [UInt64.ofNat_add, UInt64.ofNat_mul, UInt64.ofNat_toNat, UInt64.ofNat_toNat, UInt64.mul_comm]
    rfl
  have hms : ∀ ttlMs : UInt64, UInt64.ofNat (now.toNat + ttlMs.toNat) = now + ttlMs :=
    fun ttlMs => by rw [UInt64.ofNat_add, UInt64.ofNat_toNat, UInt64.ofNat_toNat]
  have hat : ∀ unixSec : UInt64, UInt64.ofNat (1000 * unixSec.toNat) = unixSec * 1000 :=
    fun unixSec => by
      rw [UInt64.ofNat_mul, UInt64.ofNat_toNat, UInt64.mul_comm]
      rfl
  cases call <;>
    simp only [run, target, cond, hsec, hms, hat, UInt64.ofNat_toNat] <;> rfl

end ExpireCall

/-! ## The expiry field -/

def patchAt (bs : Bytes) (off : ℕ) (exp : UInt64) : Bytes :=
  bs.take off ++ exp.toBeBytes ++ bs.drop (off + 8)

section
variable {bs : Bytes} {off n : ℕ} {exp : UInt64}

variable (exp) in
theorem patchAt_length (h : off + 8 ≤ bs.length) : (patchAt bs off exp).length = bs.length := by
  simp only [patchAt, List.length_append, List.length_take, List.length_drop,
    UInt64.toBeBytes_length]
  omega

theorem readU64_patchAt_self (h : off + 8 ≤ bs.length) :
    readU64 (patchAt bs off exp) off = exp := by
  rw [patchAt, List.append_assoc]
  exact KeyMeta.readU64_append exp (List.length_take_of_le (by omega))

theorem readU64_patchAt_of_le (h : off + 8 ≤ bs.length) (hn : off + 8 ≤ n) :
    readU64 (patchAt bs off exp) n = readU64 bs n := by
  have hlen : (bs.take off ++ exp.toBeBytes).length = off + 8 := by
    rw [List.length_append, List.length_take_of_le (by omega), UInt64.toBeBytes_length]
  have hdrop : (patchAt bs off exp).drop n = bs.drop n := by
    rw [patchAt, List.drop_append, hlen, List.drop_drop, List.drop_of_length_le (by omega),
      List.nil_append]
    congr 1
    omega
  rw [readU64, readU64, slice, slice, hdrop]

theorem getD_patchAt (h : off + 8 ≤ bs.length) (hn : n < off) :
    (patchAt bs off exp).getD n 0 = bs.getD n 0 := by
  rw [List.getD_eq_getElem?_getD, List.getD_eq_getElem?_getD, patchAt, List.append_assoc,
    List.getElem?_append_left (by rw [List.length_take]; omega), List.getElem?_take, if_pos hn]

theorem decode_eq (hne : 0 < bs.length) : KeyMeta.decode bs =
    if bs.length ≥ KeyMeta.encodedSize ∧ bs.getD 0 0 ≤ 14 then
      some ⟨.fromU8 (bs.getD 0 0), bs.getD 1 0, readU64 bs 2, readU64 bs 10, readU64 bs 18⟩
    else if bs.getD 0 0 &&& KeyMeta.meta64bitEncodingMask ≠ 0 then
      let rtype := RedisType.fromU8 (bs.getD 0 0 &&& KeyMeta.metaTypeMask)
      if rtype.isSingleKvType then
        if bs.length < KeyMeta.kvrocksSingleKvEncodedSize then none
        else some ⟨rtype, bs.getD 0 0, readU64 bs 1, 0, 0⟩
      else if bs.length ≥ KeyMeta.kvrocksComplexEncodedSize then
        some ⟨rtype, bs.getD 0 0, readU64 bs 1, readU64 bs 9, readU64 bs 17⟩
      else none
    else none := by
  cases bs with
  | nil => exact absurd hne (lt_irrefl _)
  | cons first rest => rfl

theorem headD_eq_getD (bs : Bytes) : bs.headD 0 = bs.getD 0 0 := by
  cases bs <;> rfl

theorem decode_patchAt_standard (hlen : bs.length ≥ KeyMeta.encodedSize) (hfirst : bs.getD 0 0 ≤ 14) :
    KeyMeta.decode (patchAt bs 2 exp) =
      (KeyMeta.decode bs).map fun m => { m with expireAt := exp } := by
  have hroom : 2 + 8 ≤ bs.length := le_trans (by decide) hlen
  have hplen := patchAt_length exp hroom
  rw [decode_eq (by omega), decode_eq (by omega), hplen, getD_patchAt hroom (by omega),
    getD_patchAt hroom (by omega), if_pos ⟨hlen, hfirst⟩, if_pos ⟨hlen, hfirst⟩,
    readU64_patchAt_self hroom, readU64_patchAt_of_le hroom (by omega),
    readU64_patchAt_of_le hroom (by omega)]
  rfl

theorem decode_patchAt_kvrocks (hlen : bs.length ≥ KeyMeta.kvrocksSingleKvEncodedSize)
    (hfirst : ¬bs.getD 0 0 ≤ 14) :
    KeyMeta.decode (patchAt bs 1 exp) =
      (KeyMeta.decode bs).map fun m => { m with expireAt := exp } := by
  have hroom : 1 + 8 ≤ bs.length := le_trans (by decide) hlen
  have hplen := patchAt_length exp hroom
  have hstd : ¬(bs.length ≥ KeyMeta.encodedSize ∧ bs.getD 0 0 ≤ 14) := fun h => hfirst h.2
  rw [decode_eq (by omega), decode_eq (by omega), hplen, getD_patchAt hroom (by omega),
    if_neg hstd, readU64_patchAt_self hroom,
    readU64_patchAt_of_le hroom (by omega), readU64_patchAt_of_le hroom (by omega)]
  simp only
  split_ifs <;> rfl

theorem and_mask_of_le {x : UInt8} (h : x.toNat ≤ 14) :
    x &&& KeyMeta.meta64bitEncodingMask = 0 := by
  rw [← UInt8.ofNat_toNat (x := x)]
  generalize x.toNat = n at h
  interval_cases n <;> rfl

theorem patchExpireAt_of_decode {m : KeyMeta} (hm : KeyMeta.decode bs = some m) (exp : UInt64) :
    ∃ off, off + 8 ≤ bs.length ∧ patchExpireAt bs exp = some (patchAt bs off exp) ∧
      KeyMeta.decode (patchAt bs off exp) = some { m with expireAt := exp } := by
  have hne : 0 < bs.length := by
    cases bs with
    | nil => cases hm
    | cons first rest => exact Nat.succ_pos _
  have hcase := hm
  rw [decode_eq hne] at hcase
  by_cases hfirst : bs.getD 0 0 ≤ 14
  · have hmask : bs.getD 0 0 &&& KeyMeta.meta64bitEncodingMask = 0 := by
      rw [UInt8.le_iff_toNat_le] at hfirst
      exact and_mask_of_le hfirst
    by_cases hlen : bs.length ≥ KeyMeta.encodedSize
    · have hroom : 2 + 8 ≤ bs.length := le_trans (by decide) hlen
      refine ⟨2, hroom, ?_, ?_⟩
      · have hkv : ¬(bs.getD 0 0 &&& KeyMeta.meta64bitEncodingMask ≠ 0 ∨
            bs.length ≥ KeyMeta.kvrocksComplexEncodedSize ∧ bs.getD 0 0 > 14) := fun h =>
          h.elim (fun h => h hmask) fun h => not_le.mpr h.2 hfirst
        rw [patchExpireAt, headD_eq_getD, if_neg hkv, if_pos hroom]
        rfl
      · rw [decode_patchAt_standard hlen hfirst, hm]
        rfl
    · rw [if_neg fun h => hlen h.1, if_neg (not_not.mpr hmask)] at hcase
      cases hcase
  · rw [if_neg fun h => hfirst h.2] at hcase
    have hmask : bs.getD 0 0 &&& KeyMeta.meta64bitEncodingMask ≠ 0 := by
      intro h
      rw [if_neg (not_not.mpr h)] at hcase
      cases hcase
    have hlen : bs.length ≥ KeyMeta.kvrocksSingleKvEncodedSize := by
      by_contra hshort
      rw [if_pos hmask] at hcase
      simp only at hcase
      have hcomplex : ¬bs.length ≥ KeyMeta.kvrocksComplexEncodedSize := fun h =>
        hshort (le_trans (show KeyMeta.kvrocksSingleKvEncodedSize ≤ _ by decide) h)
      rw [if_pos (not_le.mp hshort), if_neg hcomplex, ite_self] at hcase
      cases hcase
    have hroom : 1 + 8 ≤ bs.length := le_trans (by decide) hlen
    refine ⟨1, hroom, ?_, ?_⟩
    · rw [patchExpireAt, headD_eq_getD, if_pos (Or.inl hmask), if_pos hroom]
      rfl
    · rw [decode_patchAt_kvrocks hlen hfirst, hm]
      rfl

end

/-! ## The slot of a key -/

def typeSlots : List Slot := .str :: allCompositeMetaTags.map .metadata

def Slot.entryLive (nowMs : UInt64) (v : Bytes) : Slot → Bool
  | .str => !isStringExpired (decodeStringValue v).1 nowMs
  | .metadata _ => (KeyMeta.decode v).any fun m => !m.isExpired nowMs
  | _ => false

def slotLive (s : Store) (kc : KeyComposer) (key : Key) (nowMs : UInt64) (slot : Slot) : Bool :=
  (s.at ⟨kc, key, slot⟩).any fun v => slot.entryLive nowMs v

def liveSlot (s : Store) (kc : KeyComposer) (key : Key) (nowMs : UInt64) : Option Slot :=
  if (liveString s kc key nowMs).isSome then some .str
  else (findActiveCompositeMeta s kc key nowMs).map fun m => .metadata m.1

/-- The new entry is the old one with the expiry `exp`. -/
def Slot.Moved (old new : Bytes) (exp : UInt64) : Slot → Prop
  | .str => decodeStringValue new = (exp, (decodeStringValue old).2)
  | .metadata _ => (∀ m, KeyMeta.decode old = some m →
      KeyMeta.decode new = some { m with expireAt := exp }) ∧
      ∃ off, off + 8 ≤ old.length ∧ new = patchAt old off exp
  | _ => False

/-- The stores differ in the expiry of the live slot and nowhere else. -/
structure OnlyExpiry (s s' : Store) (kc : KeyComposer) (key : Key) (nowMs exp : UInt64) : Prop where
  moved : ∃ slot old new, liveSlot s kc key nowMs = some slot ∧
    s.at ⟨kc, key, slot⟩ = some old ∧ s'.at ⟨kc, key, slot⟩ = some new ∧ slot.Moved old new exp
  frame : ∀ slot, liveSlot s kc key nowMs = some slot → ∀ p k,
    ¬(p = slot.partition ∧ k = Addr.phys ⟨kc, key, slot⟩) → (s'.part p).get k = (s.part p).get k

section
variable {e : Engine} {s s' : Store} {kc : KeyComposer} {key : Key} {now later exp : UInt64}
  {slot other : Slot} {old new : Bytes}

variable (s kc key later) in
theorem isSome_liveString : (liveString s kc key later).isSome = slotLive s kc key later .str := by
  rw [liveString_eq_at, slotLive]
  cases s.at ⟨kc, key, .str⟩ with
  | none => rfl
  | some v =>
    cases h : isStringExpired (decodeStringValue v).1 later <;> simp [Slot.entryLive, h]

variable (s kc key later) in
theorem isSome_liveMeta (tag : KeyTag) :
    (liveMeta s kc key later tag).isSome = slotLive s kc key later (.metadata tag) := by
  rw [liveMeta_eq_at, slotLive]
  cases s.at ⟨kc, key, .metadata tag⟩ with
  | none => rfl
  | some v =>
    cases hd : KeyMeta.decode v with
    | none => simp [Slot.entryLive, hd]
    | some m => cases h : m.isExpired later <;> simp [Slot.entryLive, hd, h]

theorem existsOne_eq_any (s : Store) (kc : KeyComposer) (key : Key) (later : UInt64) :
    existsOne s kc key later = typeSlots.any (slotLive s kc key later) := by
  rw [Bool.eq_iff_iff, ← not_iff_not, Bool.not_eq_true, existsOne_eq_false, Bool.not_eq_true,
    typeSlots, List.any_cons, Bool.or_eq_false_iff, ← isSome_liveString, List.any_map,
    List.any_eq_false, Option.isSome_eq_false_iff, Option.isNone_iff_eq_none]
  refine and_congr_right fun _ => forall₂_congr fun tag _ => ?_
  rw [Function.comp_apply, ← isSome_liveMeta, Bool.not_eq_true, Option.isSome_eq_false_iff,
    Option.isNone_iff_eq_none]

theorem existsOne_iff : existsOne s kc key later = true ↔
    ∃ slot ∈ typeSlots, slotLive s kc key later slot = true := by
  rw [existsOne_eq_any, List.any_eq_true]

theorem exists_liveSlot (h : existsOne s kc key now = true) :
    ∃ slot, liveSlot s kc key now = some slot := by
  rw [existsOne, Bool.or_eq_true] at h
  rw [liveSlot]
  by_cases hstr : (liveString s kc key now).isSome = true
  · exact ⟨.str, if_pos hstr⟩
  · obtain ⟨x, hx⟩ := Option.isSome_iff_exists.mp (h.resolve_left hstr)
    exact ⟨.metadata x.1, by rw [if_neg hstr, hx, Option.map_some]⟩

theorem typeSlots_valid (h : slot ∈ typeSlots) : slot.Valid := by
  rcases List.mem_cons.mp h with rfl | h
  · exact trivial
  · obtain ⟨tag, htag, rfl⟩ := List.mem_map.mp h
    exact allCompositeMetaTags_isMeta htag

theorem slotLive_congr (h : s'.at ⟨kc, key, slot⟩ = s.at ⟨kc, key, slot⟩) :
    slotLive s' kc key later slot = slotLive s kc key later slot := by
  rw [slotLive, slotLive, h]

theorem entryLive_moved (hlive : slot.entryLive now old = true) (h : slot.Moved old new exp) :
    slot.entryLive later new = true ↔ exp = 0 ∨ later < exp := by
  have hexp : (!(decide (exp > 0) && decide (exp ≤ later))) = true ↔ exp = 0 ∨ later < exp := by
    rw [Bool.not_eq_true', Bool.and_eq_false_iff, decide_eq_false_iff_not, decide_eq_false_iff_not,
      not_le, not_lt, UInt64.le_zero_iff]
  cases slot with
  | str =>
    have hnew : (decodeStringValue new).1 = exp := congrArg Prod.fst h
    rw [Slot.entryLive, hnew]
    exact hexp
  | metadata tag =>
    rw [Slot.entryLive, Option.any_eq_true] at hlive
    obtain ⟨m, hm, hmlive⟩ := hlive
    have hempty : ¬(!m.isEmptyableType && m.size == 0) = true := by
      intro hc
      rw [KeyMeta.isExpired, if_pos hc] at hmlive
      cases hmlive
    rw [Slot.entryLive, h.1 m hm, Option.any_some, KeyMeta.isExpired]
    have hempty' : ¬(!({ m with expireAt := exp } : KeyMeta).isEmptyableType && m.size == 0) = true :=
      hempty
    rw [if_neg hempty']
    exact hexp
  | hllRaw | sub | rule => cases h

theorem findActive_split {tag : KeyTag} {m : KeyMeta} {v : Bytes}
    (h : findActiveCompositeMeta s kc key now = some (tag, m, v)) :
    ∃ before after, allCompositeMetaTags = before ++ tag :: after ∧
      liveMeta s kc key now tag = some (m, v) ∧
      ∀ u ∈ before, liveMeta s kc key now u = none := by
  rw [findActiveCompositeMeta_eq, List.findSome?_eq_some_iff] at h
  obtain ⟨before, u, after, hl, hu, hnone⟩ := h
  obtain ⟨x, hx, heq⟩ := Option.map_eq_some_iff.mp hu
  cases heq
  exact ⟨before, after, hl, hx, fun w hw => Option.map_eq_none_iff.mp (hnone w hw)⟩

theorem findActive_of_split {tag : KeyTag} {x : KeyMeta × Bytes} {before after : List KeyTag}
    (hl : allCompositeMetaTags = before ++ tag :: after) (hx : liveMeta s kc key now tag = some x)
    (hnone : ∀ u ∈ before, liveMeta s kc key now u = none) :
    findActiveCompositeMeta s kc key now = some (tag, x) := by
  rw [findActiveCompositeMeta_eq, List.findSome?_eq_some_iff]
  exact ⟨before, tag, after, hl, by rw [hx, Option.map_some],
    fun u hu => by rw [hnone u hu, Option.map_none]⟩

theorem liveMeta_of_entry {tag : KeyTag} {m : KeyMeta}
    (hat : s.at ⟨kc, key, .metadata tag⟩ = some old) (hm : KeyMeta.decode old = some m)
    (hlive : (Slot.metadata tag).entryLive now old = true) :
    liveMeta s kc key now tag = some (m, old) := by
  rw [Slot.entryLive, hm, Option.any_some] at hlive
  rw [liveMeta_eq_at, hat, Option.bind_some, hm, Option.map_some, Option.filter_some, if_pos hlive]

theorem liveSlot_spec (h : liveSlot s kc key now = some slot) :
    slot ∈ typeSlots ∧ ∃ old exp, s.at ⟨kc, key, slot⟩ = some old ∧
      slot.entryLive now old = true ∧ getKeyExpireAtImpl s kc key now = some exp := by
  rw [liveSlot] at h
  cases hstr : liveString s kc key now with
  | some x =>
    rw [hstr, if_pos Option.isSome_some, Option.some.injEq] at h
    subst h
    have hlive := isSome_liveString s kc key now
    rw [hstr, slotLive, eq_comm, Option.isSome_some, Option.any_eq_true] at hlive
    obtain ⟨old, hat, hlive⟩ := hlive
    exact ⟨List.mem_cons_self, old, x.1, hat, hlive, by rw [getKeyExpireAtImpl, hstr]⟩
  | none =>
    rw [hstr, if_neg (by decide), Option.map_eq_some_iff] at h
    obtain ⟨⟨tag, m, v⟩, hf, rfl⟩ := h
    obtain ⟨htag, hmeta⟩ := findActive_spec hf
    have hlive := isSome_liveMeta s kc key now tag
    rw [hmeta, slotLive, liveMeta_eq_some hmeta, Option.any_some, Option.isSome_some] at hlive
    exact ⟨List.mem_cons_of_mem _ (List.mem_map_of_mem htag), v, m.expireAt,
      liveMeta_eq_some hmeta, hlive.symm, by rw [getKeyExpireAtImpl, hstr, hf, Option.map_some]⟩

theorem getKeyExpireAt_moved (h : liveSlot s kc key now = some slot)
    (hold : s.at ⟨kc, key, slot⟩ = some old) (hnew : s'.at ⟨kc, key, slot⟩ = some new)
    (hmoved : slot.Moved old new exp) (hnow : now ≤ later)
    (hother : ∀ other ∈ typeSlots, other ≠ slot → s'.at ⟨kc, key, other⟩ = s.at ⟨kc, key, other⟩)
    (hlive : slot.entryLive later new = true) :
    getKeyExpireAtImpl s' kc key later = some exp := by
  rw [liveSlot] at h
  cases hstr : liveString s kc key now with
  | some x =>
    rw [hstr, if_pos Option.isSome_some, Option.some.injEq] at h
    subst h
    have hdec : decodeStringValue new = (exp, (decodeStringValue old).2) := hmoved
    have hread : liveString s' kc key later = some (decodeStringValue new) := by
      rw [liveString_eq_at, hnew, Option.map_some, Option.filter_some]
      exact if_pos hlive
    rw [getKeyExpireAtImpl, hread, hdec]
  | none =>
    rw [hstr, if_neg (by decide), Option.map_eq_some_iff] at h
    obtain ⟨⟨tag, m, v⟩, hf, rfl⟩ := h
    obtain ⟨before, after, hl, hmeta, hnone⟩ := findActive_split hf
    have hstr' : liveString s' kc key later = none := by
      rw [liveString_congr (hother .str List.mem_cons_self (by simp))]
      exact liveString_mono hstr hnow
    have hbefore : ∀ u ∈ before, liveMeta s' kc key later u = none := by
      intro u hu
      have hne : u ≠ tag := by
        rintro rfl
        rw [hnone u hu] at hmeta
        cases hmeta
      have hmem : Slot.metadata u ∈ typeSlots := List.mem_cons_of_mem _
        (List.mem_map_of_mem (by rw [hl]; exact List.mem_append_left _ hu))
      rw [liveMeta_congr (hother _ hmem fun hc => hne (Slot.metadata.inj hc))]
      exact liveMeta_mono (hnone u hu) hnow
    have hv : v = old := Option.some.inj ((liveMeta_eq_some hmeta).symm.trans hold)
    have hdec : KeyMeta.decode old = some m := by
      rw [liveMeta_eq_at, hold, Option.bind_some, Option.filter_eq_some_iff,
        Option.map_eq_some_iff] at hmeta
      obtain ⟨⟨m', hm', heq⟩, -⟩ := hmeta
      cases heq
      exact hm'
    have hread := liveMeta_of_entry hnew (hmoved.1 m hdec) hlive
    rw [getKeyExpireAtImpl, hstr', findActive_of_split hl hread hbefore, Option.map_some]

/-- Nothing to clear, or a condition not met by the present expiry. -/
def ExpireRefused (old new : UInt64) (cond : ExpireCondition) : Prop :=
  new = 0 ∧ old = 0 ∨ cond.shouldUpdate old new = false

theorem setKeyExpireAtImpl_live (hlive : existsOne s kc key now = true) (exp : UInt64)
    (cond : ExpireCondition) :
    ∃ slot old oldExp, liveSlot s kc key now = some slot ∧ slot ∈ typeSlots ∧
      s.at ⟨kc, key, slot⟩ = some old ∧ slot.entryLive now old = true ∧
      getKeyExpireAtImpl s kc key now = some oldExp ∧
      (ExpireRefused oldExp exp cond ∧
          setKeyExpireAtImplWithCondition s kc key now exp cond = (false, []) ∨
        ¬ExpireRefused oldExp exp cond ∧ ∃ new, slot.Moved old new exp ∧
          setKeyExpireAtImplWithCondition s kc key now exp cond =
            (true, [.insert slot.partition (Addr.phys ⟨kc, key, slot⟩) new])) := by
  obtain ⟨slot, hslot⟩ := exists_liveSlot hlive
  obtain ⟨hmem, old, oldExp, hat, hentry, hget⟩ := liveSlot_spec hslot
  refine ⟨slot, old, oldExp, hslot, hmem, hat, hentry, hget, ?_⟩
  rw [liveSlot] at hslot
  rw [getKeyExpireAtImpl] at hget
  cases hstr : liveString s kc key now with
  | some x =>
    obtain ⟨oldExp', payload⟩ := x
    rw [hstr, if_pos Option.isSome_some, Option.some.injEq] at hslot
    subst hslot
    rw [hstr, Option.some.injEq] at hget
    subst hget
    have hpayload : decodeStringValue old = (oldExp', payload) := by
      rw [liveString_eq_at, hat, Option.map_some, Option.filter_eq_some_iff] at hstr
      exact Option.some.inj hstr.1
    rw [setKeyExpireAtImplWithCondition, hstr]
    simp only
    by_cases hclear : exp = 0 ∧ oldExp' = 0
    · exact Or.inl ⟨Or.inl hclear, if_pos hclear⟩
    rw [if_neg hclear]
    by_cases hcond : cond.shouldUpdate oldExp' exp = true
    · rw [hcond, if_neg (by decide)]
      refine Or.inr ⟨fun h => h.elim hclear (by rw [hcond]; decide),
        encodeStringValue payload exp, ?_, rfl⟩
      rw [Slot.Moved, decodeStringValue_encodeStringValue, hpayload]
    · rw [Bool.not_eq_true] at hcond
      rw [hcond, if_pos (by decide)]
      exact Or.inl ⟨Or.inr hcond, rfl⟩
  | none =>
    rw [hstr, if_neg (by decide), Option.map_eq_some_iff] at hslot
    obtain ⟨⟨tag, m, v⟩, hf, rfl⟩ := hslot
    rw [hstr, hf, Option.map_some, Option.some.injEq] at hget
    simp only at hget hat hentry
    subst hget
    obtain ⟨htag, hmeta⟩ := findActive_spec hf
    have hv : v = old := Option.some.inj ((liveMeta_eq_some hmeta).symm.trans hat)
    subst hv
    have hdec : KeyMeta.decode v = some m := by
      rw [liveMeta_eq_at, hat, Option.bind_some, Option.filter_eq_some_iff,
        Option.map_eq_some_iff] at hmeta
      obtain ⟨⟨m', hm', heq⟩, -⟩ := hmeta
      cases heq
      exact hm'
    obtain ⟨off, hroom, hpatch, hnew⟩ := patchExpireAt_of_decode hdec exp
    rw [setKeyExpireAtImplWithCondition, hstr, hf]
    simp only [hpatch]
    by_cases hclear : exp = 0 ∧ m.expireAt = 0
    · exact Or.inl ⟨Or.inl hclear, if_pos hclear⟩
    rw [if_neg hclear]
    by_cases hcond : cond.shouldUpdate m.expireAt exp = true
    · rw [hcond, if_neg (by decide)]
      refine Or.inr ⟨fun h => h.elim hclear (by rw [hcond]; decide),
        patchAt v off exp, ⟨fun m' hm' => ?_, off, hroom, rfl⟩, rfl⟩
      rw [hdec, Option.some.injEq] at hm'
      rw [hnew, hm']
    · rw [Bool.not_eq_true] at hcond
      rw [hcond, if_pos (by decide)]
      exact Or.inl ⟨Or.inr hcond, rfl⟩

theorem PartitionFits.insert_of_get {m : SortedMap Bytes Bytes} {k v w : Bytes}
    (h : Store.PartitionFits m) (hk : m.get k = some v) : Store.PartitionFits (m.insert k w) := by
  refine ⟨by rw [SortedMap.length_insert_of_get_some hk]; exact h.length_lt, fun x hx => ?_⟩
  rcases SortedMap.mem_insertEntry hx with hx | hx
  · rw [hx]
    exact h.key_lt (k, v) (SortedMap.get_eq_some.mp hk)
  · exact h.key_lt x hx

theorem commit_insert_of_at {a : Addr} (hat : e.store.at a = some old) (v : Bytes) :
    ∃ e' : Engine, e.commit [.insert a.slot.partition a.phys v] = .ok e' ∧
      e'.store = e.store.applyOp (.insert a.slot.partition a.phys v) := by
  refine ⟨_, Engine.commit_of_fits ?_, rfl⟩
  rw [Store.apply_cons, Store.apply_nil]
  rw [Store.at] at hat
  cases hp : a.slot.partition with
  | data =>
    rw [hp] at hat
    exact ⟨PartitionFits.insert_of_get e.fits.data hat, e.fits.metadata⟩
  | metadata =>
    rw [hp] at hat
    exact ⟨e.fits.data, PartitionFits.insert_of_get e.fits.metadata hat⟩

theorem setKeyExpireAt_live (hlive : existsOne e.store kc key now = true) (exp : UInt64)
    (cond : ExpireCondition) :
    ∃ slot old oldExp, liveSlot e.store kc key now = some slot ∧ slot ∈ typeSlots ∧
      e.store.at ⟨kc, key, slot⟩ = some old ∧ slot.entryLive now old = true ∧
      getKeyExpireAtImpl e.store kc key now = some oldExp ∧
      (ExpireRefused oldExp exp cond ∧ setKeyExpireAt e kc key now exp cond = .ok (false, e) ∨
        ¬ExpireRefused oldExp exp cond ∧ ∃ new e', slot.Moved old new exp ∧
          setKeyExpireAt e kc key now exp cond = .ok (true, e') ∧ e'.store =
            e.store.applyOp (.insert slot.partition (Addr.phys ⟨kc, key, slot⟩) new)) := by
  obtain ⟨slot, old, oldExp, hslot, hmem, hat, hentry, hget, hrun⟩ :=
    setKeyExpireAtImpl_live hlive exp cond
  refine ⟨slot, old, oldExp, hslot, hmem, hat, hentry, hget, ?_⟩
  rcases hrun with ⟨hrefused, hrun⟩ | ⟨hset, new, hmoved, hrun⟩
  · refine Or.inl ⟨hrefused, ?_⟩
    rw [setKeyExpireAt, hrun]
    have hcommit : e.commit [] = .ok e := Engine.commit_of_fits (b := []) e.fits
    simp only [hcommit, bind, Except.bind, pure, Except.pure]
  · obtain ⟨e', hcommit, hstore⟩ := commit_insert_of_at hat new
    refine Or.inr ⟨hset, new, e', hmoved, ?_, hstore⟩
    rw [setKeyExpireAt, hrun]
    simp only at hcommit
    simp only [hcommit, bind, Except.bind, pure, Except.pure]

/-- The rewritten slot holds the new entry and every other key of the store its own. -/
theorem onlyExpiry_of_insert (hslot : liveSlot s kc key now = some slot) (hmem : slot ∈ typeSlots)
    (hat : s.at ⟨kc, key, slot⟩ = some old) (hmoved : slot.Moved old new exp)
    (hs' : s' = s.applyOp (.insert slot.partition (Addr.phys ⟨kc, key, slot⟩) new)) :
    OnlyExpiry s s' kc key now exp := by
  have hvalid := typeSlots_valid hmem
  refine ⟨⟨slot, old, new, hslot, hat, ?_, hmoved⟩, fun slot' hslot' p k hne => ?_⟩
  · rw [hs']
    exact (Store.at_insert s (a := ⟨kc, key, slot⟩) (b := ⟨kc, key, slot⟩) hvalid hvalid new).trans
      (if_pos rfl)
  · rw [hslot, Option.some.injEq] at hslot'
    subst hslot'
    rw [hs', Store.part_applyOp_get, if_neg]
    exact fun h => hne ⟨h.1.symm, h.2.symm⟩

theorem at_of_insert (hmem : slot ∈ typeSlots) (hother : other ∈ typeSlots) (hne : other ≠ slot)
    (hs' : s' = s.applyOp (.insert slot.partition (Addr.phys ⟨kc, key, slot⟩) new)) :
    s'.at ⟨kc, key, other⟩ = s.at ⟨kc, key, other⟩ := by
  rw [hs']
  refine (Store.at_insert s (a := ⟨kc, key, slot⟩) (b := ⟨kc, key, other⟩)
    (typeSlots_valid hmem) (typeSlots_valid hother) new).trans (if_neg fun h => hne ?_)
  exact (congrArg Addr.slot h).symm

end

/-! ## Exactness -/

/-- What a set deadline `target` means for the key. -/
structure Deadline (e e' : Engine) (kc : KeyComposer) (key : Key) (now : UInt64) (target : ℕ) :
    Prop where
  exists_iff : ∀ later, now ≤ later → (existsOne e'.store kc key later = true ↔ later.toNat < target)
  pexpiretime_eq : ∀ later, now ≤ later → later.toNat < target → pexpiretime e' kc key later = target
  onlyExpiry : ∃ exp, OnlyExpiry e.store e'.store kc key now exp

def ExpireExact (e : Engine) (kc : KeyComposer) (key : Key) (now : UInt64) (call : ExpireCall) :
    Prop :=
  ∃ hit e', call.run e kc key now = .ok (hit, e') ∧
    (hit = true → Deadline e e' kc key now (call.target now)) ∧ (hit = false → e' = e)

def PersistExact (e : Engine) (kc : KeyComposer) (key : Key) (now : UInt64) : Prop :=
  ∃ hit e', persist e kc key now = .ok (hit, e') ∧
    (hit = true ↔ ∃ exp, exp ≠ 0 ∧ getKeyExpireAtImpl e.store kc key now = some exp) ∧
    (hit = true → OnlyExpiry e.store e'.store kc key now 0) ∧ (hit = false → e' = e)

/-- The call is refused, or its target is positive and fits a signed word or is already past, and
no second type under the key outlives it. -/
def TargetFits (e : Engine) (kc : KeyComposer) (key : Key) (now : UInt64) (call : ExpireCall) :
    Prop :=
  (∀ exp, getKeyExpireAtImpl e.store kc key now = some exp →
    ExpireRefused exp (UInt64.ofNat (call.target now)) call.cond) ∨
  0 < call.target now ∧ (call.target now < 2 ^ 63 ∨ call.target now ≤ now.toNat) ∧
    ∀ other ∈ typeSlots, liveSlot e.store kc key now ≠ some other → ∀ later, now ≤ later →
      call.target now ≤ later.toNat → slotLive e.store kc key later other = false

section
variable {e e' : Engine} {kc : KeyComposer} {key : Key} {now later exp : UInt64} {slot : Slot}
  {old new : Bytes} {target : ℕ} {call : ExpireCall}

theorem pexpiretime_lt (e : Engine) (kc : KeyComposer) (key : Key) (now : UInt64) :
    pexpiretime e kc key now < 2 ^ 63 := by
  have hsigned : ∀ exp : UInt64, exp.asI64 < 2 ^ 63 := fun exp => by
    have h := exp.toNat_lt
    rw [UInt64.asI64]
    split_ifs <;> omega
  rw [pexpiretime, queryKeyExpireInfo]
  cases getKeyExpireAtImpl e.store kc key now with
  | none => exact show (-2 : ℤ) < 2 ^ 63 by decide
  | some exp =>
    have h := hsigned exp
    simp only
    split_ifs <;> omega

variable (later) in
/-- After a rewrite the key exists through its slot or through a second type. -/
theorem existsOne_moved (hmem : slot ∈ typeSlots) (hentry : slot.entryLive now old = true)
    (hmoved : slot.Moved old new exp)
    (hs' : e'.store = e.store.applyOp (.insert slot.partition (Addr.phys ⟨kc, key, slot⟩) new)) :
    existsOne e'.store kc key later = true ↔ (exp = 0 ∨ later < exp) ∨
      ∃ other ∈ typeSlots, other ≠ slot ∧ slotLive e.store kc key later other = true := by
  have hvalid := typeSlots_valid hmem
  have hnew : e'.store.at ⟨kc, key, slot⟩ = some new := by
    rw [hs']
    exact (Store.at_insert _ (a := ⟨kc, key, slot⟩) (b := ⟨kc, key, slot⟩) hvalid hvalid new).trans
      (if_pos rfl)
  have hself : slotLive e'.store kc key later slot = true ↔ exp = 0 ∨ later < exp := by
    rw [slotLive, hnew, Option.any_some]
    exact entryLive_moved hentry hmoved
  rw [existsOne_iff]
  constructor
  · rintro ⟨other, hother, hlive⟩
    by_cases heq : other = slot
    · rw [heq] at hlive
      exact Or.inl (hself.mp hlive)
    · rw [slotLive_congr (at_of_insert hmem hother heq hs')] at hlive
      exact Or.inr ⟨other, hother, heq, hlive⟩
  · rintro (hexp | ⟨other, hother, hne, hlive⟩)
    · exact ⟨slot, hmem, hself.mpr hexp⟩
    · exact ⟨other, hother, by rwa [slotLive_congr (at_of_insert hmem hother hne hs')]⟩

theorem pexpiretime_moved (hslot : liveSlot e.store kc key now = some slot) (hmem : slot ∈ typeSlots)
    (hat : e.store.at ⟨kc, key, slot⟩ = some old) (hentry : slot.entryLive now old = true)
    (hmoved : slot.Moved old new exp)
    (hs' : e'.store = e.store.applyOp (.insert slot.partition (Addr.phys ⟨kc, key, slot⟩) new))
    (hnow : now ≤ later) (hlater : later < exp) :
    pexpiretime e' kc key later = exp.asI64 := by
  have hvalid := typeSlots_valid hmem
  have hnew : e'.store.at ⟨kc, key, slot⟩ = some new := by
    rw [hs']
    exact (Store.at_insert _ (a := ⟨kc, key, slot⟩) (b := ⟨kc, key, slot⟩) hvalid hvalid new).trans
      (if_pos rfl)
  have hget := getKeyExpireAt_moved hslot hat hnew hmoved hnow
    (fun other hother hne => at_of_insert hmem hother hne hs')
    ((entryLive_moved hentry hmoved).mpr (Or.inr hlater))
  have hne : exp ≠ 0 := by
    rintro rfl
    exact UInt64.not_lt_zero hlater
  rw [pexpiretime, queryKeyExpireInfo, hget]
  simp only
  rw [if_neg hne, if_neg (not_le.mpr hlater)]

theorem deadline_iff (hslot : liveSlot e.store kc key now = some slot) (hmem : slot ∈ typeSlots)
    (hat : e.store.at ⟨kc, key, slot⟩ = some old) (hentry : slot.entryLive now old = true)
    (hmoved : slot.Moved old new (UInt64.ofNat target))
    (hs' : e'.store = e.store.applyOp (.insert slot.partition (Addr.phys ⟨kc, key, slot⟩) new)) :
    Deadline e e' kc key now target ↔
      0 < target ∧ (target < 2 ^ 63 ∨ target ≤ now.toNat) ∧
        ∀ other ∈ typeSlots, liveSlot e.store kc key now ≠ some other → ∀ later, now ≤ later →
          target ≤ later.toNat → slotLive e.store kc key later other = false := by
  have hex := fun later => existsOne_moved later hmem hentry hmoved hs'
  constructor
  · intro h
    refine ⟨?_, ?_, ?_⟩
    · by_contra hzero
      have htarget : target = 0 := by omega
      subst htarget
      exact absurd ((h.exists_iff now le_rfl).mp ((hex now).mpr (Or.inl (Or.inl rfl))))
        (Nat.not_lt_zero _)
    · by_contra hbig
      have hp := h.pexpiretime_eq now le_rfl (by omega)
      have hlt := pexpiretime_lt e' kc key now
      omega
    · intro other hother hne later hnow hlater
      by_contra hlive
      rw [Bool.not_eq_false] at hlive
      have hother' : other ≠ slot := fun heq => hne (by rw [heq, hslot])
      have hlt := (h.exists_iff later hnow).mp
        ((hex later).mpr (Or.inr ⟨other, hother, hother', hlive⟩))
      omega
  · rintro ⟨hpos, hfits, hsingle⟩
    have hnat : (UInt64.ofNat target).toNat = target := by
      have h := now.toNat_lt
      rw [UInt64.toNat_ofNat', Nat.mod_eq_of_lt (by omega)]
    have hne : UInt64.ofNat target ≠ 0 := by
      intro h
      rw [h] at hnat
      exact hpos.ne hnat
    refine ⟨fun later hnow => ?_, fun later hnow hlater => ?_, UInt64.ofNat target,
      onlyExpiry_of_insert hslot hmem hat hmoved hs'⟩
    · rw [hex, UInt64.lt_iff_toNat_lt, hnat]
      constructor
      · rintro ((h | h) | ⟨other, hother, hother', hlive⟩)
        · exact absurd h hne
        · exact h
        · by_contra hlater
          have hdead := hsingle other hother (fun h => hother' (by
            rw [hslot] at h
            exact (Option.some.inj h).symm)) later hnow (by omega)
          rw [hdead] at hlive
          cases hlive
      · exact fun h => Or.inl (Or.inr h)
    · have hlt : later < UInt64.ofNat target := by rw [UInt64.lt_iff_toNat_lt, hnat]; exact hlater
      have hnow' := UInt64.le_iff_toNat_le.mp hnow
      rw [pexpiretime_moved hslot hmem hat hentry hmoved hs' hnow hlt,
        UInt64.asI64_of_lt (by omega), hnat]

theorem expireExact_iff (hlive : existsOne e.store kc key now = true) :
    ExpireExact e kc key now call ↔ TargetFits e kc key now call := by
  rw [ExpireExact, ExpireCall.run_eq, TargetFits]
  obtain ⟨slot, old, oldExp, hslot, hmem, hat, hentry, hget, hrun⟩ :=
    setKeyExpireAt_live hlive (UInt64.ofNat (call.target now)) call.cond
  rcases hrun with ⟨hrefused, hrun⟩ | ⟨hset, new, e', hmoved, hrun, hstore⟩
  · refine iff_of_true ⟨false, e, hrun, by simp, fun _ => rfl⟩ (Or.inl fun exp hexp => ?_)
    rw [hget, Option.some.injEq] at hexp
    rwa [← hexp]
  · have hdeadline := deadline_iff hslot hmem hat hentry hmoved hstore
    constructor
    · rintro ⟨hit, e₁, hok, htrue, -⟩
      rw [hrun] at hok
      cases hok
      exact Or.inr (hdeadline.mp (htrue rfl))
    · rintro (h | h)
      · exact absurd (h oldExp hget) hset
      · exact ⟨true, e', hrun, fun _ => hdeadline.mpr h, by simp⟩

theorem persistExact (hlive : existsOne e.store kc key now = true) : PersistExact e kc key now := by
  obtain ⟨slot, old, oldExp, hslot, hmem, hat, hentry, hget, hrun⟩ :=
    setKeyExpireAt_live hlive 0 .none
  have hrefused : ExpireRefused oldExp 0 .none ↔ oldExp = 0 := by
    simp [ExpireRefused, ExpireCondition.shouldUpdate]
  rcases hrun with ⟨href, hrun⟩ | ⟨hset, new, e', hmoved, hrun, hstore⟩
  · refine ⟨false, e, hrun, ?_, by simp, fun _ => rfl⟩
    refine iff_of_false (by decide) ?_
    rintro ⟨exp, hne, hexp⟩
    rw [hget, Option.some.injEq] at hexp
    exact hne (hexp ▸ hrefused.mp href)
  · refine ⟨true, e', hrun, iff_of_true rfl ⟨oldExp, fun h => hset (hrefused.mpr h), hget⟩, fun _ => ?_,
      by simp⟩
    exact onlyExpiry_of_insert hslot hmem hat hmoved hstore

end

/-- A deadline is exact for every target that the word and the signed reply can hold. -/
theorem expireFamily_exact_iff (e : Engine) (kc : KeyComposer) (key : Key) (now : UInt64)
    (call : ExpireCall) (hlive : existsOne e.store kc key now = true) :
    (ExpireExact e kc key now call ↔ TargetFits e kc key now call) ∧ PersistExact e kc key now :=
  ⟨expireExact_iff hlive, persistExact hlive⟩

def sampleString : Engine :=
  ⟨(∅ : Store).apply [.insertData (composeStringKey ⟨0, 0⟩ sampleKey.bytes) (encodeStringValue [118] 0)],
    by decide⟩

theorem expireFamily_exact_iff_sample :
    (ExpireExact sampleString ⟨0, 0⟩ sampleKey 1000 (.expire 10) ↔
      TargetFits sampleString ⟨0, 0⟩ sampleKey 1000 (.expire 10)) ∧
      PersistExact sampleString ⟨0, 0⟩ sampleKey 1000 :=
  expireFamily_exact_iff sampleString ⟨0, 0⟩ sampleKey 1000 (.expire 10) (by decide)

/-- A lifetime past the word wraps to a deadline 384 milliseconds ahead. -/
theorem expire_wraps : ¬∀ e kc key now call, existsOne e.store kc key now = true →
    ExpireExact e kc key now call := by
  intro h
  have hfits := (expireExact_iff (by decide)).mp
    (h sampleString ⟨0, 0⟩ sampleKey 1000 (.expire 18446744073709552) (by decide))
  rcases hfits with hrefused | ⟨-, hbound, -⟩
  · exact absurd (hrefused 0 (by decide)) (by unfold ExpireRefused; decide)
  · exact absurd hbound (by decide)

end Wedb
