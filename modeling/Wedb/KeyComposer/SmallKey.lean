import Wedb.KeyComposer.Composer
import Wedb.Ordered.Buffer

/-!
# Keys on the stack

A small key is held in a buffer of 55 bytes with its length, a longer one on the heap.
The composers that return one fill the buffer part by part at a running cursor; a write
past the buffer's end would be a panic.
-/

namespace Wedb

def inlineCap : ℕ := 55

inductive SmallKey
  | inline (buf : Bytes) (len : UInt8)
  | heap (v : Bytes)
  deriving DecidableEq, Repr

namespace SmallKey

def new : SmallKey := inline (List.replicate inlineCap 0) 0

def fromSlice (s : Bytes) : Option SmallKey :=
  if s.length ≤ inlineCap then do
    let buf ← writeAt (List.replicate inlineCap 0) 0 s
    some (inline buf (UInt8.ofNat s.length))
  else some (heap s)

def push (b : UInt8) : SmallKey → Option SmallKey
  | inline buf len =>
    if len.toNat < inlineCap then do
      let buf ← writeAt buf len.toNat [b]
      some (inline buf (len + 1))
    else some (heap (buf.take len.toNat ++ [b]))
  | heap v => some (heap (v ++ [b]))

def extendFromSlice (s : Bytes) : SmallKey → Option SmallKey
  | inline buf len =>
    if len.toNat + s.length ≤ inlineCap then do
      let buf ← writeAt buf len.toNat s
      some (inline buf (len + UInt8.ofNat s.length))
    else some (heap (buf.take len.toNat ++ s))
  | heap v => some (heap (v ++ s))

def clear : SmallKey → SmallKey
  | inline buf _ => inline buf 0
  | heap _ => heap []

def asBytes : SmallKey → Bytes
  | inline buf len => buf.take len.toNat
  | heap v => v

/-- The key is well formed and its bytes are these. -/
def Holds (bs : Bytes) : SmallKey → Prop
  | inline buf len => Filled inlineCap buf bs ∧ len.toNat = bs.length
  | heap v => v = bs

/-- The builder does not panic and returns these bytes. -/
def Builds (r : Option SmallKey) (bs : Bytes) : Prop := ∃ sk, r = some sk ∧ sk.Holds bs

variable {sk : SmallKey} {bs s : Bytes}

theorem Holds.asBytes (h : sk.Holds bs) : sk.asBytes = bs := by
  cases sk with
  | inline buf len =>
    rw [SmallKey.asBytes, h.2]
    exact h.1.take
  | heap v => exact h

theorem filled_zeros : Filled inlineCap (List.replicate inlineCap (0 : UInt8)) [] :=
  Filled.empty List.length_replicate

theorem toNat_ofNat_length (h : bs.length ≤ inlineCap) :
    (UInt8.ofNat bs.length).toNat = bs.length := by
  rw [inlineCap] at h
  rw [UInt8.toNat_ofNat', Nat.mod_eq_of_lt (by omega)]

theorem holds_inline {buf : Bytes} {n : ℕ} (h : Filled inlineCap buf bs) (hn : n = bs.length) :
    (inline buf (UInt8.ofNat n)).Holds bs := by
  refine ⟨h, ?_⟩
  rw [hn]
  exact toNat_ofNat_length h.length_le

theorem new_holds : new.Holds [] := ⟨filled_zeros, rfl⟩

theorem fromSlice_builds (s : Bytes) : Builds (fromSlice s) s := by
  rw [fromSlice]
  by_cases hfit : s.length ≤ inlineCap
  · obtain ⟨buf, hwrite, hfill⟩ := filled_zeros.write 0 s rfl (by omega)
    rw [if_pos hfit, hwrite]
    exact ⟨_, rfl, holds_inline hfill rfl⟩
  · rw [if_neg hfit]
    exact ⟨_, rfl, rfl⟩

theorem extendFromSlice_builds (h : sk.Holds bs) (s : Bytes) :
    Builds (sk.extendFromSlice s) (bs ++ s) := by
  cases sk with
  | inline buf len =>
    obtain ⟨hfill, hlen⟩ := h
    rw [extendFromSlice]
    by_cases hfit : len.toNat + s.length ≤ inlineCap
    · obtain ⟨buf', hwrite, hfill'⟩ := hfill.write _ s hlen hfit
      rw [if_pos hfit, hwrite]
      refine ⟨_, rfl, hfill', ?_⟩
      rw [inlineCap] at hfit
      rw [UInt8.toNat_add, UInt8.toNat_ofNat', List.length_append, hlen]
      omega
    · rw [if_neg hfit, hlen, hfill.take]
      exact ⟨_, rfl, rfl⟩
  | heap v =>
    rw [show v = bs from h]
    exact ⟨_, rfl, rfl⟩

theorem push_builds (h : sk.Holds bs) (b : UInt8) : Builds (sk.push b) (bs ++ [b]) := by
  cases sk with
  | inline buf len =>
    obtain ⟨hfill, hlen⟩ := h
    rw [push]
    by_cases hfit : len.toNat < inlineCap
    · obtain ⟨buf', hwrite, hfill'⟩ := hfill.write _ [b] hlen hfit
      rw [if_pos hfit, hwrite]
      refine ⟨_, rfl, hfill', ?_⟩
      rw [inlineCap] at hfit
      rw [UInt8.toNat_add, List.length_append, hlen, List.length_singleton]
      exact Nat.mod_eq_of_lt (show bs.length + 1 < 256 by omega)
    · rw [if_neg hfit, hlen, hfill.take]
      exact ⟨_, rfl, rfl⟩
  | heap v =>
    rw [show v = bs from h]
    exact ⟨_, rfl, rfl⟩

/-! ## Edits -/

inductive Edit
  | push (b : UInt8)
  | extendFromSlice (s : Bytes)
  | clear

def Edit.run (sk : SmallKey) : Edit → Option SmallKey
  | push b => sk.push b
  | extendFromSlice s => sk.extendFromSlice s
  | clear => some sk.clear

/-- The same edit of a plain vector of bytes. -/
def Edit.onBytes (bs : Bytes) : Edit → Bytes
  | push b => bs ++ [b]
  | extendFromSlice s => bs ++ s
  | clear => []

theorem Holds.run (h : sk.Holds bs) (edit : Edit) : Builds (edit.run sk) (edit.onBytes bs) := by
  cases edit with
  | push b => exact push_builds h b
  | extendFromSlice s => exact extendFromSlice_builds h s
  | clear =>
    refine ⟨sk.clear, rfl, ?_⟩
    cases sk with
    | inline buf len => exact ⟨Filled.empty h.1.length, rfl⟩
    | heap v => rfl

theorem Holds.runs (h : sk.Holds bs) (edits : List Edit) :
    Builds (edits.foldlM Edit.run sk) (edits.foldl Edit.onBytes bs) := by
  induction edits generalizing sk bs with
  | nil => exact ⟨sk, rfl, h⟩
  | cons edit edits ih =>
    obtain ⟨sk', hrun, hholds⟩ := h.run edit
    rw [List.foldlM_cons, hrun]
    exact ih hholds

/-- Whatever edits a key goes through, on the stack and after it has moved to the heap, no write
leaves the buffer and the key holds what a vector of bytes would hold. -/
theorem edits_refine_bytes (s : Bytes) (edits : List Edit) :
    ∃ sk, ((fromSlice s).bind fun sk => edits.foldlM Edit.run sk) = some sk ∧
      sk.asBytes = edits.foldl Edit.onBytes s := by
  obtain ⟨start, hstart, hholds⟩ := fromSlice_builds s
  obtain ⟨sk, hrun, hsk⟩ := hholds.runs edits
  rw [hstart]
  exact ⟨sk, hrun, hsk.asBytes⟩

end SmallKey

end Wedb
