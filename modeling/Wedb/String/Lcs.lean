import Mathlib.Data.List.GetD
import Wedb.Engine.Error
import Wedb.Ordered.ByteString
import Wedb.Ordered.Subsequence

/-!
# LCS

The length alone is computed on two rolling rows, in buffers of 65 cells when the shorter
string has at most 64 bytes. The other modes fill the whole table and walk back from its
corner, joining adjacent matches into ranges; the length of the first string as the start of
the current range says that there is none. The matched bytes are returned before they are
turned into text. Positions and lengths are below `2 ^ 32` by the check on the lengths.
-/

namespace Wedb

inductive StringLcsType
  | none
  | len
  | idx
  deriving DecidableEq, Repr

structure StringLcs where
  lcsType : StringLcsType
  minMatchLen : ℤ
  deriving DecidableEq, Repr

structure StringLcsMatchedRange where
  aStart : ℕ
  aEnd : ℕ
  bStart : ℕ
  bEnd : ℕ
  matchLen : ℕ
  deriving DecidableEq, Repr

inductive StringLcsResult
  | str (bytes : Bytes)
  | len (n : ℕ)
  | idx (ranges : List StringLcsMatchedRange) (len : ℕ)
  deriving DecidableEq, Repr

def maxStringSize : ℕ := 512 * 1024 * 1024

def errLcsTooLong : String := "ERR String too long for LCS"

def errLcsInsufficientMemory : String :=
  "ERR Insufficient memory, transient memory for LCS exceeds proto-max-bulk-len"

def keepsMatch (minMatchLen : ℤ) (matchLen : ℕ) : Bool :=
  decide (minMatchLen ≤ 0) || decide ((minMatchLen % 2 ^ 32).toNat ≤ matchLen)

/-! ## Rows -/

def lcsCells (b1 : UInt8) : ℕ → Bytes → List ℕ → List ℕ
  | left, b2 :: s2, diag :: up :: prev =>
    let cell := if b1 = b2 then diag + 1 else max up left
    cell :: lcsCells b1 cell s2 (up :: prev)
  | _, _, _ => []

def lcsRow (s2 : Bytes) (prev : List ℕ) (b1 : UInt8) : List ℕ := 0 :: lcsCells b1 0 s2 prev

def lcsRowFixed (s2 : Bytes) (prev : List ℕ) (b1 : UInt8) : List ℕ :=
  (lcsRow s2 prev b1).take (s2.length + 1) ++ prev.drop (s2.length + 1)

def lcsLenOf (s1 s2 : Bytes) : ℕ :=
  let (s1, s2) := if s1.length < s2.length then (s2, s1) else (s1, s2)
  if s2.length ≤ 64 then (s1.foldl (lcsRowFixed s2) (List.replicate 65 0)).getD s2.length 0
  else (s1.foldl (lcsRow s2) (List.replicate (s2.length + 1) 0)).getD s2.length 0

def lcsTable (s2 : Bytes) : List ℕ → Bytes → List (List ℕ)
  | prev, [] => [prev]
  | prev, b1 :: s1 => prev :: lcsTable s2 (lcsRow s2 prev b1) s1

def lcsCell (dp : List (List ℕ)) (i j : ℕ) : ℕ := (dp.getD i []).getD j 0

/-! ## The walk back -/

structure LcsWalk where
  i : ℕ
  j : ℕ
  idx : ℕ
  lcsBytes : Bytes
  ranges : List StringLcsMatchedRange
  aRangeStart : ℕ
  aRangeEnd : ℕ
  bRangeStart : ℕ
  bRangeEnd : ℕ
  deriving DecidableEq, Repr

namespace LcsWalk

def emitRange (args : StringLcs) (alen : ℕ) (w : LcsWalk) : LcsWalk :=
  let matchLen := w.aRangeEnd - w.aRangeStart + 1
  let ranges :=
    if args.lcsType = .idx ∧ keepsMatch args.minMatchLen matchLen then
      w.ranges ++ [⟨w.aRangeStart, w.aRangeEnd, w.bRangeStart, w.bRangeEnd, matchLen⟩]
    else w.ranges
  { w with ranges := ranges, aRangeStart := alen }

def storeByte (args : StringLcs) (b : UInt8) (w : LcsWalk) : LcsWalk :=
  if args.lcsType = .none ∧ w.idx > 0 then { w with lcsBytes := w.lcsBytes.set (w.idx - 1) b }
  else w

def joinMatch (alen : ℕ) (w : LcsWalk) : LcsWalk × Bool :=
  if w.aRangeStart = alen then
    ({ w with
        aRangeStart := w.i - 1, aRangeEnd := w.i - 1
        bRangeStart := w.j - 1, bRangeEnd := w.j - 1 }, false)
  else if w.aRangeStart = w.i ∧ w.bRangeStart = w.j then
    ({ w with aRangeStart := w.aRangeStart - 1, bRangeStart := w.bRangeStart - 1 }, false)
  else (w, true)

def step (s1 s2 : Bytes) (dp : List (List ℕ)) (args : StringLcs) (w : LcsWalk) : LcsWalk :=
  let alen := s1.length
  if s1.getD (w.i - 1) 0 = s2.getD (w.j - 1) 0 then
    let (w, emit) := (w.storeByte args (s1.getD (w.i - 1) 0)).joinMatch alen
    let emit := emit || decide (w.aRangeStart = 0) || decide (w.bRangeStart = 0)
    let w := { w with idx := w.idx - 1, i := w.i - 1, j := w.j - 1 }
    if emit then w.emitRange args alen else w
  else
    let lcs1 := lcsCell dp (w.i - 1) w.j
    let lcs2 := lcsCell dp w.i (w.j - 1)
    let w := if lcs1 > lcs2 then { w with i := w.i - 1 } else { w with j := w.j - 1 }
    if w.aRangeStart ≠ alen then w.emitRange args alen else w

def loop (s1 s2 : Bytes) (dp : List (List ℕ)) (args : StringLcs) : ℕ → LcsWalk → LcsWalk
  | 0, w => w
  | fuel + 1, w =>
    if w.i > 0 ∧ w.j > 0 then loop s1 s2 dp args fuel (w.step s1 s2 dp args) else w

end LcsWalk

def computeLcsWith (s1 s2 : Bytes) (args : StringLcs) : Except Error StringLcsResult :=
  let alen := s1.length
  let blen := s2.length
  if alen = 0 ∨ blen = 0 then
    match args.lcsType with
    | .len => .ok (.len 0)
    | .idx => .ok (.idx [] 0)
    | .none => .ok (.str [])
  else if alen ≥ 2 ^ 32 - 2 ∨ blen ≥ 2 ^ 32 - 2 then .error (.invalidData errLcsTooLong)
  else if s1 = s2 then
    match args.lcsType with
    | .len => .ok (.len alen)
    | .idx =>
      .ok (.idx (if keepsMatch args.minMatchLen alen then [⟨0, alen - 1, 0, alen - 1, alen⟩] else [])
        alen)
    | .none => .ok (.str s1)
  else if args.lcsType = .len then .ok (.len (lcsLenOf s1 s2))
  else
    let dpSize := (alen + 1) * (blen + 1)
    if dpSize * 4 > maxStringSize then .error (.invalidData errLcsInsufficientMemory)
    else
      let dp := lcsTable s2 (List.replicate (blen + 1) 0) s1
      let lcsLen := lcsCell dp alen blen
      let lcsBytes := if args.lcsType = .none then List.replicate lcsLen 0 else []
      let w := LcsWalk.loop s1 s2 dp args (alen + blen) ⟨alen, blen, lcsLen, lcsBytes, [], alen, 0, 0, 0⟩
      match args.lcsType with
      | .len => .ok (.len lcsLen)
      | .idx => .ok (.idx w.ranges lcsLen)
      | .none => .ok (.str w.lcsBytes)

example : computeLcsWith [97, 98, 99, 100, 101, 102] [97, 99, 100, 102] ⟨.idx, 2⟩ =
    .ok (.idx [⟨2, 3, 1, 2, 2⟩] 4) := by decide

/-! ## The cells hold the lengths -/

/-- The lengths for a list against the longer and longer fronts of another, behind `pre`. -/
def lcsRowFrom (xs pre : Bytes) : Bytes → List ℕ
  | [] => []
  | b :: s2 => lcsLength xs (b :: pre) :: lcsRowFrom xs (b :: pre) s2

variable {s1 s2 xs pre : Bytes} {junk : List ℕ}

theorem lcsRowFrom_length (xs pre s2 : Bytes) : (lcsRowFrom xs pre s2).length = s2.length := by
  induction s2 generalizing pre with
  | nil => rfl
  | cons b s2 ih => rw [lcsRowFrom, List.length_cons, ih, List.length_cons]

theorem lcsRowFrom_nil (pre s2 : Bytes) : lcsRowFrom [] pre s2 = List.replicate s2.length 0 := by
  induction s2 generalizing pre with
  | nil => rfl
  | cons b s2 ih => rw [lcsRowFrom, ih, lcsLength_nil_left, List.length_cons, List.replicate_succ]

theorem lcsCells_eq (x : UInt8) (xs pre s2 : Bytes) (junk : List ℕ) :
    lcsCells x (lcsLength (x :: xs) pre) s2 (lcsLength xs pre :: (lcsRowFrom xs pre s2 ++ junk)) =
      lcsRowFrom (x :: xs) pre s2 := by
  induction s2 generalizing pre with
  | nil => rw [lcsRowFrom, List.nil_append, lcsCells, lcsRowFrom]; simp
  | cons b s2 ih =>
    have hcell : (if x = b then lcsLength xs pre + 1
        else max (lcsLength xs (b :: pre)) (lcsLength (x :: xs) pre)) =
        lcsLength (x :: xs) (b :: pre) := by
      by_cases hx : x = b
      · rw [if_pos hx, hx, lcsLength_cons_self]
      · rw [if_neg hx, lcsLength_cons_of_ne hx]
    rw [lcsRowFrom, List.cons_append, lcsCells, hcell, ih, lcsRowFrom]

def lcsRowOf (xs s2 : Bytes) : List ℕ := 0 :: lcsRowFrom xs [] s2

theorem lcsRow_eq (x : UInt8) (xs s2 : Bytes) (junk : List ℕ) :
    lcsRow s2 (lcsRowOf xs s2 ++ junk) x = lcsRowOf (x :: xs) s2 := by
  have h := lcsCells_eq x xs [] s2 junk
  rw [lcsLength_nil_right, lcsLength_nil_right] at h
  rw [lcsRow, lcsRowOf, List.cons_append, h, lcsRowOf]

theorem lcsRowOf_length (xs s2 : Bytes) : (lcsRowOf xs s2).length = s2.length + 1 := by
  rw [lcsRowOf, List.length_cons, lcsRowFrom_length]

theorem lcsRowFixed_eq (x : UInt8) (xs s2 : Bytes) (junk : List ℕ) :
    lcsRowFixed s2 (lcsRowOf xs s2 ++ junk) x = lcsRowOf (x :: xs) s2 ++ junk := by
  rw [lcsRowFixed, lcsRow_eq, ← lcsRowOf_length (x :: xs) s2, List.take_length, lcsRowOf_length,
    ← lcsRowOf_length xs s2, List.drop_left]

theorem lcsRowOf_nil (s2 : Bytes) : lcsRowOf [] s2 = List.replicate (s2.length + 1) 0 := by
  rw [lcsRowOf, lcsRowFrom_nil, List.replicate_succ]

theorem lcsRowFrom_getD (xs pre s2 : Bytes) {j : ℕ} (hj : j < s2.length) :
    (lcsRowFrom xs pre s2).getD j 0 = lcsLength xs ((s2.take (j + 1)).reverse ++ pre) := by
  induction s2 generalizing j pre with
  | nil => exact absurd hj (Nat.not_lt_zero j)
  | cons b s2 ih =>
    cases j with
    | zero => rfl
    | succ j =>
      rw [lcsRowFrom, List.getD_cons_succ, ih (b :: pre) (Nat.lt_of_succ_lt_succ hj),
        List.take_succ_cons, List.reverse_cons, List.append_assoc, List.singleton_append]

theorem lcsRowOf_getD (xs s2 : Bytes) {j : ℕ} (hj : j ≤ s2.length) :
    (lcsRowOf xs s2).getD j 0 = lcsLength xs (s2.take j).reverse := by
  cases j with
  | zero => rw [lcsRowOf, List.take_zero, List.reverse_nil, lcsLength_nil_right, List.getD_cons_zero]
  | succ j => rw [lcsRowOf, List.getD_cons_succ, lcsRowFrom_getD xs [] s2 hj, List.append_nil]

theorem foldl_lcsRow (s1 xs s2 : Bytes) :
    s1.foldl (lcsRow s2) (lcsRowOf xs s2) = lcsRowOf (s1.reverse ++ xs) s2 := by
  induction s1 generalizing xs with
  | nil => rfl
  | cons x s1 ih =>
    have h := lcsRow_eq x xs s2 []
    rw [List.append_nil] at h
    rw [List.foldl_cons, h, ih, List.reverse_cons, List.append_assoc, List.singleton_append]

theorem foldl_lcsRowFixed (s1 xs s2 : Bytes) (junk : List ℕ) :
    s1.foldl (lcsRowFixed s2) (lcsRowOf xs s2 ++ junk) = lcsRowOf (s1.reverse ++ xs) s2 ++ junk := by
  induction s1 generalizing xs with
  | nil => rfl
  | cons x s1 ih =>
    rw [List.foldl_cons, lcsRowFixed_eq, ih, List.reverse_cons, List.append_assoc,
      List.singleton_append]

/-- Both ways of keeping rows end with the length for the whole strings. -/
theorem lcsRows_spec (s1 s2 : Bytes) :
    (if s2.length ≤ 64 then (s1.foldl (lcsRowFixed s2) (List.replicate 65 0)).getD s2.length 0
      else (s1.foldl (lcsRow s2) (List.replicate (s2.length + 1) 0)).getD s2.length 0) =
      lcsLength s1.reverse s2.reverse := by
  have hcell := lcsRowOf_getD s1.reverse s2 le_rfl
  rw [List.take_length] at hcell
  by_cases hshort : s2.length ≤ 64
  · have hstart : List.replicate 65 0 = lcsRowOf [] s2 ++ List.replicate (64 - s2.length) 0 := by
      rw [lcsRowOf_nil, List.replicate_append_replicate]
      congr 1
      omega
    rw [if_pos hshort, hstart, foldl_lcsRowFixed, List.append_nil, List.getD_append _ _ _ _ (by
      rw [lcsRowOf_length]
      omega), hcell]
  · rw [if_neg hshort, ← lcsRowOf_nil, foldl_lcsRow, List.append_nil, hcell]

theorem lcsLenOf_spec (s1 s2 : Bytes) : IsLcsLength (lcsLenOf s1 s2) s1 s2 := by
  have hspec : ∀ a b : Bytes, IsLcsLength (lcsLength a.reverse b.reverse) a b := fun a b => by
    have h := (lcsLength_spec a.reverse b.reverse).reverse
    rwa [List.reverse_reverse, List.reverse_reverse] at h
  rw [lcsLenOf]
  by_cases hlen : s1.length < s2.length
  · simp only [hlen, if_true]
    rw [lcsRows_spec]
    exact (hspec s2 s1).symm
  · simp only [hlen, if_false]
    rw [lcsRows_spec]
    exact hspec s1 s2

theorem lcsTable_getD (s1 xs s2 : Bytes) {i : ℕ} (hi : i ≤ s1.length) :
    (lcsTable s2 (lcsRowOf xs s2) s1).getD i [] = lcsRowOf ((s1.take i).reverse ++ xs) s2 := by
  induction s1 generalizing i xs with
  | nil =>
    obtain rfl : i = 0 := Nat.le_zero.mp hi
    rfl
  | cons x s1 ih =>
    cases i with
    | zero => rfl
    | succ i =>
      have h := lcsRow_eq x xs s2 []
      rw [List.append_nil] at h
      rw [lcsTable, List.getD_cons_succ, h, ih (x :: xs) (Nat.le_of_succ_le_succ hi),
        List.take_succ_cons, List.reverse_cons, List.append_assoc, List.singleton_append]

theorem lcsCell_lcsTable (s1 s2 : Bytes) {i j : ℕ} (hi : i ≤ s1.length) (hj : j ≤ s2.length) :
    lcsCell (lcsTable s2 (List.replicate (s2.length + 1) 0) s1) i j =
      lcsLength (s1.take i).reverse (s2.take j).reverse := by
  rw [lcsCell, ← lcsRowOf_nil, lcsTable_getD s1 [] s2 hi, List.append_nil, lcsRowOf_getD _ _ hj]

end Wedb
