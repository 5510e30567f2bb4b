import Wedb.Json.Value
import Wedb.Ordered.EditDistance

/-!
# Edit distance by rows

Two rows of cells are rolled over the table of prefix distances. Short strings have their rows
in fixed buffers, longer ones on the heap, and ASCII strings are compared by their bytes. An
index outside of a row or a string is a panic, which is no result.
-/

namespace Wedb

def stackBufferMaxLen : ℕ := 64

def setCell (row : List ℕ) (j v : ℕ) : Option (List ℕ) :=
  if j < row.length then some (row.set j v) else none

section Rows

variable {β : Type} [DecidableEq β] (s1 s2 : List β)

def fillCell (i : ℕ) (prev curr : List ℕ) (j : ℕ) : Option (List ℕ) := do
  let c1 ← s1[i - 1]?
  let c2 ← s2[j - 1]?
  let cost := if c1 = c2 then 0 else 1
  let up ← prev[j]?
  let left ← curr[j - 1]?
  let diag ← prev[j - 1]?
  setCell curr j (min (min (up + 1) (left + 1)) (diag + cost))

def fillRow (rows : List ℕ × List ℕ) (i : ℕ) : Option (List ℕ × List ℕ) := do
  let curr ← setCell rows.2 0 i
  let curr ← (List.range' 1 s2.length).foldlM (fillCell s1 s2 i rows.1) curr
  some (curr, rows.1)

def rollRows (prev curr : List ℕ) : Option ℕ := do
  let rows ← (List.range' 1 s1.length).foldlM (fillRow s1 s2) (prev, curr)
  rows.1[s2.length]?

def distanceOf : Option ℕ :=
  let (s1, s2) := if s1.length < s2.length then (s2, s1) else (s1, s2)
  let len2 := s2.length
  if len2 ≤ stackBufferMaxLen then
    rollRows s1 s2 (List.range (len2 + 1) ++ List.replicate (stackBufferMaxLen - len2) 0)
      (List.replicate (stackBufferMaxLen + 1) 0)
  else rollRows s1 s2 (List.range (len2 + 1)) (List.replicate (len2 + 1) 0)

end Rows

def asBytes (s : Text) : List UInt8 := s.flatMap String.utf8EncodeChar

def isAscii (s : Text) : Bool := (asBytes s).all fun b => decide (b < 128)

def levenshteinDistance (s1 s2 : Text) : Option ℕ :=
  if s1 = s2 then some 0
  else if s1.isEmpty then some s2.length
  else if s2.isEmpty then some s1.length
  else if isAscii s1 && isAscii s2 then distanceOf (asBytes s1) (asBytes s2)
  else distanceOf s1 s2

/-! ## Rows of prefix distances -/

section Rows

variable {β : Type} [DecidableEq β] {s1 s2 : List β} {prev curr row : List ℕ} {i j n : ℕ}

/-- The cells up to `n` of a row are the distances of a prefix to the prefixes of the other. -/
def HoldsRow (s1 s2 : List β) (i n : ℕ) (row : List ℕ) : Prop :=
  ∀ j ≤ n, row[j]? = some (prefixDist s1 s2 i j)

theorem HoldsRow.set (h : HoldsRow s1 s2 i n row) (hlen : n + 1 < row.length) :
    HoldsRow s1 s2 i (n + 1) (row.set (n + 1) (prefixDist s1 s2 i (n + 1))) := by
  intro j hj
  rcases Nat.eq_or_lt_of_le hj with rfl | hlt
  · rw [List.getElem?_set_self hlen]
  · rw [List.getElem?_set_ne (by omega), h j (by omega)]

theorem fillCell_holds (hi : i < s1.length) (hj : j < s2.length)
    (hprev : HoldsRow s1 s2 i s2.length prev) (hcurr : HoldsRow s1 s2 (i + 1) j curr)
    (hlen : s2.length < curr.length) :
    fillCell s1 s2 (i + 1) prev curr (j + 1) =
      some (curr.set (j + 1) (prefixDist s1 s2 (i + 1) (j + 1))) := by
  have hup := hprev (j + 1) hj
  have hdiag := hprev j (by omega)
  have hleft := hcurr j le_rfl
  rw [fillCell]
  simp only [Nat.add_sub_cancel, List.getElem?_eq_getElem hi, List.getElem?_eq_getElem hj, hup,
    hdiag, hleft, Option.bind_eq_bind, Option.bind_some]
  rw [setCell, if_pos (by omega), prefixDist_succ s1 s2 hi hj]

theorem fillCells_holds (hi : i < s1.length) (hprev : HoldsRow s1 s2 i s2.length prev)
    (hcurr : HoldsRow s1 s2 (i + 1) 0 curr) (hlen : s2.length < curr.length)
    (hn : n ≤ s2.length) :
    ∃ row, (List.range' 1 n).foldlM (fillCell s1 s2 (i + 1) prev) curr = some row ∧
      HoldsRow s1 s2 (i + 1) n row ∧ row.length = curr.length := by
  induction n with
  | zero => exact ⟨curr, rfl, hcurr, rfl⟩
  | succ n ih =>
    obtain ⟨row, hrow, hholds, hrowLen⟩ := ih (by omega)
    have hcell := fillCell_holds hi (by omega) hprev hholds (by omega)
    refine ⟨_, ?_, hholds.set (by omega), by rw [List.length_set, hrowLen]⟩
    rw [List.range'_1_concat, List.foldlM_append, hrow, Nat.add_comm 1 n]
    simp only [Option.bind_eq_bind, Option.bind_some, List.foldlM_cons, List.foldlM_nil, hcell]
    rfl

theorem fillRow_holds (hi : i < s1.length) (hprev : HoldsRow s1 s2 i s2.length prev)
    (hlen : s2.length < curr.length) :
    ∃ row, fillRow s1 s2 (prev, curr) (i + 1) = some (row, prev) ∧
      HoldsRow s1 s2 (i + 1) s2.length row ∧ row.length = curr.length := by
  have hfirst : HoldsRow s1 s2 (i + 1) 0 (curr.set 0 (i + 1)) := by
    intro j hj
    have hpos : 0 < curr.length := Nat.zero_lt_of_lt hlen
    rw [Nat.le_zero.mp hj, List.getElem?_set_self hpos, prefixDist_zero_right s1 s2 hi]
  obtain ⟨row, hrow, hholds, hrowLen⟩ := fillCells_holds hi hprev hfirst
    (by rw [List.length_set]; exact hlen) le_rfl
  rw [List.length_set] at hrowLen
  refine ⟨row, ?_, hholds, hrowLen⟩
  rw [fillRow, setCell, if_pos (Nat.zero_lt_of_lt hlen)]
  simp only [Option.bind_eq_bind, Option.bind_some, hrow]

theorem fillRows_holds (hprev : HoldsRow s1 s2 0 s2.length prev) (hprevLen : s2.length < prev.length)
    (hlen : s2.length < curr.length) (hn : n ≤ s1.length) :
    ∃ rows, (List.range' 1 n).foldlM (fillRow s1 s2) (prev, curr) = some rows ∧
      HoldsRow s1 s2 n s2.length rows.1 ∧ s2.length < rows.1.length ∧ s2.length < rows.2.length := by
  induction n with
  | zero => exact ⟨(prev, curr), rfl, hprev, hprevLen, hlen⟩
  | succ n ih =>
    obtain ⟨⟨above, old⟩, hrows, hholds, habove, hold⟩ := ih (by omega)
    obtain ⟨row, hrow, hnext, hrowLen⟩ := fillRow_holds (by omega) hholds hold
    refine ⟨(row, above), ?_, hnext, hrowLen.symm ▸ hold, habove⟩
    rw [List.range'_1_concat, List.foldlM_append, hrows, Nat.add_comm 1 n]
    simp only [Option.bind_eq_bind, Option.bind_some, List.foldlM_cons, List.foldlM_nil, hrow]
    rfl

theorem rollRows_eq (hprev : HoldsRow s1 s2 0 s2.length prev) (hprevLen : s2.length < prev.length)
    (hlen : s2.length < curr.length) : rollRows s1 s2 prev curr = some (editDist s1 s2) := by
  obtain ⟨rows, hrows, hholds, -⟩ := fillRows_holds hprev hprevLen hlen le_rfl
  rw [rollRows, hrows]
  simp only [Option.bind_eq_bind, Option.bind_some]
  rw [hholds s2.length le_rfl, prefixDist_length]

theorem holdsRow_range (rest : List ℕ) :
    HoldsRow s1 s2 0 s2.length (List.range (s2.length + 1) ++ rest) := by
  intro j hj
  rw [List.getElem?_append_left (by rw [List.length_range]; omega),
    List.getElem?_range (by omega), prefixDist_zero_left s1 s2 hj]

theorem distanceOf_eq (s1 s2 : List β) : distanceOf s1 s2 = some (editDist s1 s2) := by
  have hordered : ∀ s1 s2 : List β, (if s2.length ≤ stackBufferMaxLen then
      rollRows s1 s2 (List.range (s2.length + 1) ++
        List.replicate (stackBufferMaxLen - s2.length) 0) (List.replicate (stackBufferMaxLen + 1) 0)
      else rollRows s1 s2 (List.range (s2.length + 1)) (List.replicate (s2.length + 1) 0)) =
      some (editDist s1 s2) := by
    intro s1 s2
    split_ifs with hshort
    · refine rollRows_eq (holdsRow_range _) ?_ ?_
      · rw [List.length_append, List.length_range]
        omega
      · rw [List.length_replicate]
        omega
    · have hrow := @holdsRow_range β _ s1 s2 []
      rw [List.append_nil] at hrow
      refine rollRows_eq hrow ?_ ?_
      · rw [List.length_range]
        omega
      · rw [List.length_replicate]
        omega
  rw [distanceOf]
  split_ifs with hlt
  · rw [editDist_comm]
    exact hordered s2 s1
  · exact hordered s1 s2

end Rows

/-! ## ASCII strings -/

theorem utf8EncodeChar_of_ascii {c : Char}
    (h : (String.utf8EncodeChar c).all fun b => decide (b < 128)) :
    String.utf8EncodeChar c = [UInt8.ofNat c.val.toNat] ∧ c.val.toNat < 128 := by
  rw [String.utf8EncodeChar] at h ⊢
  by_cases hone : c.val.toNat ≤ 0x7f
  · rw [if_pos hone]
    exact ⟨rfl, by omega⟩
  · exfalso
    rw [if_neg hone] at h
    split_ifs at h with htwo hthree
    all_goals
      simp only [List.all_cons, Bool.and_eq_true, decide_eq_true_eq, UInt8.lt_iff_toNat_lt,
        UInt8.toNat_ofNat'] at h
      have hfirst := h.1
      simp only [UInt8.toNat_ofNat] at hfirst
      omega

theorem asBytes_of_isAscii {s : Text} (h : isAscii s) :
    asBytes s = s.map (fun c => UInt8.ofNat c.val.toNat) ∧ ∀ c ∈ s, c.val.toNat < 128 := by
  have hchar : ∀ c ∈ s, (String.utf8EncodeChar c).all fun b => decide (b < 128) := by
    intro c hc
    rw [List.all_eq_true]
    intro b hb
    exact List.all_eq_true.mp h b (List.mem_flatMap.mpr ⟨c, hc, hb⟩)
  refine ⟨?_, fun c hc => (utf8EncodeChar_of_ascii (hchar c hc)).2⟩
  have hbytes : s.map String.utf8EncodeChar = s.map fun c => [UInt8.ofNat c.val.toNat] :=
    List.map_congr_left fun c hc => (utf8EncodeChar_of_ascii (hchar c hc)).1
  rw [asBytes, List.flatMap_def, hbytes, ← List.flatMap_def, List.map_eq_flatMap]

theorem editDist_asBytes {s t : Text} (hs : isAscii s) (ht : isAscii t) :
    editDist (asBytes s) (asBytes t) = editDist s t := by
  obtain ⟨hsBytes, hsChars⟩ := asBytes_of_isAscii hs
  obtain ⟨htBytes, htChars⟩ := asBytes_of_isAscii ht
  rw [hsBytes, htBytes]
  refine editDist_map _ s t ?_
  intro a ha b hb hab
  have haLt := hsChars a ha
  have hbLt := htChars b hb
  have hnat := congrArg UInt8.toNat hab
  rw [UInt8.toNat_ofNat', UInt8.toNat_ofNat', Nat.mod_eq_of_lt (by omega),
    Nat.mod_eq_of_lt (by omega)] at hnat
  exact Char.val_inj.mp (UInt32.toNat_inj.mp hnat)

theorem levenshteinDistance_eq (s t : Text) :
    levenshteinDistance s t = some (editDist s t) := by
  rw [levenshteinDistance]
  split_ifs with heq hs ht hascii
  · rw [heq, editDist_self]
  · rw [List.isEmpty_iff.mp hs, editDist_nil_left]
  · rw [List.isEmpty_iff.mp ht, editDist_nil_right]
  · rw [Bool.and_eq_true] at hascii
    rw [distanceOf_eq, editDist_asBytes hascii.1 hascii.2]
  · exact distanceOf_eq s t

/-- The distance is the least number of edits, and the order of the strings does not matter. -/
theorem levenshteinDistance_isLeast (s t : Text) :
    (∃ d, levenshteinDistance s t = some d ∧ IsLeast {n | Edits n s t} d) ∧
      levenshteinDistance s t = levenshteinDistance t s := by
  refine ⟨⟨editDist s t, levenshteinDistance_eq s t, editDist_isLeast s t⟩, ?_⟩
  rw [levenshteinDistance_eq, levenshteinDistance_eq, editDist_comm]

end Wedb
