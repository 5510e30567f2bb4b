import Wedb.List.Layout

/-!
# Reading commands

The commands that read a list answer what they would of the sequence it stores:
its length, a slice, an element and the positions of an element.
-/

namespace Wedb

open UInt64 (word)

/-- What a command finds under a key: no metadata, or that of a stored list. -/
inductive ListFound (s : Store) (kc : KeyComposer) (key : Key) : Option ListMeta → List Bytes → Prop
  | absent : s.family kc key .listData = ∅ → ListFound s kc key none []
  | present {m : ListMeta} {xs : List Bytes} : xs ≠ [] → xs.length < 2 ^ 63 →
      ListLayout m xs (s.family kc key .listData) → ListFound s kc key (some m) xs

/-- The key stores a sequence whose length fits a signed word, and nothing else. -/
structure ListHeld (s : Store) (kc : KeyComposer) (key : Key) (xs : List Bytes) : Prop where
  only : ListsOnly s kc key
  rep : ListRep s kc key xs
  length_lt : xs.length < 2 ^ 63

section
variable {s : Store} {kc : KeyComposer} {key : Key} {m : ListMeta} {xs : List Bytes}
  {now : UInt64} {i : ℕ} {U : SortedMap Bytes Bytes}

theorem ListHeld.found (h : ListHeld s kc key xs) (now : UInt64) :
    ∃ r, getListMeta s kc key now = .ok r ∧ ListFound s kc key r xs := by
  obtain ⟨honly, hrep, hlen⟩ := h
  cases hrep with
  | absent hget hempty => exact ⟨none, getListMeta_absent honly hget, .absent hempty⟩
  | present hget hne hl =>
    exact ⟨some _, getListMeta_present honly hget hne hl, .present hne hlen hl⟩

namespace ListLayout

theorem size_ne_zero (h : ListLayout m xs U) (hne : xs ≠ []) : m.base.size ≠ 0 := by
  intro h0
  have hlen := h.size
  rw [h0] at hlen
  exact hne (List.length_eq_zero_iff.mp hlen.symm)

theorem size_pos (h : ListLayout m xs U) (hne : xs ≠ []) : m.base.size > 0 := by
  rw [gt_iff_lt, UInt64.lt_iff_toNat_lt, h.size]
  exact List.length_pos_of_ne_nil hne

theorem asI64_size (h : ListLayout m xs U) (hlen : xs.length < 2 ^ 63) :
    m.base.size.asI64 = xs.length := by
  rw [UInt64.asI64_of_lt (by rw [h.size]; exact hlen), h.size]

end ListLayout

/-! ## Ranges and indices -/

theorem normalizeRange_eq (start stop : ℤ) {n : ℕ} (hn : 0 < n) :
    normalizeRange start stop n = (Seq.first n start, Seq.last n stop) := by
  have hlen : ¬(n : ℤ) ≤ 0 := by omega
  rw [normalizeRange, if_neg hlen, Seq.first, Seq.last]
  refine Prod.ext ?_ ?_
  · simp only
    split_ifs <;> omega
  · simp only
    split_ifs <;> omega

theorem Seq.first_nonneg (n : ℕ) (start : ℤ) : 0 ≤ first n start := by
  unfold first
  split_ifs <;> omega

theorem Seq.last_lt (n : ℕ) (stop : ℤ) : last n stop < n := by
  unfold last
  omega

theorem word_ofInt (head : UInt64) {z : ℤ} (hz : 0 ≤ z) :
    head + UInt64.ofInt z = word head z.toNat := by
  obtain ⟨n, rfl⟩ := Int.eq_ofNat_of_zero_le hz
  rw [UInt64.ofInt_natCast]
  rfl

theorem resolveListOffset_eq (h : ListLayout m xs U) (hne : xs ≠ []) (hlen : xs.length < 2 ^ 63)
    (index : Int64) : resolveListOffset m.base.size index =
      (Seq.resolve xs.length index.toInt).map UInt64.ofNat := by
  have hlow := Int64.le_toInt index
  have hneg : index < 0 ↔ index.toInt < 0 := Int64.lt_iff_toInt_lt
  rw [resolveListOffset, if_neg (h.size_ne_zero hne), h.asI64_size hlen, Seq.resolve]
  simp only [hneg]
  set i : ℤ := if index.toInt < 0 then xs.length + index.toInt else index.toInt with hi
  have hmin : ¬i < -2 ^ 63 := by
    rw [hi]
    split_ifs <;> omega
  rw [if_neg hmin]
  by_cases hin : 0 ≤ i ∧ i < xs.length
  · rw [if_pos hin, if_pos hin, Option.map_some]
    obtain ⟨n, hn⟩ := Int.eq_ofNat_of_zero_le hin.1
    rw [hn, UInt64.ofInt_natCast, Int.toNat_natCast]
  · rw [if_neg hin, if_neg hin]
    rfl

theorem Seq.resolve_lt {n : ℕ} {index : ℤ} (h : resolve n index = some i) : i < n := by
  unfold resolve at h
  simp only at h
  split_ifs at h with hin
  · cases h
    omega
  · cases h
    omega

/-! ## The commands -/

theorem llen_eq (h : ListHeld s kc key xs) :
    ∃ n, llen s kc key now = .ok n ∧ n.toNat = xs.length := by
  obtain ⟨r, hr, hf⟩ := h.found now
  unfold llen
  rw [hr]
  cases hf with
  | absent _ => exact ⟨0, rfl, rfl⟩
  | present hne hlen hl => exact ⟨_, rfl, hl.size⟩

theorem lrange_eq (h : ListHeld s kc key xs) (start stop : Int64) :
    lrange s kc key now start stop = .ok (Seq.slice start.toInt stop.toInt xs) := by
  obtain ⟨r, hr, hf⟩ := h.found now
  unfold lrange
  rw [hr]
  cases hf with
  | absent _ => simp [Seq.slice, bind, Except.bind, pure, Except.pure]
  | @present m _ hne hlen hl =>
    have hpos := List.length_pos_of_ne_nil hne
    simp only [bind, Except.bind, if_neg (hl.size_ne_zero hne), hl.asI64_size hlen,
      normalizeRange_eq start.toInt stop.toInt hpos]
    have hb := Seq.first_nonneg xs.length start.toInt
    have he := Seq.last_lt xs.length stop.toInt
    rw [Seq.slice]
    set b := Seq.first xs.length start.toInt
    set e := Seq.last xs.length stop.toInt
    by_cases hbe : b > e
    · have hn : (e - b + 1).toNat = 0 := by omega
      rw [if_pos hbe]
      simp only [hn, List.take_zero]
      rfl
    · rw [if_neg hbe, word_ofInt m.head hb, word_ofInt m.head (show 0 ≤ e by omega)]
      have hn : (e - b + 1).toNat = e.toNat + 1 - b.toNat := by omega
      simp only [hn]
      split_ifs with hle
      · rw [rangeValues_eq hl.stored (by omega) (by omega) (by omega) hle]
        rfl
      · rw [readOffsets_range' hl.stored (by omega), List.map_take, List.map_drop,
          map_snd_enumerate]
        rfl

theorem lindex_eq (h : ListHeld s kc key xs) (index : Int64) :
    lindex s kc key now index =
      .ok ((Seq.resolve xs.length index.toInt).bind fun i => xs[i]?) := by
  obtain ⟨r, hr, hf⟩ := h.found now
  unfold lindex
  rw [hr]
  cases hf with
  | absent _ =>
    cases Seq.resolve ([] : List Bytes).length index.toInt <;> rfl
  | @present m _ hne hlen hl =>
    simp only [bind, Except.bind, if_pos (hl.size_pos hne), resolveListOffset_eq hl hne hlen]
    cases hres : Seq.resolve xs.length index.toInt with
    | none => rfl
    | some i =>
      have hi := Seq.resolve_lt hres
      simp only [Option.map_some]
      rw [show m.head + UInt64.ofNat i = word m.head i from rfl,
        getListItem_word hl.stored (by omega)]
      rfl

end

/-! ## Searching for positions -/

section
variable {α : Type} {l : List α} {p : α → Bool} {n : ℕ}

theorem takeWhile_eq_take (h : ∀ i x, l[i]? = some x → (p x = true ↔ i < n)) :
    l.takeWhile p = l.take n := by
  induction l generalizing n with
  | nil => simp
  | cons x l ih =>
    have hx := h 0 x rfl
    cases n with
    | zero => rw [List.take_zero, List.takeWhile_cons_of_neg fun hp => absurd (hx.mp hp) (by omega)]
    | succ n =>
      rw [List.takeWhile_cons_of_pos (hx.mpr (Nat.succ_pos n)), List.take_succ_cons, ih]
      intro i y hy
      rw [h (i + 1) y hy, Nat.succ_lt_succ_iff]

end

theorem lposLoop_eq (elem : Bytes) {rank limit : ℕ} {multi : Bool}
    (hmulti : multi = false → limit = 1) {rankCount : ℕ} {acc : List ℕ}
    {visited : List (ℕ × Bytes)} (hacc : acc.length < limit) :
    lposLoop elem rank limit multi rankCount acc visited =
      acc ++ ((Seq.matchOffsets elem visited).drop (rank - 1 - rankCount)).take (limit - acc.length) := by
  induction visited generalizing rankCount acc with
  | nil => simp [lposLoop, Seq.matchOffsets]
  | cons x visited ih =>
    obtain ⟨offset, v⟩ := x
    simp only [lposLoop]
    by_cases hv : v = elem
    · have hmatch : Seq.matchOffsets elem ((offset, v) :: visited) =
          offset :: Seq.matchOffsets elem visited := by
        simp [Seq.matchOffsets, hv]
      rw [if_pos hv, hmatch]
      by_cases hr : rankCount + 1 ≥ rank
      · have hskip : rank - 1 - rankCount = 0 := by omega
        have hnext : rank - 1 - (rankCount + 1) = 0 := by omega
        have hroom : limit - acc.length = limit - (acc.length + 1) + 1 := by omega
        rw [if_pos hr, hskip, List.drop_zero, hroom, List.take_succ_cons]
        by_cases hstop : acc.length + 1 ≥ limit
        · have hzero : limit - (acc.length + 1) = 0 := by omega
          rw [if_pos, hzero, List.take_zero]
          cases multi with
          | true => simpa using hstop
          | false => rfl
        · rw [if_neg, ih (by simpa using hstop), hnext, List.drop_zero, List.append_assoc,
            List.length_append]
          · rfl
          · cases multi with
            | true => simpa using hstop
            | false => exact absurd (hmulti rfl) (by omega)
      · have hskip : rank - 1 - rankCount = rank - 1 - (rankCount + 1) + 1 := by omega
        rw [if_neg hr, hskip, List.drop_succ_cons, ih hacc]
    · have hmatch : Seq.matchOffsets elem ((offset, v) :: visited) =
          Seq.matchOffsets elem visited := by
        simp [Seq.matchOffsets, hv]
      rw [if_neg hv, hmatch, ih hacc]

section
variable {s : Store} {kc : KeyComposer} {key : Key} {m : ListMeta} {xs : List Bytes}
  {now : UInt64}

theorem takeWhile_enumerate (xs : List Bytes) (limit : ℕ) :
    (enumerate xs).takeWhile (fun x => decide (x.1 < limit)) = (enumerate xs).take limit := by
  refine takeWhile_eq_take fun i x hx => ?_
  rw [getElem?_enumerate, Option.map_eq_some_iff] at hx
  obtain ⟨v, -, rfl⟩ := hx
  exact decide_eq_true_iff

theorem takeWhile_enumerate_reverse (xs : List Bytes) {limit : ℕ} (hlimit : limit ≤ xs.length) :
    (enumerate xs).reverse.takeWhile (fun x => decide (xs.length - limit ≤ x.1)) =
      (enumerate xs).reverse.take limit := by
  refine takeWhile_eq_take fun i x hx => ?_
  have hi : i < (enumerate xs).length := by
    simpa using (List.getElem?_eq_some_iff.mp hx).1
  rw [List.getElem?_reverse hi, getElem?_enumerate, Option.map_eq_some_iff] at hx
  obtain ⟨v, -, rfl⟩ := hx
  rw [length_enumerate] at hi
  simp only [length_enumerate, decide_eq_true_iff]
  omega

theorem lposScan_eq (h : StoredWindow m.head xs (s.family kc key .listData))
    (hlen : xs.length < 2 ^ 63) (hne : xs ≠ []) {limit : ℕ} (hlimit : limit ≤ xs.length)
    (reversed : Bool) : lposScan s kc key m xs.length limit reversed =
      if reversed then (enumerate xs).reverse.take limit else (enumerate xs).take limit := by
  have hword : m.head + UInt64.ofNat (xs.length - 1) = word m.head (xs.length - 1) := rfl
  unfold lposScan
  simp only [hword]
  split_ifs with hle hrev hrev
  · rw [scanBackward_eq h (by omega) hne, takeWhile_enumerate_reverse xs hlimit]
  · rw [scanForward_eq h (by omega) hne, takeWhile_enumerate]
  · rw [readOffsets_reverse, readOffsets_range' h (by omega), List.take_of_length_le (by simp),
      List.reverse_drop, length_enumerate]
    congr 1
    omega
  · rw [List.range_eq_range', readOffsets_range' h (by omega), List.drop_zero]

theorem Seq.length_matchOffsets_le (elem : Bytes) (visited : List (ℕ × Bytes)) :
    (matchOffsets elem visited).length ≤ visited.length := by
  rw [matchOffsets, List.length_map]
  exact List.length_filter_le _ _

theorem Seq.searchLimit_le (maxLen : Option ℕ) (n : ℕ) : searchLimit maxLen n ≤ n := by
  cases maxLen with
  | none => exact le_rfl
  | some l =>
    simp only [searchLimit]
    split_ifs <;> omega

theorem Seq.length_visited_le (rank : ℤ) (limit : ℕ) (xs : List Bytes) :
    (visited rank limit xs).length ≤ min limit xs.length := by
  unfold visited
  split_ifs <;> simp

theorem lposLimit_eq (maxLen : Option UInt64) (n : ℕ) :
    lposLimit maxLen n = Seq.searchLimit (maxLen.map UInt64.toNat) n := by
  cases maxLen with
  | none => rfl
  | some l =>
    refine if_congr ?_ rfl rfl
    rw [← UInt64.toNat_inj]
    rfl

theorem take_lposCountLimit (count : Option UInt64) {found : List ℕ}
    (hlen : found.length < 2 ^ 63) :
    found.take (lposCountLimit count) =
      match count.map UInt64.toNat with
      | some c => if c = 0 then found else found.take c
      | none => found.take 1 := by
  cases count with
  | none => rfl
  | some c =>
    simp only [lposCountLimit, Option.map_some]
    by_cases hc : c = 0
    · subst hc
      rw [if_pos rfl, List.take_of_length_le (by unfold usizeMax; omega)]
      rfl
    · have hnat : c.toNat ≠ 0 := fun h0 => hc (UInt64.toNat_inj.mp h0)
      rw [if_neg hc, if_neg hnat]

theorem lpos_eq (h : ListHeld s kc key xs) (elem : Bytes) (options : List LPos) :
    lpos s kc key now elem options =
      let (rank, count, maxLen) := lposOptions options
      if rank = 0 then .error (.invalidData errRankZero)
      else .ok ((Seq.positions elem rank.toInt (count.map UInt64.toNat)
        (maxLen.map UInt64.toNat) xs).map Int.ofNat) := by
  obtain ⟨r, hr, hf⟩ := h.found now
  unfold lpos
  obtain ⟨rank, count, maxLen⟩ := lposOptions options
  simp only
  by_cases hrank : rank = 0
  · rw [if_pos hrank, if_pos hrank]
  rw [if_neg hrank, if_neg hrank, hr]
  have hle := Seq.searchLimit_le (maxLen.map UInt64.toNat) xs.length
  have hshort := (Seq.length_matchOffsets_le elem
    (Seq.visited rank.toInt (Seq.searchLimit (maxLen.map UInt64.toNat) xs.length) xs)).trans
    (Seq.length_visited_le _ _ _)
  have hdrop := List.length_drop (i := rank.toInt.natAbs - 1) (l := Seq.matchOffsets elem
    (Seq.visited rank.toInt (Seq.searchLimit (maxLen.map UInt64.toNat) xs.length) xs))
  have hlen := h.length_lt
  have hpositions := take_lposCountLimit count (hdrop.trans_lt (show _ < 2 ^ 63 by omega))
  have hspec : Seq.positions elem rank.toInt (count.map UInt64.toNat) (maxLen.map UInt64.toNat)
      xs = _ := hpositions.symm
  rw [hspec]
  set limit := Seq.searchLimit (maxLen.map UInt64.toNat) xs.length with hlimit
  cases hf with
  | absent _ =>
    have hnil : Seq.matchOffsets elem (Seq.visited rank.toInt limit []) = [] := by
      rw [← List.length_eq_zero_iff]
      simpa using hshort
    rw [hnil, List.drop_nil, List.take_nil]
    rfl
  | @present m _ hne hlen hl =>
    simp only [bind, Except.bind, if_neg (hl.size_ne_zero hne), lposLimit_eq, hl.size, ← hlimit]
    by_cases hfar : rank.toInt.natAbs > limit ∨ rank.toInt.natAbs > xs.length
    · rw [if_pos hfar, List.drop_eq_nil_of_le (by omega), List.take_nil]
      rfl
    · have hneg : rank < 0 ↔ rank.toInt < 0 := Int64.lt_iff_toInt_lt
      have hcount : 0 < lposCountLimit count := by
        cases count with
        | none => exact Nat.one_pos
        | some c =>
          simp only [lposCountLimit]
          split_ifs with hc
          · decide
          · exact Nat.pos_of_ne_zero fun h0 => hc (UInt64.toNat_inj.mp h0)
      rw [if_neg hfar, lposScan_eq hl.stored hlen hne hle,
        lposLoop_eq elem (fun hmulti => ?_) hcount]
      · simp only [List.nil_append, List.length_nil, Nat.sub_zero, Seq.visited, hneg,
          decide_eq_true_eq]
        rfl
      · cases count with
        | none => rfl
        | some c => cases hmulti

end

end Wedb
