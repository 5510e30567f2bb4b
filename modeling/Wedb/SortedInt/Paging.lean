import Wedb.SortedInt.Runs

/-!
# Paging through a set

The last id of a page is the cursor of the next one. A cursor leaves itself out, and the
cursor zero stands for the whole set, so that a page that ends with the id zero is followed
by the first page again.
-/

namespace Wedb

/-- A caller stops at a page without ids, or already at one that is not full. -/
def StopsAt (stopsShort : Bool) (limit : ℕ) (page : List UInt64) : Prop :=
  if stopsShort then page.length < limit else page = []

/-- The ids of the pages from a cursor on. Every page has a clock of its own. -/
inductive SiPages (s : Store) (kc : KeyComposer) (key : Key) (clock : ℕ → UInt64) (limit : ℕ)
    (reversed stopsShort : Bool) : ℕ → UInt64 → List UInt64 → Prop
  | last {i : ℕ} {cursor : UInt64} {page : List UInt64} :
      siRange s kc key (clock i) cursor 0 limit reversed = .ok page →
      StopsAt stopsShort limit page →
      SiPages s kc key clock limit reversed stopsShort i cursor page
  | more {i : ℕ} {cursor id : UInt64} {page rest : List UInt64} :
      siRange s kc key (clock i) cursor 0 limit reversed = .ok page →
      ¬StopsAt stopsShort limit page → page.getLast? = some id →
      SiPages s kc key clock limit reversed stopsShort (i + 1) id rest →
      SiPages s kc key clock limit reversed stopsShort i cursor (page ++ rest)

def IdSet.listed (X : Finset UInt64) (reversed : Bool) : List UInt64 :=
  if reversed then (inOrder X).reverse else inOrder X

def zeroPlace (X : Finset UInt64) (reversed : Bool) : ℕ := if reversed then X.card else 1

/-- No page that is followed by another one ends with zero. -/
def ZeroPassed (X : Finset UInt64) (limit : ℕ) (reversed stopsShort : Bool) : Prop :=
  0 ∉ X ∨ zeroPlace X reversed % limit ≠ 0 ∧ (stopsShort = true ∨ zeroPlace X reversed ≠ X.card)

instance (X : Finset UInt64) (limit : ℕ) (reversed stopsShort : Bool) :
    Decidable (ZeroPassed X limit reversed stopsShort) :=
  inferInstanceAs (Decidable (_ ∨ _ ∧ _))

variable {s : Store} {kc : KeyComposer} {key : Key} {S : IdSet} {X : Finset UInt64}
  {clock : ℕ → UInt64} {limit i q : ℕ} {reversed stopsShort : Bool} {cursor id : UInt64}
  {out page : List UInt64} {e : Engine} {Ss : IdSets}

/-! ## The list of ids -/

@[simp] theorem IdSet.mem_listed : id ∈ listed X reversed ↔ id ∈ X := by
  cases reversed with
  | false => exact mem_inOrder
  | true => rw [listed, if_pos rfl, List.mem_reverse, mem_inOrder]

@[simp] theorem IdSet.length_listed : (listed X reversed).length = X.card := by
  cases reversed with
  | false => exact length_inOrder X
  | true => rw [listed, if_pos rfl, List.length_reverse, length_inOrder]

theorem IdSet.nodup_listed : (listed X reversed).Nodup := by
  cases reversed with
  | false => exact inOrder_nodup X
  | true => exact List.nodup_reverse.mpr (inOrder_nodup X)

theorem IdSet.pastCursor_zero (X : Finset UInt64) (reversed : Bool) :
    pastCursor X 0 reversed = listed X reversed := by
  simp only [pastCursor, true_or, Finset.filter_true, listed]

theorem IdSet.pastCursor_of_split {before rest : List UInt64}
    (h : listed X reversed = before ++ id :: rest) (hne : id ≠ 0) :
    pastCursor X id reversed = rest := by
  simp only [pastCursor, hne, false_or]
  cases reversed with
  | false =>
    have hsorted := inOrder_lt X
    rw [listed, if_neg Bool.false_ne_true] at h
    rw [h] at hsorted
    rw [if_neg Bool.false_ne_true, inOrder_filter, h, (filter_around hsorted).2]
  | true =>
    rw [listed, if_pos rfl, List.reverse_eq_iff, List.reverse_append, List.reverse_cons,
      List.append_assoc, List.singleton_append] at h
    have hsorted := inOrder_lt X
    rw [h] at hsorted
    rw [if_pos rfl, inOrder_filter, h, (filter_around hsorted).1, List.reverse_reverse]

theorem IdSet.pastCursor_of_getElem? {j : ℕ} (h : (listed X reversed)[j]? = some id)
    (hne : id ≠ 0) : pastCursor X id reversed = (listed X reversed).drop (j + 1) := by
  obtain ⟨hlt, hget⟩ := List.getElem?_eq_some_iff.mp h
  refine @pastCursor_of_split X reversed id ((listed X reversed).take j) _ ?_ hne
  rw [← hget, List.getElem_cons_drop, List.take_append_drop]

/-- Zero stands first in increasing order and last in decreasing order. -/
theorem IdSet.getElem?_zero (h : 0 ∈ X) : (listed X reversed)[zeroPlace X reversed - 1]? = some 0 := by
  have hrank : rank X 0 = 0 := by
    refine Finset.card_eq_zero.mpr (Finset.filter_eq_empty_iff.mpr fun a _ hlt => ?_)
    rw [UInt64.lt_iff_toNat_lt] at hlt
    exact absurd hlt (Nat.not_lt_zero _)
  have hfirst : (inOrder X)[0]? = some 0 := getElem?_inOrder.mpr ⟨h, hrank⟩
  have hpos : 0 < X.card := Finset.card_pos.mpr ⟨0, h⟩
  cases reversed with
  | false => exact hfirst
  | true =>
    have hlast : (inOrder X).length - 1 - (X.card - 1) = 0 := by
      rw [length_inOrder]
      omega
    rw [listed, if_pos rfl, zeroPlace, if_pos rfl,
      List.getElem?_reverse (by rw [length_inOrder]; omega), hlast, hfirst]

theorem IdSet.zeroPlace_eq {j : ℕ} (h : (listed X reversed)[j]? = some 0) :
    0 ∈ X ∧ zeroPlace X reversed = j + 1 := by
  have hmem : 0 ∈ X := mem_listed.mp (List.mem_of_getElem? h)
  have hpos : 0 < X.card := Finset.card_pos.mpr ⟨0, hmem⟩
  have hone : 1 ≤ zeroPlace X reversed := by
    rw [zeroPlace]
    split_ifs <;> omega
  have hplace := @getElem?_zero X reversed hmem
  obtain ⟨hj, hget⟩ := List.getElem?_eq_some_iff.mp h
  obtain ⟨hj', hget'⟩ := List.getElem?_eq_some_iff.mp hplace
  have heq := (List.Nodup.getElem_inj_iff nodup_listed).mp (hget.trans hget'.symm)
  exact ⟨hmem, by omega⟩

/-! ## Pages -/

theorem siPage_eq (h : SiHolds s kc key S) (hlive : ∀ i, S.live (clock i) = X) (i : ℕ)
    (cursor : UInt64) : siRange s kc key (clock i) cursor 0 limit reversed =
      .ok ((IdSet.pastCursor X cursor reversed).take limit) := by
  rw [siRange_spec h, hlive i]
  rfl

theorem getLast?_page {L : List UInt64} (hq : q < L.length) (hlimit : 1 ≤ limit) :
    ((L.drop q).take limit).getLast? = L[min (q + limit) L.length - 1]? := by
  have hlen : min limit (L.length - q) - 1 < limit := by omega
  have hidx : q + (min limit (L.length - q) - 1) = min (q + limit) L.length - 1 := by omega
  rw [List.getLast?_eq_getElem?, List.length_take, List.length_drop, List.getElem?_take_of_lt hlen,
    List.getElem?_drop, hidx]

theorem not_stopsAt_length {L : List UInt64} (hlimit : 1 ≤ limit)
    (h : ¬StopsAt stopsShort limit ((L.drop q).take limit)) : q < L.length ∧
      (q + limit ≤ L.length ∨ stopsShort = false) := by
  rw [StopsAt] at h
  cases stopsShort with
  | false =>
    rw [if_neg Bool.false_ne_true, List.take_eq_nil_iff, List.drop_eq_nil_iff] at h
    exact ⟨by omega, .inr rfl⟩
  | true =>
    rw [if_pos rfl, List.length_take, List.length_drop] at h
    exact ⟨by omega, .inl (by omega)⟩

theorem stopsAt_length {L : List UInt64} (hlimit : 1 ≤ limit)
    (h : StopsAt stopsShort limit ((L.drop q).take limit)) :
    L.length ≤ q ∨ L.length < q + limit ∧ stopsShort = true := by
  rw [StopsAt] at h
  cases stopsShort with
  | false =>
    rw [if_neg Bool.false_ne_true, List.take_eq_nil_iff, List.drop_eq_nil_iff] at h
    exact .inl (by omega)
  | true =>
    rw [if_pos rfl, List.length_take, List.length_drop] at h
    by_cases hq : L.length ≤ q
    · exact .inl hq
    · exact .inr ⟨by omega, rfl⟩

/-- Pages that never hand zero out run through the list from any page border on. -/
theorem siPages_of_zeroPassed (h : SiHolds s kc key S) (hlive : ∀ i, S.live (clock i) = X)
    (hlimit : 1 ≤ limit) (hzero : ZeroPassed X limit reversed stopsShort)
    (hq : q % limit = 0 ∨ X.card ≤ q)
    (hcursor : IdSet.pastCursor X cursor reversed = (IdSet.listed X reversed).drop q) :
    SiPages s kc key clock limit reversed stopsShort i cursor
      ((IdSet.listed X reversed).drop q) := by
  induction hn : X.card - q using Nat.strong_induction_on generalizing cursor i q with
  | _ n ih =>
    have hpage := @siPage_eq s kc key S X clock limit reversed h hlive i cursor
    rw [hcursor] at hpage
    by_cases hstop : StopsAt stopsShort limit (((IdSet.listed X reversed).drop q).take limit)
    · have hall : ((IdSet.listed X reversed).drop q).take limit =
          (IdSet.listed X reversed).drop q := by
        refine List.take_of_length_le ?_
        have hlen := stopsAt_length hlimit hstop
        rw [List.length_drop]
        omega
      have hlast := SiPages.last hpage hstop
      rw [hall] at hlast
      exact hlast
    · have hlen := not_stopsAt_length hlimit hstop
      rw [IdSet.length_listed] at hlen
      have hin : min (q + limit) (IdSet.listed X reversed).length - 1 <
          (IdSet.listed X reversed).length := by
        rw [IdSet.length_listed]
        omega
      have hlast := @getLast?_page limit q (IdSet.listed X reversed)
        (by rw [IdSet.length_listed]; exact hlen.1) hlimit
      have hget := List.getElem?_eq_getElem hin
      have hne : (IdSet.listed X reversed)[min (q + limit) (IdSet.listed X reversed).length - 1] ≠
          0 := by
        intro hx
        rw [hx] at hget
        obtain ⟨hmem, hplace⟩ := IdSet.zeroPlace_eq hget
        rw [IdSet.length_listed] at hplace
        obtain ⟨hmod, hshort⟩ := hzero.resolve_left (not_not.mpr hmem)
        by_cases hfull : q + limit ≤ X.card
        · have hend : zeroPlace X reversed = q + limit := by omega
          rw [hend, Nat.add_mod_right] at hmod
          omega
        · rcases hshort with hshort | hshort
          · rw [hshort] at hlen
            simp at hlen
            omega
          · omega
      have hnext := IdSet.pastCursor_of_getElem? hget hne
      have hplace : min (q + limit) (IdSet.listed X reversed).length - 1 + 1 =
          min (q + limit) X.card := by
        rw [IdSet.length_listed]
        omega
      rw [hplace] at hnext
      have hborder : min (q + limit) X.card % limit = 0 ∨ X.card ≤ min (q + limit) X.card := by
        by_cases hfull : q + limit ≤ X.card
        · left
          rw [min_eq_left hfull, Nat.add_mod_right]
          omega
        · right
          omega
      have hrest := ih (X.card - min (q + limit) X.card) (by omega) hborder hnext rfl (i := i + 1)
      have hmore := SiPages.more hpage hstop (hlast.trans hget) hrest
      have hdrop : ((IdSet.listed X reversed).drop q).drop limit =
          (IdSet.listed X reversed).drop (min (q + limit) X.card) := by
        rw [List.drop_drop]
        by_cases hfull : q + limit ≤ X.card
        · rw [min_eq_left hfull]
        · rw [List.drop_of_length_le (by rw [IdSet.length_listed]; omega),
            List.drop_of_length_le (by rw [IdSet.length_listed]; omega)]
      rw [← hdrop, List.take_append_drop] at hmore
      exact hmore

theorem next_border {p : ℕ} (hq : q % limit = 0) (hp : p % limit = 0) (hlt : q < p) :
    q + limit ≤ p := by
  have hdvd := Nat.dvd_sub (Nat.dvd_of_mod_eq_zero hp) (Nat.dvd_of_mod_eq_zero hq)
  have hle := Nat.le_of_dvd (by omega) hdvd
  omega

theorem not_siPages_of_zero (h : SiHolds s kc key S) (hlive : ∀ i, S.live (clock i) = X)
    (hlimit : 1 ≤ limit) (hmem : 0 ∈ X)
    (hzero : zeroPlace X reversed % limit = 0 ∨
      stopsShort = false ∧ zeroPlace X reversed = X.card)
    (hpages : SiPages s kc key clock limit reversed stopsShort i cursor out)
    (hq : q % limit = 0) (hplace : q < zeroPlace X reversed)
    (hcursor : IdSet.pastCursor X cursor reversed = (IdSet.listed X reversed).drop q) : False := by
  have hpos : 0 < X.card := Finset.card_pos.mpr ⟨0, hmem⟩
  have hcard : zeroPlace X reversed ≤ X.card := by
    rw [zeroPlace]
    split_ifs <;> omega
  induction hpages generalizing q with
  | @last i cursor page hpage hstop =>
    rw [siPage_eq h hlive, hcursor, Except.ok.injEq] at hpage
    rw [← hpage] at hstop
    have hlen := stopsAt_length hlimit hstop
    rw [IdSet.length_listed] at hlen
    rcases hlen with hlen | ⟨hlen, hshort⟩
    · omega
    · have hmod := hzero.resolve_right fun hlast => by simp [hshort] at hlast
      have hborder := next_border hq hmod hplace
      omega
  | @more i cursor id page rest hpage hstop hlast _ ih =>
    rw [siPage_eq h hlive, hcursor, Except.ok.injEq] at hpage
    rw [← hpage] at hstop hlast
    obtain ⟨hlt, hlen⟩ := not_stopsAt_length hlimit hstop
    rw [getLast?_page hlt hlimit] at hlast
    rw [IdSet.length_listed] at hlt hlen hlast
    by_cases hid : id = 0
    · refine ih (Nat.zero_mod limit) (by omega) ?_
      rw [hid, IdSet.pastCursor_zero, List.drop_zero]
    · have hother : zeroPlace X reversed ≠ min (q + limit) X.card := by
        intro heq
        have hget := @IdSet.getElem?_zero X reversed hmem
        rw [heq] at hget
        exact hid (Option.some.inj (hlast.symm.trans hget))
      have hnext := IdSet.pastCursor_of_getElem? hlast hid
      have hin : q + limit < zeroPlace X reversed := by
        rcases hzero with hmod | ⟨hshort, hend⟩
        · have hborder := next_border hq hmod hplace
          omega
        · omega
      have hsucc : min (q + limit) X.card - 1 + 1 = q + limit := by omega
      rw [hsucc] at hnext
      exact ih (by rw [Nat.add_mod_right]; exact hq) hin hnext

/-- Paging from cursor zero ends with every id once, in order, exactly where no page before
another one ends with zero. -/
theorem siPages_iff (h : SiHolds s kc key S) (hlive : ∀ i, S.live (clock i) = X)
    (hlimit : 1 ≤ limit) :
    SiPages s kc key clock limit reversed stopsShort 0 0 (IdSet.listed X reversed) ↔
      ZeroPassed X limit reversed stopsShort := by
  constructor
  · intro hpages
    by_contra hzero
    rw [ZeroPassed, not_or, not_not] at hzero
    obtain ⟨hmem, hbad⟩ := hzero
    have hpos : 0 < X.card := Finset.card_pos.mpr ⟨0, hmem⟩
    have hplace : 0 < zeroPlace X reversed := by
      rw [zeroPlace]
      split_ifs <;> omega
    refine not_siPages_of_zero h hlive hlimit hmem ?_ hpages (Nat.zero_mod limit) hplace ?_
    · by_cases hmod : zeroPlace X reversed % limit = 0
      · exact .inl hmod
      · have hboth := not_or.mp (not_and.mp hbad hmod)
        exact .inr ⟨Bool.eq_false_iff.mpr hboth.1, not_not.mp hboth.2⟩
    · rw [IdSet.pastCursor_zero, List.drop_zero]
  · intro hzero
    have hpages := @siPages_of_zeroPassed s kc key S X clock limit 0 0 reversed stopsShort 0 h hlive
      hlimit hzero (.inl (Nat.zero_mod limit)) (by rw [IdSet.pastCursor_zero, List.drop_zero])
    rw [List.drop_zero] at hpages
    exact hpages

/-- After every run, paging through a live set returns every id once, in order, exactly where
no page before another one ends with zero. -/
theorem sortedInt_pages_iff (hr : SiRun e Ss) (hlive : ∀ i, (Ss kc key).live (clock i) = X)
    (hlimit : 1 ≤ limit) :
    SiPages e.store kc key clock limit reversed stopsShort 0 0 (IdSet.listed X reversed) ↔
      ZeroPassed X limit reversed stopsShort :=
  siPages_iff (hr.holds kc key) hlive hlimit

def sampleSiZero : SiCall := ⟨⟨0, 0⟩, sampleKey, 1, 1, .siAdd [0, 5]⟩

theorem sampleSiZero_run : ∃ e Ss, SiRun e Ss ∧ ∀ now, (Ss ⟨0, 0⟩ sampleKey).live now = {0, 5} := by
  have hrun : ((sampleSiZero.exec .empty).map fun x => x.1).toOption = some (.count 2) := by
    decide +kernel
  obtain ⟨⟨reply, e⟩, hexec, -⟩ := exists_ok_of_toOption_map hrun
  refine ⟨e, _, SiRun.start.call hexec, fun now => ?_⟩
  rfl

theorem sortedInt_pages_iff_sample : ∃ e Ss, SiRun e Ss ∧
    SiPages e.store ⟨0, 0⟩ sampleKey (fun _ => 2) 3 false false 0 0
      (IdSet.listed {0, 5} false) := by
  obtain ⟨e, Ss, hr, hlive⟩ := sampleSiZero_run
  have hpages := (@sortedInt_pages_iff ⟨0, 0⟩ sampleKey {0, 5} (fun _ => 2) 3 false false e Ss hr
    (fun _ => hlive 2) (by decide)).mpr (by decide)
  exact ⟨e, Ss, hr, hpages⟩

/-- Pages of one id never get past zero, and in decreasing order they start anew after it. -/
theorem sortedInt_pages_not_complete : ∃ e Ss, SiRun e Ss ∧
    (∀ i, (Ss ⟨0, 0⟩ sampleKey).live i = {0, 5}) ∧
    (∀ stopsShort, ¬SiPages e.store ⟨0, 0⟩ sampleKey (fun _ => 2) 1 false stopsShort 0 0
      (IdSet.listed {0, 5} false)) ∧
    ∀ stopsShort, ¬SiPages e.store ⟨0, 0⟩ sampleKey (fun _ => 2) 2 true stopsShort 0 0
      (IdSet.listed {0, 5} true) := by
  obtain ⟨e, Ss, hr, hlive⟩ := sampleSiZero_run
  refine ⟨e, Ss, hr, hlive, ?_, ?_⟩
  · intro stopsShort
    rw [siPages_iff (hr.holds _ _) (fun _ => hlive 2) (by decide)]
    revert stopsShort
    decide
  · intro stopsShort
    rw [siPages_iff (hr.holds _ _) (fun _ => hlive 2) (by decide)]
    revert stopsShort
    decide

end Wedb
