import Wedb.TimeSeries.BitIo
import Wedb.Engine.Error
import Wedb.Ordered.Saturating

/-!
# Timestamps by the change of their gaps

The first timestamp is written whole and the first gap in thirty-two bits. Every later gap
is written as its change against the one before, in one of five classes of growing width;
the widest keeps the low thirty-two bits of the change.
-/

namespace Wedb

open MsbBits (bits ofBytes takeBits)

/-! ## Writing -/

def writeDod (w : BitWriter) (dod : Int64) : BitWriter :=
  if dod = 0 then w.writeBit false
  else if -63 ≤ dod ∧ dod ≤ 64 then (w.writeBits 0b10 2).writeBits (dod + 63).toUInt64 7
  else if -255 ≤ dod ∧ dod ≤ 256 then (w.writeBits 0b110 3).writeBits (dod + 255).toUInt64 9
  else if -2047 ≤ dod ∧ dod ≤ 2048 then (w.writeBits 0b1110 4).writeBits (dod + 2047).toUInt64 12
  else (w.writeBits 0b1111 4).writeBits dod.toUInt64.toUInt32.toUInt64 32

def dodsOf (prevTs prevDelta : UInt64) : List UInt64 → List Int64
  | [] => []
  | ts :: rest =>
    let curDelta := ts.satSub prevTs
    (curDelta.toInt64 - prevDelta.toInt64) :: dodsOf ts curDelta rest

def compressTimestamps : List UInt64 → Bytes
  | [] => []
  | [t0] => (BitWriter.writeBits {} t0 64).finish
  | t0 :: t1 :: rest =>
    let delta0 := t1.satSub t0
    let w := (BitWriter.writeBits {} t0 64).writeBits delta0 32
    ((dodsOf t1 delta0 rest).foldl writeDod w).finish

/-! ## Reading -/

section
variable {data : Bytes}

def readDod (r : BitReader data) : Option (Int64 × BitReader data) :=
  r.readBit.bind fun (bit, r) =>
    if !bit then some (0, r)
    else
      r.readBit.bind fun (b2, r) =>
        if !b2 then (r.readBits 7).map fun (val, r) => (val.toInt64 - 63, r)
        else
          r.readBit.bind fun (b3, r) =>
            if !b3 then (r.readBits 9).map fun (val, r) => (val.toInt64 - 255, r)
            else
              r.readBit.bind fun (b4, r) =>
                if !b4 then (r.readBits 12).map fun (val, r) => (val.toInt64 - 2047, r)
                else (r.readBits 32).map fun (val, r) => (val.toUInt32.toInt32.toInt64, r)

def nextTs (prevTs prevDelta : UInt64) (dod : Int64) : UInt64 × UInt64 :=
  let curDelta := (max (prevDelta.toInt64 + dod) 0).toUInt64
  (prevTs.satAdd curDelta, curDelta)

def errMissingT0 : Error := .invalidData "ERR TSDB: corrupted timestamp stream (missing t0)"
def errMissingDelta0 : Error := .invalidData "ERR TSDB: corrupted timestamp stream (missing delta0)"
def errDodBit : Error := .invalidData "ERR TSDB: corrupted timestamp dod bit"

def readTimestamps (r : BitReader data) (prevTs prevDelta : UInt64) : ℕ → Except Error (List UInt64)
  | 0 => .ok []
  | n + 1 =>
    match readDod r with
    | none => .error errDodBit
    | some (dod, r) =>
      let next := nextTs prevTs prevDelta dod
      (readTimestamps r next.1 next.2 n).map (next.1 :: ·)

def readLastTimestamp (r : BitReader data) (prevTs prevDelta : UInt64) : ℕ → Option UInt64
  | 0 => some prevTs
  | n + 1 =>
    match readDod r with
    | none => none
    | some (dod, r) =>
      let next := nextTs prevTs prevDelta dod
      readLastTimestamp r next.1 next.2 n

end

def decompressTimestampsInto (data : Bytes) (count : ℕ) (out : List UInt64) :
    Except Error (List UInt64) :=
  if count = 0 ∨ data = [] then .ok out
  else
    match (({} : BitReader data)).readBits 64 with
    | none => .error errMissingT0
    | some (t0, r) =>
      if count = 1 then .ok (out ++ [t0])
      else
        match r.readBits 32 with
        | none => .error errMissingDelta0
        | some (delta0, r) =>
          let prevTs := t0.satAdd delta0
          (readTimestamps r prevTs delta0 (count - 2)).map fun rest => out ++ t0 :: prevTs :: rest

def decompressLastTimestamp (data : Bytes) (count : ℕ) : Option UInt64 :=
  if count = 0 ∨ data = [] then none
  else
    (({} : BitReader data).readBits 64).bind fun (t0, r) =>
      if count = 1 then some t0
      else
        (r.readBits 32).bind fun (delta0, r) =>
          let prevTs := t0.satAdd delta0
          if count = 2 then some prevTs else readLastTimestamp r prevTs delta0 (count - 2)

/-! ## The bits of a change -/

def dodBits (dod : Int64) : List Bool :=
  if dod = 0 then [false]
  else if -63 ≤ dod ∧ dod ≤ 64 then [true, false] ++ bits 7 (dod + 63).toUInt64.toNat
  else if -255 ≤ dod ∧ dod ≤ 256 then [true, true, false] ++ bits 9 (dod + 255).toUInt64.toNat
  else if -2047 ≤ dod ∧ dod ≤ 2048 then
    [true, true, true, false] ++ bits 12 (dod + 2047).toUInt64.toNat
  else [true, true, true, true] ++ bits 32 dod.toUInt64.toUInt32.toUInt64.toNat

def codedDod (dod : Int64) : Int64 :=
  if -2047 ≤ dod ∧ dod ≤ 2048 then dod else dod.toUInt64.toUInt32.toInt32.toInt64

def takeDod : List Bool → Option (Int64 × List Bool)
  | false :: l => some (0, l)
  | true :: false :: l => (takeBits 7 l).map fun x => ((UInt64.ofNat x.1).toInt64 - 63, x.2)
  | true :: true :: false :: l => (takeBits 9 l).map fun x => ((UInt64.ofNat x.1).toInt64 - 255, x.2)
  | true :: true :: true :: false :: l =>
    (takeBits 12 l).map fun x => ((UInt64.ofNat x.1).toInt64 - 2047, x.2)
  | true :: true :: true :: true :: l =>
    (takeBits 32 l).map fun x => ((UInt64.ofNat x.1).toUInt32.toInt32.toInt64, x.2)
  | _ => none

theorem writeDod_spec {w : BitWriter} (hw : w.Clean) (dod : Int64) :
    (writeDod w dod).written = w.written ++ dodBits dod ∧ (writeDod w dod).Clean := by
  have hfield : ∀ (flag val : UInt64) (a b : ℕ), a ≤ 64 → b ≤ 64 →
      ((w.writeBits flag a).writeBits val b).written =
        w.written ++ (bits a flag.toNat ++ bits b val.toNat) ∧
      ((w.writeBits flag a).writeBits val b).Clean := by
    intro flag val a b ha hb
    obtain ⟨hfirst, hclean⟩ := BitWriter.writeBits_spec hw flag ha
    obtain ⟨hsecond, hclean'⟩ := BitWriter.writeBits_spec hclean val hb
    exact ⟨by rw [hsecond, hfirst, List.append_assoc], hclean'⟩
  rw [writeDod, dodBits]
  split_ifs
  · exact BitWriter.writeBit_spec hw false
  · exact hfield 0b10 _ 2 7 (by omega) (by omega)
  · exact hfield 0b110 _ 3 9 (by omega) (by omega)
  · exact hfield 0b1110 _ 4 12 (by omega) (by omega)
  · exact hfield 0b1111 _ 4 32 (by omega) (by omega)

theorem writeDods_spec {w : BitWriter} (hw : w.Clean) (dods : List Int64) :
    (dods.foldl writeDod w).written = w.written ++ dods.flatMap dodBits ∧
      (dods.foldl writeDod w).Clean := by
  induction dods generalizing w with
  | nil => simpa using hw
  | cons dod dods ih =>
    obtain ⟨hfirst, hclean⟩ := writeDod_spec hw dod
    obtain ⟨hrest, hclean'⟩ := ih hclean
    rw [List.foldl_cons, List.flatMap_cons, ← List.append_assoc, ← hfirst]
    exact ⟨hrest, hclean'⟩

theorem offset_dod {dod c : Int64} {n : ℕ} (hn : n ≤ 12)
    (hlow : -c.toInt ≤ dod.toInt) (hhigh : dod.toInt + c.toInt < 2 ^ n) :
    (UInt64.ofNat ((dod + c).toUInt64.toNat % 2 ^ n)).toInt64 - c = dod := by
  have hpow : (2 : ℤ) ^ n ≤ 2 ^ 12 := pow_le_pow_right₀ (by norm_num) hn
  have hsum : (dod + c).toInt = dod.toInt + c.toInt := by
    rw [Int64.toInt_add]
    exact Int.bmod_eq_of_le (by omega) (by omega)
  have hpos : (0 : Int64) ≤ dod + c := by
    rw [Int64.le_iff_toInt_le, hsum]
    exact (by omega : (0 : ℤ) ≤ dod.toInt + c.toInt)
  have hnat : ((dod + c).toUInt64.toNat : ℤ) = dod.toInt + c.toInt := by
    rw [Int64.toNat_toUInt64_of_le hpos, Int64.toNatClampNeg, hsum]
    omega
  have hlt : (dod + c).toUInt64.toNat < 2 ^ n := by
    have : ((dod + c).toUInt64.toNat : ℤ) < ((2 ^ n : ℕ) : ℤ) := by
      rw [hnat]
      exact_mod_cast hhigh
    exact_mod_cast this
  rw [Nat.mod_eq_of_lt hlt, UInt64.ofNat_toNat, Int64.toInt64_toUInt64, Int64.add_sub_cancel]

theorem takeBits_class {dod c : Int64} {n : ℕ} (hn : n ≤ 12)
    (hsmall : -2047 ≤ dod.toInt ∧ dod.toInt ≤ 2048) (hlow : -c.toInt ≤ dod.toInt)
    (hhigh : dod.toInt + c.toInt < 2 ^ n) (rest : List Bool) :
    ((takeBits n (bits n (dod + c).toUInt64.toNat ++ rest)).map fun x =>
      ((UInt64.ofNat x.1).toInt64 - c, x.2)) = some (codedDod dod, rest) := by
  have hcoded : -2047 ≤ dod ∧ dod ≤ 2048 := by
    rw [Int64.le_iff_toInt_le, Int64.le_iff_toInt_le]
    exact hsmall
  rw [MsbBits.takeBits_bits, Option.map_some, offset_dod hn hlow hhigh, codedDod, if_pos hcoded]

theorem takeDod_dodBits (dod : Int64) (rest : List Bool) :
    takeDod (dodBits dod ++ rest) = some (codedDod dod, rest) := by
  rw [dodBits]
  split_ifs with h0 h1 h2 h3
  · rw [h0]
    rfl
  · rw [Int64.le_iff_toInt_le, Int64.le_iff_toInt_le] at h1
    have hrange : -63 ≤ dod.toInt ∧ dod.toInt ≤ 64 := h1
    have h63 : (63 : Int64).toInt = 63 := rfl
    exact takeBits_class (n := 7) (c := 63) (by omega) (by omega) (by omega) (by omega) rest
  · rw [Int64.le_iff_toInt_le, Int64.le_iff_toInt_le] at h2
    have hrange : -255 ≤ dod.toInt ∧ dod.toInt ≤ 256 := h2
    have h255 : (255 : Int64).toInt = 255 := rfl
    exact takeBits_class (n := 9) (c := 255) (by omega) (by omega) (by omega) (by omega) rest
  · rw [Int64.le_iff_toInt_le, Int64.le_iff_toInt_le] at h3
    have hrange : -2047 ≤ dod.toInt ∧ dod.toInt ≤ 2048 := h3
    have h2047 : (2047 : Int64).toInt = 2047 := rfl
    exact takeBits_class (n := 12) (c := 2047) (by omega) (by omega) (by omega) (by omega)
      rest
  · have htake := MsbBits.takeBits_bits 32 dod.toUInt64.toUInt32.toUInt64.toNat rest
    have hlt : dod.toUInt64.toUInt32.toUInt64.toNat < 2 ^ 32 := by
      rw [UInt32.toNat_toUInt64]
      exact dod.toUInt64.toUInt32.toNat_lt
    rw [Nat.mod_eq_of_lt hlt] at htake
    have hback : (UInt64.ofNat dod.toUInt64.toUInt32.toUInt64.toNat).toUInt32 =
        dod.toUInt64.toUInt32 := by
      rw [UInt64.ofNat_toNat, UInt32.toUInt32_toUInt64]
    rw [codedDod, if_neg h3]
    simp only [List.cons_append, List.nil_append, takeDod, htake, hback, Option.map_some]

theorem readBit_cases {data : Bytes} (r : BitReader data) :
    (r.readBit = none ∧ r.left = []) ∨ ∃ b r', r.readBit = some (b, r') ∧ r.left = b :: r'.left := by
  have hspec := r.readBit_spec
  cases hread : r.readBit with
  | none =>
    rw [hread] at hspec
    cases hleft : r.left with
    | nil => exact .inl ⟨rfl, rfl⟩
    | cons b l =>
      rw [hleft] at hspec
      cases hspec
  | some x =>
    rw [hread] at hspec
    cases hleft : r.left with
    | nil =>
      rw [hleft] at hspec
      cases hspec
    | cons b l =>
      rw [hleft] at hspec
      obtain ⟨rfl, rfl⟩ := Prod.mk.inj (Option.some.inj hspec)
      exact .inr ⟨x.1, x.2, rfl, rfl⟩

theorem readBits_map {data : Bytes} {α : Type} (r : BitReader data) {n : ℕ} (hn : n ≤ 64)
    (f : UInt64 → α) : ((r.readBits n).map fun x => (f x.1, x.2.left)) =
      (takeBits n r.left).map fun x => (f (UInt64.ofNat x.1), x.2) := by
  rw [← r.readBits_spec hn, Option.map_map]
  simp [Function.comp_def]

theorem readBits_cases {data : Bytes} (r : BitReader data) {n : ℕ} (hn : n ≤ 64) :
    (r.readBits n = none ∧ takeBits n r.left = none) ∨ ∃ val r' v, r.readBits n = some (val, r') ∧
      takeBits n r.left = some (v, r'.left) ∧ UInt64.ofNat v = val := by
  have hspec := r.readBits_spec hn
  cases hread : r.readBits n with
  | none =>
    rw [hread] at hspec
    exact .inl ⟨rfl, hspec.symm⟩
  | some x =>
    rw [hread] at hspec
    exact .inr ⟨x.1, x.2, x.1.toNat, rfl, hspec.symm, UInt64.ofNat_toNat⟩

theorem readDod_spec {data : Bytes} (r : BitReader data) :
    ((readDod r).map fun x => (x.1, x.2.left)) = takeDod r.left := by
  rw [readDod]
  rcases readBit_cases r with ⟨h1, hl1⟩ | ⟨b1, r1, h1, hl1⟩
  · rw [h1, hl1]
    rfl
  · rw [h1, hl1]
    cases b1 with
    | false => rfl
    | true =>
      rcases readBit_cases r1 with ⟨h2, hl2⟩ | ⟨b2, r2, h2, hl2⟩
      · simp [h2, hl2, takeDod]
      · rw [hl2]
        cases b2 with
        | false =>
          simp only [Option.bind_some, h2, takeDod, Option.map_map, Function.comp_def, Bool.not_true,
            Bool.not_false, Bool.false_eq_true, if_true, if_false]
          exact readBits_map r2 (by omega) fun val => val.toInt64 - 63
        | true =>
          rcases readBit_cases r2 with ⟨h3, hl3⟩ | ⟨b3, r3, h3, hl3⟩
          · simp [h2, h3, hl3, takeDod]
          · rw [hl3]
            cases b3 with
            | false =>
              simp only [Option.bind_some, h2, h3, takeDod, Option.map_map, Function.comp_def, Bool.not_true,
                Bool.not_false, Bool.false_eq_true, if_true, if_false]
              exact readBits_map r3 (by omega) fun val => val.toInt64 - 255
            | true =>
              rcases readBit_cases r3 with ⟨h4, hl4⟩ | ⟨b4, r4, h4, hl4⟩
              · simp [h2, h3, h4, hl4, takeDod]
              · rw [hl4]
                cases b4 with
                | false =>
                  simp only [Option.bind_some, h2, h3, h4, takeDod, Option.map_map, Function.comp_def, Bool.not_true,
                    Bool.not_false, Bool.false_eq_true, if_true, if_false]
                  exact readBits_map r4 (by omega) fun val => val.toInt64 - 2047
                | true =>
                  simp only [Option.bind_some, h2, h3, h4, takeDod, Option.map_map, Function.comp_def, Bool.not_true,
                    Bool.false_eq_true, if_false]
                  exact readBits_map r4 (by omega) fun val => val.toUInt32.toInt32.toInt64

theorem takeDod_extend {l rest : List Bool} {dod : Int64} (h : takeDod l = some (dod, rest))
    (m : List Bool) : takeDod (l ++ m) = some (dod, rest ++ m) := by
  have hfield : ∀ {n : ℕ} {l : List Bool} {f : ℕ → Int64},
      ((takeBits n l).map fun x => (f x.1, x.2)) = some (dod, rest) →
      ((takeBits n (l ++ m)).map fun x => (f x.1, x.2)) = some (dod, rest ++ m) := by
    intro n l f hmap
    obtain ⟨⟨v, rest'⟩, htake, heq⟩ := Option.map_eq_some_iff.mp hmap
    obtain ⟨rfl, rfl⟩ := Prod.mk.inj heq
    rw [MsbBits.takeBits_extend htake m]
    rfl
  revert h
  fun_cases takeDod l with
  | case1 l =>
    intro h
    obtain ⟨rfl, rfl⟩ := Prod.mk.inj (Option.some.inj h)
    rfl
  | case2 l => exact hfield (f := fun v => (UInt64.ofNat v).toInt64 - 63)
  | case3 l => exact hfield (f := fun v => (UInt64.ofNat v).toInt64 - 255)
  | case4 l => exact hfield (f := fun v => (UInt64.ofNat v).toInt64 - 2047)
  | case5 l => exact hfield (f := fun v => (UInt64.ofNat v).toUInt32.toInt32.toInt64)
  | case6 => exact fun h => by cases h

/-! ## The bits of timestamps -/

def takeTimestamps (prevTs prevDelta : UInt64) : ℕ → List Bool → Option (List UInt64 × List Bool)
  | 0, l => some ([], l)
  | n + 1, l =>
    (takeDod l).bind fun x =>
      (takeTimestamps (nextTs prevTs prevDelta x.1).1 (nextTs prevTs prevDelta x.1).2 n x.2).map
        fun y => ((nextTs prevTs prevDelta x.1).1 :: y.1, y.2)

def takeStream (count : ℕ) (l : List Bool) : Option (List UInt64 × List Bool) :=
  (takeBits 64 l).bind fun x =>
    let t0 := UInt64.ofNat x.1
    if count = 1 then some ([t0], x.2)
    else
      (takeBits 32 x.2).bind fun y =>
        let delta0 := UInt64.ofNat y.1
        (takeTimestamps (t0.satAdd delta0) delta0 (count - 2) y.2).map fun z =>
          (t0 :: t0.satAdd delta0 :: z.1, z.2)

section
variable {data : Bytes} {r : BitReader data} {prevTs prevDelta : UInt64} {n count : ℕ}

theorem toOption_map_ok {ε α β : Type} (f : α → β) (x : Except ε α) :
    (x.map f).toOption = x.toOption.map f := by
  cases x <;> rfl

theorem readTimestamps_spec : (readTimestamps r prevTs prevDelta n).toOption =
    (takeTimestamps prevTs prevDelta n r.left).map Prod.fst := by
  induction n generalizing r prevTs prevDelta with
  | zero => rfl
  | succ n ih =>
    rw [readTimestamps, takeTimestamps, ← readDod_spec]
    cases hread : readDod r with
    | none => rfl
    | some x =>
      simp only [Option.map_some, Option.bind_some, Option.map_map]
      rw [toOption_map_ok, ih, Option.map_map]
      rfl

theorem readLastTimestamp_spec : readLastTimestamp r prevTs prevDelta n =
    (takeTimestamps prevTs prevDelta n r.left).map fun x => x.1.getLastD prevTs := by
  induction n generalizing r prevTs prevDelta with
  | zero => rfl
  | succ n ih =>
    rw [readLastTimestamp, takeTimestamps, ← readDod_spec]
    cases hread : readDod r with
    | none => rfl
    | some x =>
      simp only [Option.map_some, Option.bind_some, Option.map_map]
      rw [ih]
      refine Option.map_congr fun y _ => ?_
      rw [Function.comp_apply, List.getLastD_cons]

theorem takeTimestamps_extend {l rest : List Bool} {ts : List UInt64}
    (h : takeTimestamps prevTs prevDelta n l = some (ts, rest)) (m : List Bool) :
    takeTimestamps prevTs prevDelta n (l ++ m) = some (ts, rest ++ m) := by
  induction n generalizing prevTs prevDelta l ts with
  | zero =>
    obtain ⟨rfl, rfl⟩ := Prod.mk.inj (Option.some.inj h)
    rfl
  | succ n ih =>
    rw [takeTimestamps] at h ⊢
    obtain ⟨⟨dod, l'⟩, hdod, h⟩ := Option.bind_eq_some_iff.mp h
    obtain ⟨⟨ts', rest'⟩, hrest, heq⟩ := Option.map_eq_some_iff.mp h
    obtain ⟨rfl, rfl⟩ := Prod.mk.inj heq
    rw [takeDod_extend hdod m, Option.bind_some, ih hrest]
    rfl

theorem takeStream_extend {l rest : List Bool} {ts : List UInt64}
    (h : takeStream count l = some (ts, rest)) (m : List Bool) :
    takeStream count (l ++ m) = some (ts, rest ++ m) := by
  rw [takeStream] at h ⊢
  obtain ⟨⟨t0, l'⟩, ht0, h⟩ := Option.bind_eq_some_iff.mp h
  rw [MsbBits.takeBits_extend ht0 m, Option.bind_some]
  dsimp only at h ⊢
  split_ifs at h ⊢ with hone
  · obtain ⟨rfl, rfl⟩ := Prod.mk.inj (Option.some.inj h)
    rfl
  · obtain ⟨⟨delta0, l''⟩, hdelta, h⟩ := Option.bind_eq_some_iff.mp h
    obtain ⟨⟨ts', rest'⟩, hrest, heq⟩ := Option.map_eq_some_iff.mp h
    obtain ⟨rfl, rfl⟩ := Prod.mk.inj heq
    rw [MsbBits.takeBits_extend hdelta m, Option.bind_some, takeTimestamps_extend hrest]
    rfl

theorem decompressTimestampsInto_spec (hdata : data ≠ []) (hcount : count ≠ 0) (out : List UInt64) :
    (decompressTimestampsInto data count out).toOption =
      (takeStream count (ofBytes data)).map fun x => out ++ x.1 := by
  have hnone : ¬(count = 0 ∨ data = []) := not_or.mpr ⟨hcount, hdata⟩
  have hleft : ({} : BitReader data).left = ofBytes data := rfl
  rw [decompressTimestampsInto, if_neg hnone, takeStream, ← hleft]
  rcases readBits_cases ({} : BitReader data) (n := 64) le_rfl with ⟨h, htake⟩ | ⟨t0, r, v, h, htake, rfl⟩
  · rw [h, htake]
    rfl
  · rw [h, htake, Option.bind_some]
    dsimp only
    by_cases hone : count = 1
    · rw [if_pos hone, if_pos hone]
      rfl
    · rw [if_neg hone, if_neg hone]
      rcases readBits_cases r (n := 32) (by omega) with ⟨h', htake'⟩ | ⟨delta0, r', v', h', htake', rfl⟩
      · rw [h', htake']
        rfl
      · rw [h', htake', Option.bind_some]
        dsimp only
        rw [toOption_map_ok, readTimestamps_spec, Option.map_map, Option.map_map]
        rfl

theorem decompressLastTimestamp_spec (hdata : data ≠ []) (hcount : count ≠ 0) :
    decompressLastTimestamp data count =
      (takeStream count (ofBytes data)).map fun x => x.1.getLastD 0 := by
  have hnone : ¬(count = 0 ∨ data = []) := not_or.mpr ⟨hcount, hdata⟩
  have hleft : ({} : BitReader data).left = ofBytes data := rfl
  rw [decompressLastTimestamp, if_neg hnone, takeStream, ← hleft]
  rcases readBits_cases ({} : BitReader data) (n := 64) le_rfl with ⟨h, htake⟩ | ⟨t0, r, v, h, htake, rfl⟩
  · rw [h, htake]
    rfl
  · rw [h, htake, Option.bind_some, Option.bind_some]
    dsimp only
    by_cases hone : count = 1
    · rw [if_pos hone, if_pos hone]
      rfl
    · rw [if_neg hone, if_neg hone]
      rcases readBits_cases r (n := 32) (by omega) with ⟨h', htake'⟩ | ⟨delta0, r', v', h', htake', rfl⟩
      · rw [h', htake']
        rfl
      · rw [h', htake', Option.bind_some, Option.bind_some]
        dsimp only
        rw [readLastTimestamp_spec, Option.map_map]
        split_ifs with htwo
        · rw [htwo]
          rfl
        · refine Option.map_congr fun y _ => ?_
          rw [Function.comp_apply, List.getLastD_cons, List.getLastD_cons]

end

/-! ## What is restored -/

def restoreTs (prevTs prevDelta : UInt64) : List Int64 → List UInt64
  | [] => []
  | dod :: dods =>
    (nextTs prevTs prevDelta dod).1 ::
      restoreTs (nextTs prevTs prevDelta dod).1 (nextTs prevTs prevDelta dod).2 dods

def restoredTimestamps : List UInt64 → List UInt64
  | [] => []
  | [t0] => [t0]
  | t0 :: t1 :: rest =>
    let delta0 := UInt64.ofNat ((t1.satSub t0).toNat % 2 ^ 32)
    t0 :: t0.satAdd delta0 ::
      restoreTs (t0.satAdd delta0) delta0 ((dodsOf t1 (t1.satSub t0) rest).map codedDod)

theorem dodsOf_length (prevTs prevDelta : UInt64) (ts : List UInt64) :
    (dodsOf prevTs prevDelta ts).length = ts.length := by
  induction ts generalizing prevTs prevDelta with
  | nil => rfl
  | cons t ts ih => rw [dodsOf, List.length_cons, ih, List.length_cons]

theorem takeTimestamps_dodBits (prevTs prevDelta : UInt64) (dods : List Int64) (rest : List Bool) :
    takeTimestamps prevTs prevDelta dods.length (dods.flatMap dodBits ++ rest) =
      some (restoreTs prevTs prevDelta (dods.map codedDod), rest) := by
  induction dods generalizing prevTs prevDelta with
  | nil => rfl
  | cons dod dods ih =>
    rw [List.length_cons, List.flatMap_cons, List.append_assoc, takeTimestamps, takeDod_dodBits,
      Option.bind_some, ih]
    rfl

def timestampBits : List UInt64 → List Bool
  | [] => []
  | [t0] => bits 64 t0.toNat
  | t0 :: t1 :: rest =>
    bits 64 t0.toNat ++ (bits 32 (t1.satSub t0).toNat ++ (dodsOf t1 (t1.satSub t0) rest).flatMap dodBits)

theorem compressTimestamps_spec {ts : List UInt64} (hts : ts ≠ []) : ∃ pad : List Bool,
    pad.length < 8 ∧ ofBytes (compressTimestamps ts) = timestampBits ts ++ pad := by
  have hempty : BitWriter.Clean {} := rfl
  obtain ⟨hfirst, hclean⟩ := BitWriter.writeBits_spec hempty (ts.headD 0) (n := 64) le_rfl
  match ts, hts with
  | [t0], _ =>
    obtain ⟨pad, hpad, hfinish⟩ := BitWriter.finish_spec _ hclean
    exact ⟨pad, hpad, by rw [hfirst] at hfinish; exact hfinish⟩
  | t0 :: t1 :: rest, _ =>
    obtain ⟨hsecond, hclean'⟩ := BitWriter.writeBits_spec hclean (t1.satSub t0) (n := 32) (by omega)
    obtain ⟨hrest, hclean''⟩ := writeDods_spec hclean' (dodsOf t1 (t1.satSub t0) rest)
    obtain ⟨pad, hpad, hfinish⟩ := BitWriter.finish_spec _ hclean''
    refine ⟨pad, hpad, ?_⟩
    rw [hrest, hsecond, hfirst, List.append_assoc _ (bits 32 _), List.append_assoc] at hfinish
    rw [timestampBits, List.append_assoc]
    exact hfinish

theorem takeStream_timestampBits {ts : List UInt64} (hts : ts ≠ []) (rest : List Bool) :
    takeStream ts.length (timestampBits ts ++ rest) = some (restoredTimestamps ts, rest) := by
  match ts, hts with
  | [t0], _ =>
    simp [takeStream, timestampBits, MsbBits.takeBits_bits, restoredTimestamps]
  | t0 :: t1 :: rest', _ =>
    have hlt : t0.toNat % 2 ^ 64 = t0.toNat := Nat.mod_eq_of_lt t0.toNat_lt
    have hcount : (t0 :: t1 :: rest').length - 2 = (dodsOf t1 (t1.satSub t0) rest').length := by
      rw [dodsOf_length]
      simp
    have hone : ¬(t0 :: t1 :: rest').length = 1 := by simp
    rw [takeStream, timestampBits, List.append_assoc, List.append_assoc, MsbBits.takeBits_bits,
      Option.bind_some]
    dsimp only
    rw [if_neg hone, MsbBits.takeBits_bits, Option.bind_some]
    dsimp only
    rw [hcount, takeTimestamps_dodBits, hlt, UInt64.ofNat_toNat]
    rfl

end Wedb
