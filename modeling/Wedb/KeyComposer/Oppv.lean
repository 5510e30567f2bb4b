import Wedb.Ordered.ByteString

/-!
# Order-preserving prefix varints

The marker bits of the first byte give the width, so that the encoding is
delimited and `memcmp` order is numeric order. Both follow from reading an
encoding as one big-endian number of its width.
-/

namespace Wedb

def oppvLenU64 (val : UInt64) : ℕ :=
  if val < 0x80 then 1
  else if val < 0x4000 then 2
  else if val < 0x200000 then 3
  else if val < 0x10000000 then 4
  else 9

def encodeOppvU64 (val : UInt64) : Bytes :=
  if val < 0x80 then [val.toUInt8]
  else if val < 0x4000 then [(0x80 : UInt8) ||| (val >>> 8).toUInt8, (val &&& 0xFF).toUInt8]
  else if val < 0x200000 then
    [(0xC0 : UInt8) ||| (val >>> 16).toUInt8, ((val >>> 8) &&& 0xFF).toUInt8, (val &&& 0xFF).toUInt8]
  else if val < 0x10000000 then
    [(0xE0 : UInt8) ||| (val >>> 24).toUInt8, ((val >>> 16) &&& 0xFF).toUInt8,
      ((val >>> 8) &&& 0xFF).toUInt8, (val &&& 0xFF).toUInt8]
  else 0xF8 :: val.toBeBytes

def decodeOppvU64 (slice : Bytes) : Option (UInt64 × ℕ) :=
  match slice with
  | [] => none
  | first :: rest =>
    if first < 0x80 then some (first.toUInt64, 1)
    else if first < 0xC0 then
      match rest with
      | b1 :: _ => some (((first &&& 0x3F).toUInt64 <<< 8) ||| b1.toUInt64, 2)
      | _ => none
    else if first < 0xE0 then
      match rest with
      | b1 :: b2 :: _ =>
        some (((first &&& 0x1F).toUInt64 <<< 16) ||| (b1.toUInt64 <<< 8) ||| b2.toUInt64, 3)
      | _ => none
    else if first < 0xF0 then
      match rest with
      | b1 :: b2 :: b3 :: _ =>
        some (((first &&& 0x0F).toUInt64 <<< 24) ||| (b1.toUInt64 <<< 16) |||
          (b2.toUInt64 <<< 8) ||| b3.toUInt64, 4)
      | _ => none
    else if first = 0xF8 then
      if slice.length < 9 then none
      else some (UInt64.fromBeBytes (rest.take 8), 9)
    else none

/-! ## Encodings as big-endian numbers -/

def oppvMarker (val : UInt64) : ℕ :=
  if val < 0x80 then 0
  else if val < 0x4000 then 0x80
  else if val < 0x200000 then 0xC0
  else if val < 0x10000000 then 0xE0
  else 0xF8

def oppvHead (val : UInt64) : ℕ := oppvMarker val + val.toNat / 256 ^ (oppvLenU64 val - 1)

theorem marker_or {i m v : ℕ} (hv : v < 2 ^ i) :
    UInt8.ofNat (m * 2 ^ i) ||| UInt8.ofNat v = UInt8.ofNat (m * 2 ^ i + v) := by
  have hmv : m * 2 ^ i + v = 2 ^ i * m ||| v := by
    rw [mul_comm, Nat.two_pow_add_eq_or_of_lt hv]
  rw [hmv, mul_comm, UInt8.ofNat_or]

theorem shiftRight_toUInt8 (val : UInt64) {k : UInt64} {w : ℕ} (hk : k.toNat = 8 * w)
    (hw : w < 8) : (val >>> k).toUInt8 = UInt8.ofNat (val.toNat / 256 ^ w) := by
  apply UInt8.toNat.inj
  have hmod : k.toNat % 64 = 8 * w := by omega
  rw [UInt64.toNat_toUInt8, UInt64.toNat_shiftRight, hmod, Nat.shiftRight_eq_div_pow,
    UInt8.toNat_ofNat', pow_mul]
  norm_num

theorem and_toUInt8 (val : UInt64) : (val &&& 0xFF).toUInt8 = val.toUInt8 := by
  apply UInt8.toNat.inj
  have hmask : (0xFF : UInt64).toNat = 2 ^ 8 - 1 := rfl
  rw [UInt64.toNat_toUInt8, UInt64.toNat_toUInt8, UInt64.toNat_and, hmask,
    Nat.and_two_pow_sub_one_eq_mod, Nat.mod_mod]

theorem encodeOppvU64_eq_cons (val : UInt64) :
    encodeOppvU64 val =
      UInt8.ofNat (oppvHead val) :: beBytes (oppvLenU64 val - 1) val.toNat := by
  unfold encodeOppvU64 oppvHead oppvLenU64 oppvMarker
  simp only [UInt64.lt_iff_toNat_lt]
  split_ifs with h1 h2 h3 h4
  · simp [beBytes]
  · have hv : val.toNat < 0x4000 := h2
    have hm := marker_or (i := 7) (m := 1) (v := val.toNat / 256 ^ 1) (by omega)
    rw [shiftRight_toUInt8 val (w := 1) rfl (by omega), and_toUInt8]
    simpa [beBytes] using hm
  · have hv : val.toNat < 0x200000 := h3
    have hm := marker_or (i := 6) (m := 3) (v := val.toNat / 256 ^ 2) (by omega)
    rw [shiftRight_toUInt8 val (w := 2) rfl (by omega), and_toUInt8, and_toUInt8,
      shiftRight_toUInt8 val (w := 1) rfl (by omega)]
    simpa [beBytes] using hm
  · have hv : val.toNat < 0x10000000 := h4
    have hm := marker_or (i := 5) (m := 7) (v := val.toNat / 256 ^ 3) (by omega)
    rw [shiftRight_toUInt8 val (w := 3) rfl (by omega), and_toUInt8, and_toUInt8, and_toUInt8,
      shiftRight_toUInt8 val (w := 2) rfl (by omega),
      shiftRight_toUInt8 val (w := 1) rfl (by omega)]
    simpa [beBytes] using hm
  · have h0 : val.toNat / 256 ^ 8 = 0 := Nat.div_eq_of_lt val.toNat_lt_pow
    simp only [Nat.add_one_sub_one, h0]
    rfl

theorem encodeOppvU64_length (val : UInt64) : (encodeOppvU64 val).length = oppvLenU64 val := by
  rw [encodeOppvU64_eq_cons, List.length_cons, beBytes_length]
  unfold oppvLenU64
  split_ifs <;> rfl

/-! ## Decoding -/

theorem shiftLeft_or {hi lo : UInt64} {k : UInt64} {w : ℕ} (hk : k.toNat = 8 * w) (hw : w < 8)
    (hhi : hi.toNat * 256 ^ w < 2 ^ 64) (hlo : lo.toNat < 256 ^ w) :
    ((hi <<< k) ||| lo).toNat = hi.toNat * 256 ^ w + lo.toNat := by
  have hmod : k.toNat % 64 = 8 * w := by omega
  have hpow : (256 : ℕ) ^ w = 2 ^ (8 * w) := by rw [pow_mul]; norm_num
  rw [UInt64.toNat_or, UInt64.toNat_shiftLeft, hmod, Nat.shiftLeft_eq, ← hpow,
    Nat.mod_eq_of_lt hhi, hpow, mul_comm, ← Nat.two_pow_add_eq_or_of_lt (hpow ▸ hlo)]

theorem byte_toNat (n : ℕ) : (UInt8.ofNat n).toUInt64.toNat = n % 256 := by
  rw [UInt8.toNat_toUInt64, UInt8.toNat_ofNat']

theorem byte_lt_iff {n : ℕ} {b : UInt8} (hn : n < 256) : UInt8.ofNat n < b ↔ n < b.toNat := by
  rw [UInt8.lt_iff_toNat_lt, UInt8.toNat_ofNat', Nat.mod_eq_of_lt hn]

theorem and_mask_toNat {i n : ℕ} {b : UInt8} (hb : b.toNat = 2 ^ i - 1) (hn : n < 256) :
    (UInt8.ofNat n &&& b).toUInt64.toNat = n % 2 ^ i := by
  rw [UInt8.toNat_toUInt64, UInt8.toNat_and, hb, Nat.and_two_pow_sub_one_eq_mod,
    UInt8.toNat_ofNat', Nat.mod_eq_of_lt hn]

theorem byte_not_lt {n : ℕ} {b : UInt8} (hn : n < 256) (h : b.toNat ≤ n) : ¬UInt8.ofNat n < b := by
  rw [byte_lt_iff hn]
  omega

theorem decodeOppvU64_one {n : ℕ} (hn : n < 0x80) (t : Bytes) :
    decodeOppvU64 (UInt8.ofNat n :: t) = some (UInt64.ofNat n, 1) := by
  have c1 : UInt8.ofNat n < 0x80 := (byte_lt_iff (by omega)).mpr hn
  have hval : (UInt8.ofNat n).toUInt64 = UInt64.ofNat n := by
    apply UInt64.toNat.inj
    rw [byte_toNat, UInt64.toNat_ofNat_of_lt' (show n < 2 ^ 64 by omega),
      Nat.mod_eq_of_lt (by omega)]
  simp only [decodeOppvU64, c1, if_true, hval]

theorem decodeOppvU64_two {n : ℕ} (hn : n < 0x4000) (t : Bytes) :
    decodeOppvU64 (UInt8.ofNat (0x80 + n / 256) :: UInt8.ofNat n :: t) =
      some (UInt64.ofNat n, 2) := by
  have c1 := byte_not_lt (n := 0x80 + n / 256) (b := 0x80) (by omega) (show 128 ≤ _ by omega)
  have c2 : UInt8.ofNat (0x80 + n / 256) < 0xC0 :=
    (byte_lt_iff (by omega)).mpr (show _ < 192 by omega)
  have hhi : (UInt8.ofNat (0x80 + n / 256) &&& 0x3F).toUInt64.toNat = n / 256 := by
    rw [and_mask_toNat (i := 6) rfl (by omega)]
    omega
  have hval : (((UInt8.ofNat (0x80 + n / 256) &&& 0x3F).toUInt64 <<< 8) |||
      (UInt8.ofNat n).toUInt64) = UInt64.ofNat n := by
    apply UInt64.toNat.inj
    rw [shiftLeft_or (w := 1) rfl (by omega) (by omega) (by rw [byte_toNat]; omega), hhi,
      byte_toNat, UInt64.toNat_ofNat_of_lt' (show n < 2 ^ 64 by omega)]
    omega
  simp only [decodeOppvU64, c1, c2, if_true, if_false, hval]

theorem decodeOppvU64_three {n : ℕ} (hn : n < 0x200000) (t : Bytes) :
    decodeOppvU64 (UInt8.ofNat (0xC0 + n / 256 ^ 2) :: UInt8.ofNat (n / 256) :: UInt8.ofNat n :: t) =
      some (UInt64.ofNat n, 3) := by
  have c1 := byte_not_lt (n := 0xC0 + n / 256 ^ 2) (b := 0x80) (by omega) (show 128 ≤ _ by omega)
  have c2 := byte_not_lt (n := 0xC0 + n / 256 ^ 2) (b := 0xC0) (by omega) (show 192 ≤ _ by omega)
  have c3 : UInt8.ofNat (0xC0 + n / 256 ^ 2) < 0xE0 :=
    (byte_lt_iff (by omega)).mpr (show _ < 224 by omega)
  have hhi : (UInt8.ofNat (0xC0 + n / 256 ^ 2) &&& 0x1F).toUInt64.toNat = n / 256 ^ 2 := by
    rw [and_mask_toNat (i := 5) rfl (by omega)]
    omega
  have hlow : (((UInt8.ofNat (n / 256)).toUInt64 <<< 8) ||| (UInt8.ofNat n).toUInt64).toNat =
      n % 256 ^ 2 := by
    rw [shiftLeft_or (w := 1) rfl (by omega) (by rw [byte_toNat]; omega)
      (by rw [byte_toNat]; omega), byte_toNat, byte_toNat]
    omega
  have hval : (((UInt8.ofNat (0xC0 + n / 256 ^ 2) &&& 0x1F).toUInt64 <<< 16) |||
      ((UInt8.ofNat (n / 256)).toUInt64 <<< 8) ||| (UInt8.ofNat n).toUInt64) = UInt64.ofNat n := by
    apply UInt64.toNat.inj
    rw [UInt64.or_assoc, shiftLeft_or (w := 2) rfl (by omega) (by omega) (by rw [hlow]; omega), hhi,
      hlow, UInt64.toNat_ofNat_of_lt' (show n < 2 ^ 64 by omega)]
    omega
  simp only [decodeOppvU64, c1, c2, c3, if_true, if_false, hval]

theorem decodeOppvU64_four {n : ℕ} (hn : n < 0x10000000) (t : Bytes) :
    decodeOppvU64 (UInt8.ofNat (0xE0 + n / 256 ^ 3) :: UInt8.ofNat (n / 256 ^ 2) ::
      UInt8.ofNat (n / 256) :: UInt8.ofNat n :: t) = some (UInt64.ofNat n, 4) := by
  have c1 := byte_not_lt (n := 0xE0 + n / 256 ^ 3) (b := 0x80) (by omega) (show 128 ≤ _ by omega)
  have c2 := byte_not_lt (n := 0xE0 + n / 256 ^ 3) (b := 0xC0) (by omega) (show 192 ≤ _ by omega)
  have c3 := byte_not_lt (n := 0xE0 + n / 256 ^ 3) (b := 0xE0) (by omega) (show 224 ≤ _ by omega)
  have c4 : UInt8.ofNat (0xE0 + n / 256 ^ 3) < 0xF0 :=
    (byte_lt_iff (by omega)).mpr (show _ < 240 by omega)
  have hhi : (UInt8.ofNat (0xE0 + n / 256 ^ 3) &&& 0x0F).toUInt64.toNat = n / 256 ^ 3 := by
    rw [and_mask_toNat (i := 4) rfl (by omega)]
    omega
  have hlow : (((UInt8.ofNat (n / 256)).toUInt64 <<< 8) ||| (UInt8.ofNat n).toUInt64).toNat =
      n % 256 ^ 2 := by
    rw [shiftLeft_or (w := 1) rfl (by omega) (by rw [byte_toNat]; omega)
      (by rw [byte_toNat]; omega), byte_toNat, byte_toNat]
    omega
  have hmid : (((UInt8.ofNat (n / 256 ^ 2)).toUInt64 <<< 16) |||
      (((UInt8.ofNat (n / 256)).toUInt64 <<< 8) ||| (UInt8.ofNat n).toUInt64)).toNat =
      n % 256 ^ 3 := by
    rw [shiftLeft_or (w := 2) rfl (by omega) (by rw [byte_toNat]; omega)
      (by rw [hlow]; omega), byte_toNat, hlow]
    omega
  have hval : (((UInt8.ofNat (0xE0 + n / 256 ^ 3) &&& 0x0F).toUInt64 <<< 24) |||
      ((UInt8.ofNat (n / 256 ^ 2)).toUInt64 <<< 16) |||
      ((UInt8.ofNat (n / 256)).toUInt64 <<< 8) ||| (UInt8.ofNat n).toUInt64) = UInt64.ofNat n := by
    apply UInt64.toNat.inj
    rw [UInt64.or_assoc, UInt64.or_assoc,
      shiftLeft_or (w := 3) rfl (by omega) (by omega) (by rw [hmid]; omega), hhi,
      hmid, UInt64.toNat_ofNat_of_lt' (show n < 2 ^ 64 by omega)]
    omega
  simp only [decodeOppvU64, c1, c2, c3, c4, if_true, if_false, hval]

theorem decodeOppvU64_nine (val : UInt64) (t : Bytes) :
    decodeOppvU64 (0xF8 :: (val.toBeBytes ++ t)) = some (val, 9) := by
  have hlen : ¬(0xF8 :: (val.toBeBytes ++ t)).length < 9 := by simp
  have htake : (val.toBeBytes ++ t).take 8 = val.toBeBytes := by
    rw [List.take_append_of_le_length (by simp), List.take_of_length_le (by simp)]
  have c1 : ¬(0xF8 : UInt8) < 0x80 := by decide
  have c2 : ¬(0xF8 : UInt8) < 0xC0 := by decide
  have c3 : ¬(0xF8 : UInt8) < 0xE0 := by decide
  have c4 : ¬(0xF8 : UInt8) < 0xF0 := by decide
  simp only [decodeOppvU64, c1, c2, c3, c4, hlen, if_false, if_true, htake,
    UInt64.fromBeBytes_toBeBytes]

theorem decodeOppvU64_encodeOppvU64 (val : UInt64) (t : Bytes) :
    decodeOppvU64 (encodeOppvU64 val ++ t) = some (val, oppvLenU64 val) := by
  have hval : UInt64.ofNat val.toNat = val := UInt64.ofNat_toNat
  rw [encodeOppvU64_eq_cons]
  unfold oppvHead oppvLenU64 oppvMarker
  split_ifs with h1 h2 h3 h4
  · have h := decodeOppvU64_one (n := val.toNat) h1 t
    rw [hval] at h
    simpa [beBytes] using h
  · have h := decodeOppvU64_two (n := val.toNat) h2 t
    rw [hval] at h
    simpa [beBytes] using h
  · have h := decodeOppvU64_three (n := val.toNat) h3 t
    rw [hval] at h
    simpa [beBytes] using h
  · have h := decodeOppvU64_four (n := val.toNat) h4 t
    rw [hval] at h
    simpa [beBytes] using h
  · have h0 : val.toNat / 256 ^ 8 = 0 := Nat.div_eq_of_lt val.toNat_lt_pow
    simp only [Nat.add_one_sub_one, h0]
    exact decodeOppvU64_nine val t

theorem encodeOppvU64_delimited : Delimited encodeOppvU64 := by
  intro a b s t h
  have ha := decodeOppvU64_encodeOppvU64 a s
  rw [h, decodeOppvU64_encodeOppvU64] at ha
  obtain rfl : b = a := congrArg Prod.fst (Option.some.inj ha)
  exact ⟨rfl, List.append_cancel_left h⟩

/-! ## Order -/

theorem oppvHead_lt (val : UInt64) : oppvHead val < 256 := by
  unfold oppvHead oppvMarker oppvLenU64
  simp only [UInt64.lt_iff_toNat_lt]
  split_ifs with h1 h2 h3 h4
  · have hv : val.toNat < 0x80 := h1
    omega
  · have hv : val.toNat < 0x4000 := h2
    omega
  · have hv : val.toNat < 0x200000 := h3
    omega
  · have hv : val.toNat < 0x10000000 := h4
    omega
  · have h0 : val.toNat / 256 ^ 8 = 0 := Nat.div_eq_of_lt val.toNat_lt_pow
    simp only [Nat.add_one_sub_one, h0]
    omega

theorem oppvHead_lt_or_eq {a b : UInt64} (h : a < b) :
    oppvHead a < oppvHead b ∨ oppvHead a = oppvHead b ∧ oppvLenU64 a = oppvLenU64 b ∧
      b.toNat / 256 ^ (oppvLenU64 a - 1) ≤ a.toNat / 256 ^ (oppvLenU64 a - 1) := by
  have hab : a.toNat < b.toNat := h
  have ha0 : a.toNat / 256 ^ 8 = 0 := Nat.div_eq_of_lt a.toNat_lt_pow
  have hb0 : b.toNat / 256 ^ 8 = 0 := Nat.div_eq_of_lt b.toNat_lt_pow
  unfold oppvHead oppvMarker oppvLenU64
  simp only [UInt64.lt_iff_toNat_lt, UInt64.reduceToNat]
  split_ifs <;> omega

theorem encodeOppvU64_lt {a b : UInt64} (h : a < b) : encodeOppvU64 a < encodeOppvU64 b := by
  rw [encodeOppvU64_eq_cons, encodeOppvU64_eq_cons, List.cons_lt_cons_iff]
  rcases oppvHead_lt_or_eq h with hlt | ⟨heq, hlen, hdiv⟩
  · left
    rw [byte_lt_iff (oppvHead_lt a), UInt8.toNat_ofNat', Nat.mod_eq_of_lt (oppvHead_lt b)]
    exact hlt
  · right
    rw [← hlen]
    exact ⟨by rw [heq], beBytes_lt_of_div_le h hdiv⟩

theorem encodeOppvU64_lt_iff {a b : UInt64} : encodeOppvU64 a < encodeOppvU64 b ↔ a < b := by
  refine ⟨fun h => ?_, encodeOppvU64_lt⟩
  rcases lt_trichotomy a.toNat b.toNat with hlt | heq | hgt
  · exact hlt
  · obtain rfl := UInt64.toNat.inj heq
    exact absurd h (lt_irrefl _)
  · exact absurd h (not_lt_of_gt (encodeOppvU64_lt hgt))

theorem encodeOppvU64_eq_of_prefix {a b : UInt64} (hp : encodeOppvU64 a <+: encodeOppvU64 b) :
    a = b := by
  rw [← List.append_nil (encodeOppvU64 b)] at hp
  exact encodeOppvU64_delimited.eq_of_prefix hp

theorem encodeOppvU64_append_lt {a b : UInt64} (h : a < b) (s t : Bytes) :
    encodeOppvU64 a ++ s < encodeOppvU64 b ++ t := by
  refine Bytes.append_lt_append_of_lt (encodeOppvU64_lt h) (fun hp => ?_) s t
  rw [ encodeOppvU64_eq_of_prefix hp] at h
  exact absurd h (UInt64.lt_irrefl b)

/-- The encoding is a prefix code whose order is that of the numbers. -/
theorem oppv_orderPreservingPrefixCode (a b : UInt64) (s t : Bytes) :
    decodeOppvU64 (encodeOppvU64 a ++ s) = some (a, oppvLenU64 a) ∧
    (a < b → encodeOppvU64 a ++ s < encodeOppvU64 b ++ t) ∧
    (encodeOppvU64 a <+: encodeOppvU64 b → encodeOppvU64 a = encodeOppvU64 b) := by
  refine ⟨decodeOppvU64_encodeOppvU64 a s, fun h => encodeOppvU64_append_lt h s t, fun hp => ?_⟩
  rw [ encodeOppvU64_eq_of_prefix hp]

theorem oppv_orderPreservingPrefixCode_boundary :
    [0x7F, 0xFF] < [0x80, 0x80] ++ ([] : Bytes) ∧ encodeOppvU64 0x7F = encodeOppvU64 0x7F :=
  ⟨(oppv_orderPreservingPrefixCode 0x7F 0x80 [0xFF] []).2.1 (by decide),
    (oppv_orderPreservingPrefixCode 0x7F 0x7F [] []).2.2 (List.prefix_refl _)⟩

end Wedb
