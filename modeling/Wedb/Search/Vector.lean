import Wedb.Json.Path
import Wedb.Meta.KeyMeta

/-!
# Vectors in three formats

The format of a vector is guessed from its bytes: a JSON array with a number in it comes first,
then elements of the declared type where the length allows them, then decimals between commas.
The parser of JSON and that of decimals are parameters.
-/

namespace Wedb

open JsonPath (isWhitespace trim)

inductive VectorType
  | float32
  | float64
  deriving DecidableEq, Repr

def VectorType.byteSize : VectorType → ℕ
  | .float32 => 4
  | .float64 => 8

/-- The parser of JSON, what its values say as floats, and the parser of decimals. -/
structure VectorApi where
  fromSlice : Bytes → Option Json
  asF64 : Json → Option F64
  parseF64 : Text → Option F64

def errEmptyVector : String := "empty vector byte format"
def errVectorFormat : String := "invalid vector byte format or length"

/-! ## Single precision -/

namespace F32

/-- The magnitude of the same number in double precision. What is no number becomes quiet. -/
def widen (m : ℕ) : ℕ :=
  let exponent := m / 2 ^ 23
  let fraction := m % 2 ^ 23
  if exponent = 255 then 2047 * 2 ^ 52 + if fraction = 0 then 0 else fraction * 2 ^ 29 ||| 2 ^ 51
  else if exponent ≠ 0 then (exponent + 896) * 2 ^ 52 + fraction * 2 ^ 29
  else if fraction = 0 then 0
  else (873 + fraction.log2) * 2 ^ 52 + fraction * 2 ^ (52 - fraction.log2)

def toF64 (w : UInt32) : F64 :=
  ⟨UInt64.ofNat (w.toNat / 2 ^ 31 * 2 ^ 63 + widen (w.toNat % 2 ^ 31))⟩

end F32

/-! ## The guess -/

def fromLeBytes64 (chunk : Bytes) : F64 := ⟨UInt64.fromBeBytes chunk.reverse⟩

def fromLeBytes32 (chunk : Bytes) : F64 := F32.toF64 (UInt32.ofNat (beNat chunk.reverse))

def asChunks (n : ℕ) (bytes : Bytes) : List Bytes :=
  (List.range (bytes.length / n)).map fun i => (bytes.drop (n * i)).take n

def binaryVector : VectorType → Bytes → List F64
  | .float64, bytes => (asChunks 8 bytes).map fromLeBytes64
  | .float32, bytes => (asChunks 4 bytes).map fromLeBytes32

section
variable (api : VectorApi)

def jsonVector (bytes : Bytes) : List F64 :=
  if bytes.head? = some 0x5B then
    match (api.fromSlice bytes).bind Json.asArray with
    | some arr => arr.filterMap api.asF64
    | none => []
  else []

def parseVectorParts : List Text → Option (List F64)
  | [] => some []
  | part :: parts =>
    let p := trim part
    if p.isEmpty then parseVectorParts parts
    else (api.parseF64 p).bind fun num => (parseVectorParts parts).map fun nums => num :: nums

def textVector (s : Text) : Option (List F64) :=
  if s.contains ',' then
    let clean := ((trim s).dropWhile (· == '[')).rdropWhile (· == ']')
    (parseVectorParts api (clean.splitOnP (· == ','))).filter fun out => !out.isEmpty
  else none

def parseVectorFromSlice (bytes : Bytes) (vectorType : VectorType) : Except Error (List F64) :=
  if bytes.isEmpty then .error (.invalidData errEmptyVector)
  else if !(jsonVector api bytes).isEmpty then .ok (jsonVector api bytes)
  else if bytes.length % vectorType.byteSize = 0 then .ok (binaryVector vectorType bytes)
  else
    match (fromUtf8 bytes).bind fun s => textVector api s.toList with
    | some out => .ok out
    | none => .error (.invalidData errVectorFormat)

end

/-! ## Elements of the declared type -/

def toLeBytes64 (x : F64) : Bytes := x.bits.toBeBytes.reverse

def toLeBytes32 (w : UInt32) : Bytes := w.toBeBytes.reverse

theorem asChunks_flatten {n : ℕ} (hn : 0 < n) {blocks : List Bytes}
    (h : ∀ block ∈ blocks, block.length = n) : asChunks n blocks.flatten = blocks := by
  induction blocks with
  | nil =>
    rw [List.flatten_nil, asChunks, List.length_nil, Nat.zero_div, List.range_zero, List.map_nil]
  | cons block blocks ih =>
    rw [List.forall_mem_cons] at h
    have hrest := ih h.2
    have hlen : (block ++ blocks.flatten).length / n = blocks.flatten.length / n + 1 := by
      rw [List.length_append, h.1, Nat.add_div_left _ hn]
    rw [asChunks] at hrest
    rw [List.flatten_cons, asChunks, hlen, List.range_succ_eq_map, List.map_cons, List.map_map,
      Nat.mul_zero, List.drop_zero, List.take_left' h.1]
    refine congrArg (block :: ·) ((List.map_congr_left fun i _ => ?_).trans hrest)
    rw [Function.comp_apply, Nat.mul_succ, Nat.add_comm, ← List.drop_drop, List.drop_left' h.1]

theorem binaryVector_float64 (v : List F64) :
    binaryVector .float64 (v.flatMap toLeBytes64) = v := by
  have hblocks : ∀ block ∈ v.map toLeBytes64, block.length = 8 := by
    intro block hblock
    obtain ⟨x, -, rfl⟩ := List.mem_map.mp hblock
    rw [toLeBytes64, List.length_reverse, UInt64.toBeBytes_length]
  rw [binaryVector, List.flatMap_def, asChunks_flatten (by decide) hblocks, List.map_map]
  refine (List.map_congr_left fun x _ => ?_).trans (List.map_id v)
  rw [Function.comp_apply, fromLeBytes64, toLeBytes64, List.reverse_reverse,
    UInt64.fromBeBytes_toBeBytes]
  rfl

theorem binaryVector_float32 (ws : List UInt32) :
    binaryVector .float32 (ws.flatMap toLeBytes32) = ws.map F32.toF64 := by
  have hblocks : ∀ block ∈ ws.map toLeBytes32, block.length = 4 := by
    intro block hblock
    obtain ⟨w, -, rfl⟩ := List.mem_map.mp hblock
    rw [toLeBytes32, List.length_reverse, UInt32.toBeBytes_length]
  rw [binaryVector, List.flatMap_def, asChunks_flatten (by decide) hblocks, List.map_map]
  refine List.map_congr_left fun w _ => ?_
  rw [Function.comp_apply, fromLeBytes32, toLeBytes32, List.reverse_reverse, UInt32.beNat_toBeBytes,
    UInt32.ofNat_toNat]

/-! ## Decimals between commas -/

/-- A decimal with blanks around it. -/
structure DecimalPart where
  before : Text
  token : Text
  after : Text
  blank_before : ∀ c ∈ before, isWhitespace c = true
  blank_after : ∀ c ∈ after, isWhitespace c = true
  token_ne : token ≠ []
  token_plain : ∀ c ∈ token, isWhitespace c = false ∧ c ≠ ',' ∧ c ≠ '[' ∧ c ≠ ']'

namespace DecimalPart

def text (p : DecimalPart) : Text := p.before ++ p.token ++ p.after

def joined : List DecimalPart → Text
  | [] => []
  | [p] => p.text
  | p :: q :: ps => p.text ++ ',' :: joined (q :: ps)

theorem dropWhile_blank {blanks rest : Text} (h : ∀ c ∈ blanks, isWhitespace c = true) :
    (blanks ++ rest).dropWhile isWhitespace = rest.dropWhile isWhitespace := by
  induction blanks with
  | nil => rfl
  | cons c blanks ih =>
    rw [List.forall_mem_cons] at h
    rw [List.cons_append, List.dropWhile_cons, if_pos h.1, ih h.2]

theorem rdropWhile_blank {front blanks : Text} (h : ∀ c ∈ blanks, isWhitespace c = true) :
    (front ++ blanks).rdropWhile isWhitespace = front.rdropWhile isWhitespace := by
  rw [List.rdropWhile, List.reverse_append, dropWhile_blank (fun c hc => h c (by simpa using hc)),
    List.rdropWhile]

variable (p : DecimalPart) (ps : List DecimalPart)

theorem dropWhile_token (rest : Text) :
    (p.token ++ rest).dropWhile isWhitespace = p.token ++ rest := by
  cases htoken : p.token with
  | nil => exact absurd htoken p.token_ne
  | cons c token =>
    have hc := (p.token_plain c (by rw [htoken]; exact List.mem_cons_self)).1
    rw [List.cons_append, List.dropWhile_cons, hc, if_neg Bool.false_ne_true]

theorem rdropWhile_token (front : Text) :
    (front ++ p.token).rdropWhile isWhitespace = front ++ p.token := by
  rcases List.eq_nil_or_concat p.token with hnil | ⟨token, c, htoken⟩
  · exact absurd hnil p.token_ne
  · have hc := (p.token_plain c (by rw [htoken]; simp)).1
    rw [htoken, List.concat_eq_append, ← List.append_assoc,
      List.rdropWhile_concat_neg _ _ _ (by rw [hc]; exact Bool.false_ne_true)]

theorem trim_text : trim p.text = p.token := by
  have hdrop := p.dropWhile_token p.after
  have hkeep := p.rdropWhile_token []
  rw [List.nil_append] at hkeep
  rw [trim, text, List.append_assoc, dropWhile_blank p.blank_before, hdrop,
    rdropWhile_blank p.blank_after, hkeep]

theorem text_plain {c : Char} (hc : c ∈ p.text) : c ≠ ',' ∧ c ≠ '[' ∧ c ≠ ']' := by
  rw [text, List.mem_append, List.mem_append] at hc
  have hblank : ∀ d, isWhitespace d = true → d ≠ ',' ∧ d ≠ '[' ∧ d ≠ ']' := by
    intro d hd
    refine ⟨?_, ?_, ?_⟩ <;> rintro rfl <;> exact absurd hd (by decide)
  rcases hc with (hc | hc) | hc
  · exact hblank c (p.blank_before c hc)
  · exact (p.token_plain c hc).2
  · exact hblank c (p.blank_after c hc)

theorem splitOnP_joined (hne : ps ≠ []) :
    (joined ps).splitOnP (· == ',') = ps.map text := by
  induction ps with
  | nil => exact absurd rfl hne
  | cons p ps ih =>
    have hp : ∀ c ∈ p.text, (c == ',') = false := fun c hc => beq_false_of_ne (p.text_plain hc).1
    cases ps with
    | nil => exact List.splitOnP_eq_singleton hp
    | cons q ps =>
      rw [joined, List.splitOnP_append_cons_of_forall_mem hp ',' (beq_self_eq_true ','),
        ih (List.cons_ne_nil _ _)]
      rfl

theorem joined_ne_nil (hne : ps ≠ []) : joined ps ≠ [] := by
  match ps with
  | [] => exact absurd rfl hne
  | [p] =>
    intro hnil
    rw [joined, text, List.append_assoc] at hnil
    exact p.token_ne (List.append_eq_nil_iff.mp (List.append_eq_nil_iff.mp hnil).2).1
  | p :: q :: ps =>
    intro hnil
    rw [joined] at hnil
    exact List.cons_ne_nil _ _ (List.append_eq_nil_iff.mp hnil).2

theorem joined_plain {c : Char} (hc : c ∈ joined ps) : c ≠ '[' ∧ c ≠ ']' := by
  induction ps with
  | nil => exact absurd hc List.not_mem_nil
  | cons p ps ih =>
    cases ps with
    | nil => exact (p.text_plain hc).2
    | cons q ps =>
      rw [joined, List.mem_append, List.mem_cons] at hc
      rcases hc with hc | rfl | hc
      · exact (p.text_plain hc).2
      · exact ⟨by decide, by decide⟩
      · exact ih hc

theorem dropWhile_joined : ∃ q : DecimalPart, q.token = p.token ∧
    (joined (p :: ps)).dropWhile isWhitespace = joined (q :: ps) := by
  refine ⟨{ p with before := [], blank_before := fun c hc => absurd hc List.not_mem_nil }, rfl, ?_⟩
  cases ps with
  | nil =>
    rw [joined, joined, text, text, List.nil_append, List.append_assoc,
      dropWhile_blank p.blank_before, dropWhile_token]
  | cons q ps =>
    rw [joined, joined, text, text, List.nil_append, List.append_assoc, List.append_assoc,
      dropWhile_blank p.blank_before, dropWhile_token, List.append_assoc]

theorem rdropWhile_append {front last : Text} (h : last.rdropWhile isWhitespace ≠ []) :
    (front ++ last).rdropWhile isWhitespace = front ++ last.rdropWhile isWhitespace := by
  rw [List.rdropWhile] at h ⊢
  have hne : (last.reverse.dropWhile isWhitespace).isEmpty = false := by
    rw [List.isEmpty_eq_false_iff]
    exact fun hnil => h (by rw [hnil]; rfl)
  rw [List.reverse_append, List.dropWhile_append, hne, if_neg Bool.false_ne_true,
    List.reverse_append, List.reverse_reverse, List.rdropWhile]

theorem rdropWhile_joined (hne : ps ≠ []) : ∃ qs, qs ≠ [] ∧ qs.map token = ps.map token ∧
    (joined ps).rdropWhile isWhitespace = joined qs := by
  induction ps with
  | nil => exact absurd rfl hne
  | cons p ps ih =>
    cases ps with
    | nil =>
      refine ⟨[{ p with after := [], blank_after := fun c hc => absurd hc List.not_mem_nil }],
        List.cons_ne_nil _ _, rfl, ?_⟩
      rw [joined, joined, text, text, List.append_nil, rdropWhile_blank p.blank_after,
        rdropWhile_token]
    | cons q ps =>
      obtain ⟨qs, hqs, htokens, hdrop⟩ := ih (List.cons_ne_nil _ _)
      refine ⟨p :: qs, List.cons_ne_nil _ _, by rw [List.map_cons, htokens, ← List.map_cons], ?_⟩
      have hfull : (joined (q :: ps)).rdropWhile isWhitespace ≠ [] := by
        rw [hdrop]
        exact joined_ne_nil qs hqs
      have hsplit : joined (p :: q :: ps) = (p.text ++ [',']) ++ joined (q :: ps) := by
        rw [joined, List.append_assoc, List.singleton_append]
      rw [hsplit, rdropWhile_append hfull, hdrop]
      cases qs with
      | nil => exact absurd rfl hqs
      | cons r rs => rw [joined, List.append_assoc, List.singleton_append]

theorem trim_joined (hne : ps ≠ []) : ∃ qs, qs ≠ [] ∧ qs.map token = ps.map token ∧
    trim (joined ps) = joined qs := by
  cases ps with
  | nil => exact absurd rfl hne
  | cons p ps =>
    obtain ⟨q, htoken, hdrop⟩ := dropWhile_joined p ps
    obtain ⟨qs, hqs, htokens, hright⟩ := rdropWhile_joined (q :: ps) (List.cons_ne_nil _ _)
    refine ⟨qs, hqs, ?_, ?_⟩
    · rw [htokens, List.map_cons, List.map_cons, htoken]
    · rw [trim, hdrop, hright]

end DecimalPart

/-! ## Texts -/

open DecimalPart (joined)

/-- Decimals between commas, with or without brackets around all of them. -/
inductive VectorText (ps : List DecimalPart) : Text → Prop
  | plain : VectorText ps (joined ps)
  | bracketed {left right : Text} (hleft : ∀ c ∈ left, isWhitespace c = true)
      (hright : ∀ c ∈ right, isWhitespace c = true) :
      VectorText ps (left ++ '[' :: joined ps ++ ']' :: right)

section
variable {ps : List DecimalPart} {s : Text}

theorem dropWhile_eq_self_of {p : Char → Bool} {s : Text} (h : ∀ c ∈ s, p c = false) :
    s.dropWhile p = s := by
  cases s with
  | nil => rfl
  | cons c s => rw [List.dropWhile_cons, h c List.mem_cons_self, if_neg Bool.false_ne_true]

theorem rdropWhile_eq_self_of {p : Char → Bool} {s : Text} (h : ∀ c ∈ s, p c = false) :
    s.rdropWhile p = s := by
  rw [List.rdropWhile, dropWhile_eq_self_of fun c hc => h c (List.mem_reverse.mp hc),
    List.reverse_reverse]

theorem VectorText.clean (h : VectorText ps s) (hne : ps ≠ []) :
    ∃ qs : List DecimalPart, qs ≠ [] ∧
      qs.map DecimalPart.token = ps.map DecimalPart.token ∧
        ((trim s).dropWhile (· == '[')).rdropWhile (· == ']') = joined qs := by
  cases h with
  | plain =>
    obtain ⟨qs, hqs, htokens, htrim⟩ := DecimalPart.trim_joined ps hne
    refine ⟨qs, hqs, htokens, ?_⟩
    rw [htrim, dropWhile_eq_self_of fun c hc => beq_false_of_ne (DecimalPart.joined_plain qs hc).1,
      rdropWhile_eq_self_of fun c hc => beq_false_of_ne (DecimalPart.joined_plain qs hc).2]
  | @bracketed left right hleft hright =>
    refine ⟨ps, hne, rfl, ?_⟩
    have htrim : trim (left ++ '[' :: joined ps ++ ']' :: right) = '[' :: (joined ps ++ [']']) := by
      have hassoc : left ++ '[' :: joined ps ++ ']' :: right =
          left ++ ('[' :: (joined ps ++ [']']) ++ right) := by
        simp
      have hopen : ('[' :: (joined ps ++ [']']) ++ right).dropWhile isWhitespace =
          '[' :: (joined ps ++ [']']) ++ right := rfl
      rw [hassoc, trim, DecimalPart.dropWhile_blank hleft, hopen,
        DecimalPart.rdropWhile_blank hright, ← List.cons_append]
      exact List.rdropWhile_concat_neg _ _ _ (by decide)
    have hinner : (joined ps ++ [']']).dropWhile (· == '[') = joined ps ++ [']'] := by
      refine dropWhile_eq_self_of fun c hc => beq_false_of_ne ?_
      rcases List.mem_append.mp hc with hc | hc
      · exact (DecimalPart.joined_plain ps hc).1
      · rw [List.mem_singleton.mp hc]
        decide
    rw [htrim, List.dropWhile_cons, if_pos (beq_self_eq_true '['), hinner,
      List.rdropWhile_concat_pos _ _ _ rfl,
      rdropWhile_eq_self_of fun c hc => beq_false_of_ne (DecimalPart.joined_plain ps hc).2]

theorem VectorText.contains_comma (h : VectorText ps s) (hlen : 2 ≤ ps.length) :
    s.contains ',' = true := by
  have hcomma : ',' ∈ joined ps := by
    match ps with
    | [] => cases hlen
    | [p] =>
      rw [List.length_singleton] at hlen
      omega
    | p :: q :: ps =>
      rw [joined]
      exact List.mem_append_right _ List.mem_cons_self
  rw [List.contains_iff_mem]
  cases h with
  | plain => exact hcomma
  | bracketed =>
    exact List.mem_append_left _ (List.mem_append_right _ (List.mem_cons_of_mem _ hcomma))

variable {api : VectorApi} {v : List F64}

theorem parseVectorParts_tokens {qs : List DecimalPart}
    (h : (qs.map DecimalPart.token).map api.parseF64 = v.map some) :
    parseVectorParts api (qs.map DecimalPart.text) = some v := by
  induction qs generalizing v with
  | nil =>
    cases v with
    | nil => rfl
    | cons x v => cases h
  | cons q qs ih =>
    cases v with
    | nil => cases h
    | cons x v =>
      rw [List.map_cons, List.map_cons, List.map_cons, List.cons.injEq] at h
      have htoken : q.token.isEmpty = false := List.isEmpty_eq_false_iff.mpr q.token_ne
      rw [List.map_cons, parseVectorParts, q.trim_text, htoken, if_neg Bool.false_ne_true, h.1, ih h.2]
      rfl

theorem textVector_eq (h : VectorText ps s) (hlen : 2 ≤ ps.length)
    (hv : (ps.map DecimalPart.token).map api.parseF64 = v.map some) :
    textVector api s = some v := by
  have hne : ps ≠ [] := by
    rintro rfl
    cases hlen
  obtain ⟨qs, hqs, htokens, hclean⟩ := h.clean hne
  have hvlen : v.length = ps.length := by simpa using (congrArg List.length hv).symm
  have hfull : v.isEmpty = false := by
    rw [List.isEmpty_eq_false_iff]
    rintro rfl
    rw [← hvlen] at hlen
    cases hlen
  rw [textVector, if_pos (h.contains_comma hlen)]
  dsimp only
  rw [hclean, DecimalPart.splitOnP_joined qs hqs,
    parseVectorParts_tokens (htokens ▸ hv), Option.filter_some, hfull]
  rfl

end

/-! ## The formats -/

/-- What the guess makes of each format. -/
structure ReadsVectors (api : VectorApi) : Prop where
  float64 : ∀ v, v ≠ [] → jsonVector api (v.flatMap toLeBytes64) = [] →
    parseVectorFromSlice api (v.flatMap toLeBytes64) .float64 = .ok v
  float32 : ∀ ws, ws ≠ [] → jsonVector api (ws.flatMap toLeBytes32) = [] →
    parseVectorFromSlice api (ws.flatMap toLeBytes32) .float32 = .ok (ws.map F32.toF64)
  json : ∀ bytes arr v vectorType, v ≠ [] → bytes.head? = some 0x5B →
    (api.fromSlice bytes).bind Json.asArray = some arr → arr.map api.asF64 = v.map some →
      parseVectorFromSlice api bytes vectorType = .ok v
  decimals : ∀ ps s v vectorType, VectorText ps s → 2 ≤ ps.length →
    (ps.map DecimalPart.token).map api.parseF64 = v.map some →
    (∀ arr, (api.fromSlice (textBytes (.ofList s))).bind Json.asArray = some arr →
      arr.map api.asF64 = v.map some) →
    (jsonVector api (textBytes (.ofList s)) = [] →
      (textBytes (.ofList s)).length % vectorType.byteSize ≠ 0) →
      parseVectorFromSlice api (textBytes (.ofList s)) vectorType = .ok v

section
variable {api : VectorApi} {bytes : Bytes} {v : List F64} {vectorType : VectorType}

theorem filterMap_of_map {arr : List Json} (h : arr.map api.asF64 = v.map some) :
    arr.filterMap api.asF64 = v := by
  have hid : (arr.map api.asF64).filterMap id = v := by
    rw [h, List.filterMap_map]
    exact List.filterMap_some
  rwa [List.filterMap_map] at hid

theorem parseVectorFromSlice_json (hv : v ≠ []) (hjson : jsonVector api bytes = v) :
    parseVectorFromSlice api bytes vectorType = .ok v := by
  have hbytes : bytes.isEmpty = false := by
    rw [List.isEmpty_eq_false_iff]
    rintro rfl
    exact hv hjson.symm
  have hfull : (!v.isEmpty) = true := by
    rw [List.isEmpty_eq_false_iff.mpr hv]
    rfl
  rw [parseVectorFromSlice, hbytes, if_neg Bool.false_ne_true, hjson, if_pos hfull]

theorem parseVectorFromSlice_binary (hne : bytes ≠ []) (hjson : jsonVector api bytes = [])
    (hlen : bytes.length % vectorType.byteSize = 0) :
    parseVectorFromSlice api bytes vectorType = .ok (binaryVector vectorType bytes) := by
  rw [parseVectorFromSlice, List.isEmpty_eq_false_iff.mpr hne, if_neg Bool.false_ne_true, hjson,
    if_neg (by decide), if_pos hlen]

theorem length_flatMap_const {α : Type} {f : α → Bytes} {n : ℕ} (h : ∀ x, (f x).length = n)
    (xs : List α) : (xs.flatMap f).length = n * xs.length := by
  induction xs with
  | nil => rfl
  | cons x xs ih =>
    rw [List.flatMap_cons, List.length_append, h, ih, List.length_cons, Nat.mul_succ, Nat.add_comm]

theorem flatMap_ne_nil {α : Type} {f : α → Bytes} {n : ℕ} (hn : 0 < n)
    (h : ∀ x, (f x).length = n) {xs : List α} (hxs : xs ≠ []) : xs.flatMap f ≠ [] := by
  intro hnil
  have hlen := length_flatMap_const h xs
  rw [hnil, List.length_nil] at hlen
  have hpos := Nat.mul_pos hn (List.length_pos_iff.mpr hxs)
  omega

end

/-- Each format is read back where no earlier guess takes it for another. -/
theorem parseVectorFromSlice_reads (api : VectorApi) : ReadsVectors api where
  float64 := by
    intro v hv hjson
    have hblock : ∀ x, (toLeBytes64 x).length = 8 := fun x => by
      rw [toLeBytes64, List.length_reverse, UInt64.toBeBytes_length]
    have hlen : (v.flatMap toLeBytes64).length % VectorType.float64.byteSize = 0 := by
      rw [length_flatMap_const hblock]
      exact Nat.mul_mod_right 8 _
    rw [parseVectorFromSlice_binary (flatMap_ne_nil (by decide) hblock hv) hjson hlen,
      binaryVector_float64]
  float32 := by
    intro ws hws hjson
    have hblock : ∀ w, (toLeBytes32 w).length = 4 := fun w => by
      rw [toLeBytes32, List.length_reverse, UInt32.toBeBytes_length]
    have hlen : (ws.flatMap toLeBytes32).length % VectorType.float32.byteSize = 0 := by
      rw [length_flatMap_const hblock]
      exact Nat.mul_mod_right 4 _
    rw [parseVectorFromSlice_binary (flatMap_ne_nil (by decide) hblock hws) hjson hlen,
      binaryVector_float32]
  json := by
    intro bytes arr v vectorType hv hhead harr hitems
    refine parseVectorFromSlice_json hv ?_
    rw [jsonVector, if_pos hhead, harr]
    exact filterMap_of_map hitems
  decimals := by
    intro ps s v vectorType htext hlen hv hagree hsize
    set bytes := textBytes (.ofList s) with hbytes
    have hne : v ≠ [] := by
      rintro rfl
      have hzero := congrArg List.length hv
      rw [List.length_map, List.length_map, List.map_nil, List.length_nil] at hzero
      omega
    by_cases hjson : jsonVector api bytes = []
    · have hfull : bytes.isEmpty = false := by
        rw [List.isEmpty_eq_false_iff]
        intro hnil
        refine hsize hjson ?_
        rw [hnil, List.length_nil, Nat.zero_mod]
      have hread : (fromUtf8 bytes).bind (fun s => textVector api s.toList) = some v := by
        rw [hbytes, fromUtf8_textBytes, Option.bind_some, String.toList_ofList]
        exact textVector_eq htext hlen hv
      rw [parseVectorFromSlice, hfull, if_neg Bool.false_ne_true, hjson, if_neg (by decide),
        if_neg (hsize hjson), hread]
    · refine parseVectorFromSlice_json hne ?_
      rw [jsonVector] at hjson ⊢
      by_cases hhead : bytes.head? = some 0x5B
      · rw [if_pos hhead] at hjson ⊢
        cases harr : (api.fromSlice bytes).bind Json.asArray with
        | none =>
          rw [harr] at hjson
          exact absurd rfl hjson
        | some arr => exact filterMap_of_map (hagree arr harr)
      · rw [if_neg hhead] at hjson
        exact absurd rfl hjson

/-! ## Mistaken formats -/

def sampleVectorApi : VectorApi where
  fromSlice bytes := if bytes = textBytes "[1,2,34]" then
    some (.array [.number (.unsigned 1), .number (.unsigned 2), .number (.unsigned 34)]) else none
  asF64
    | .number (.unsigned n) => some (.ofUInt64 n)
    | .number (.float x) => some x
    | _ => none
  parseF64 s :=
    if s = ['1', '.', '2', '5'] then some ⟨0x3FF4000000000000⟩
    else if s = ['2', '.', '5'] then some ⟨0x4004000000000000⟩
    else none

theorem blank_nil : ∀ c ∈ ([] : Text), isWhitespace c = true := List.forall_mem_nil _

theorem sampleTokens_plain :
    (∀ c ∈ ['1', '.', '2', '5'], isWhitespace c = false ∧ c ≠ ',' ∧ c ≠ '[' ∧ c ≠ ']') ∧
    ∀ c ∈ ['2', '.', '5'], isWhitespace c = false ∧ c ≠ ',' ∧ c ≠ '[' ∧ c ≠ ']' := by
  simp [isWhitespace]

def sampleParts : List DecimalPart :=
  [⟨[], ['1', '.', '2', '5'], [], blank_nil, blank_nil, List.cons_ne_nil _ _,
      sampleTokens_plain.1⟩,
    ⟨[], ['2', '.', '5'], [], blank_nil, blank_nil, List.cons_ne_nil _ _,
      sampleTokens_plain.2⟩]

/-- Eight bytes that are a JSON text, and a text of eight bytes. -/
theorem parseVectorFromSlice_mistakes :
    (¬∀ v, v ≠ [] →
      parseVectorFromSlice sampleVectorApi (v.flatMap toLeBytes64) .float64 = .ok v) ∧
    ¬∀ ps v, v ≠ [] → (ps.map DecimalPart.token).map sampleVectorApi.parseF64 = v.map some →
      parseVectorFromSlice sampleVectorApi (textBytes (.ofList (joined ps))) .float64 = .ok v := by
  refine ⟨fun h => ?_, fun h => ?_⟩
  · have hread := congrArg Except.toOption
      (h [⟨0x5D34332C322C315B⟩] (List.cons_ne_nil _ _))
    revert hread
    decide +kernel
  · have hread := congrArg Except.toOption
      (h sampleParts [⟨0x3FF4000000000000⟩, ⟨0x4004000000000000⟩] (List.cons_ne_nil _ _)
        (by decide +kernel))
    revert hread
    decide +kernel

end Wedb
