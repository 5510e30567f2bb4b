import Wedb.TimeSeries.Meta
import Mathlib.Order.Basic
import Mathlib.Tactic
import Mathlib.Data.String.Basic

/-!
# Label filters

A filter asks for each of its names whether the labels carry it and with which values. The
labels of encoded metadata are walked in place: up to thirty-two of them are kept on the
stack, and a second loop goes on from where the first one stopped. The values of a filter are
searched by halving a range of indices, whose start moves past a probe unless what is probed
lies above.
-/

namespace BinarySearch

def probe (above : ℕ → Bool) (base size : ℕ) : ℕ :=
  if size ≤ 1 then base
  else probe above (if above (base + size / 2) then base else base + size / 2) (size - size / 2)
termination_by size

def contains {α : Type*} [LinearOrder α] (xs : List α) (v : α) : Bool :=
  !xs.isEmpty && decide (xs[probe (fun i => xs[i]?.all fun x => decide (v < x)) 0 xs.length]? = some v)

end BinarySearch

namespace Wedb

inductive LabelMatcher
  | mustNotExist
  | mustExist
  | isIn (vals : List String)
  | notIn (vals : List String)
  deriving DecidableEq, Repr

namespace LabelMatcher

def hasValue (vals : List String) (v : String) : Bool :=
  if vals.length ≤ 4 then vals.any fun x => x == v else BinarySearch.contains vals v

def isMatch : LabelMatcher → Option String → Bool
  | mustNotExist, actual => actual.isNone
  | mustExist, actual => actual.isSome
  | isIn vals, some v => hasValue vals v
  | isIn _, none => false
  | notIn vals, some v => !hasValue vals v
  | notIn _, none => true

end LabelMatcher

structure TimeSeriesLabelFilter where
  matchers : List (String × LabelMatcher) := []
  deriving DecidableEq, Repr

namespace TimeSeriesLabelFilter

def isEmpty (filter : TimeSeriesLabelFilter) : Bool := filter.matchers.isEmpty

def labelValue (labels : List (String × String)) (name : String) : Option String :=
  (labels.find? fun label => label.1 == name).map Prod.snd

def matchLabels (filter : TimeSeriesLabelFilter) (labels : List (String × String)) : Bool :=
  filter.matchers.all fun m => m.2.isMatch (labelValue labels m.1)

def matchesBorrowed (filter : TimeSeriesLabelFilter) (labels : List (String × String)) : Bool :=
  filter.matchLabels labels

end TimeSeriesLabelFilter

namespace TimeSeriesMeta

def takeText (bytes : Bytes) : Option String × Bytes :=
  if bytes.length < 4 then (none, bytes)
  else
    let len := beNat (bytes.take 4)
    let rest := bytes.drop 4
    if rest.length < len then (none, rest)
    else
      match fromUtf8 (rest.take len) with
      | none => (none, rest)
      | some text => (some text, rest.drop len)

def rawLabels : ℕ → Bytes → List (String × String) × Bytes
  | 0, bytes => ([], bytes)
  | n + 1, bytes =>
    match takeText bytes with
    | (none, rest) => ([], rest)
    | (some k, rest) =>
      match takeText rest with
      | (none, rest) => ([], rest)
      | (some v, rest) => ((k, v) :: (rawLabels n rest).1, (rawLabels n rest).2)

def stackLabelCount : ℕ := 32

def matchesLabelsRaw (bytes : Bytes) (filter : TimeSeriesLabelFilter) : Bool :=
  if filter.isEmpty then true
  else if bytes.length < KeyMeta.encodedSize + 8 + 8 + 1 then false
  else
    let offset := KeyMeta.encodedSize + 8 + 8
    let offset := if offset + 2 ≤ bytes.length then offset + 2 else offset + 1
    if offset + 4 > bytes.length then false
    else
      let srcLen := beNat (slice bytes offset 4)
      let offset := offset + (4 + srcLen) + 24
      if offset + 4 > bytes.length then false
      else
        let labelCount := beNat (slice bytes offset 4)
        let stack := rawLabels (min labelCount stackLabelCount) (bytes.drop (offset + 4))
        if labelCount ≤ stackLabelCount then filter.matchesBorrowed stack.1
        else filter.matchesBorrowed (stack.1 ++ (rawLabels (labelCount - stackLabelCount) stack.2).1)

variable {m : TimeSeriesMeta} {labels : List (String × String)} {rest : Bytes}

theorem takeText_of_takeFramed {bytes field rest : Bytes} {text : String}
    (h : takeFramed bytes = some (field, rest)) (htext : fromUtf8 field = some text) :
    takeText bytes = (some text, rest) := by
  simp only [takeFramed] at h
  split_ifs at h with hfour hfit
  obtain ⟨rfl, rfl⟩ := Prod.mk.inj (Option.some.inj h)
  simp only [takeText, if_neg hfour, if_neg hfit, htext]

theorem rawLabels_succ {bytes rest rest' : Bytes} {k v : String} (n : ℕ)
    (hk : takeText bytes = (some k, rest)) (hv : takeText rest = (some v, rest')) :
    rawLabels (n + 1) bytes = ((k, v) :: (rawLabels n rest').1, (rawLabels n rest').2) := by
  simp only [rawLabels, hk, hv]

variable (labels) in
theorem rawLabels_encodeLabels (more : List (String × String)) (h : ∀ label ∈ labels, LabelFramed label) :
    rawLabels labels.length (encodeLabels (labels ++ more)) = (labels, encodeLabels more) := by
  induction labels with
  | nil => rfl
  | cons label labels ih =>
    obtain ⟨hk, hv⟩ := h label (by simp)
    have hrest := ih fun x hx => h x (List.mem_cons_of_mem _ hx)
    rw [List.length_cons, List.cons_append, encodeLabels_cons,
      rawLabels_succ _ (takeText_of_takeFramed (takeFramed_encodeFramed hk _) (fromUtf8_textBytes _))
        (takeText_of_takeFramed (takeFramed_encodeFramed hv _) (fromUtf8_textBytes _)), hrest]

def twoLoopLabels (labelCount : ℕ) (bytes : Bytes) : List (String × String) :=
  let stack := rawLabels (min labelCount stackLabelCount) bytes
  if labelCount ≤ stackLabelCount then stack.1
  else stack.1 ++ (rawLabels (labelCount - stackLabelCount) stack.2).1

theorem twoLoopLabels_encodeLabels (h : ∀ label ∈ labels, LabelFramed label) :
    twoLoopLabels labels.length (encodeLabels labels) = labels := by
  simp only [twoLoopLabels]
  by_cases hcount : labels.length ≤ stackLabelCount
  · have hall := rawLabels_encodeLabels labels [] h
    rw [List.append_nil] at hall
    rw [if_pos hcount, min_eq_left hcount, hall]
  · have hstack : (labels.take stackLabelCount).length = stackLabelCount :=
      List.length_take_of_le (not_le.mp hcount).le
    have hfirst := rawLabels_encodeLabels (labels.take stackLabelCount)
      (labels.drop stackLabelCount) fun label hl => h label (List.mem_of_mem_take hl)
    have hsecond := rawLabels_encodeLabels (labels.drop stackLabelCount) []
      fun label hl => h label (List.mem_of_mem_drop hl)
    rw [hstack, List.take_append_drop] at hfirst
    rw [List.append_nil, List.length_drop] at hsecond
    rw [if_neg hcount, min_eq_right (not_le.mp hcount).le, hfirst, hsecond, List.take_append_drop]

theorem matchesLabelsRaw_of_parts {front src stored count labelBytes : Bytes}
    (filter : TimeSeriesLabelFilter) (hfront : front.length = 44) (hsrc : src.length = 4)
    (hstored : stored.length = beNat src + 24) (hcount : count.length = 4) :
    matchesLabelsRaw (front ++ (src ++ (stored ++ (count ++ labelBytes)))) filter =
      (filter.isEmpty || filter.matchLabels (twoLoopLabels (beNat count) labelBytes)) := by
  have hlen : (front ++ (src ++ (stored ++ (count ++ labelBytes)))).length =
      44 + (4 + (beNat src + 24 + (4 + labelBytes.length))) := by
    simp only [List.length_append, hfront, hsrc, hstored, hcount]
  have hslice : slice (front ++ (src ++ (stored ++ (count ++ labelBytes)))) 44 4 = src := by
    rw [KeyMeta.slice_append_right hfront, List.take_left' hsrc]
  have hbefore : (front ++ (src ++ stored)).length = 44 + (4 + beNat src) + 24 := by
    simp only [List.length_append, hfront, hsrc, hstored]
    omega
  have hassoc : front ++ (src ++ (stored ++ (count ++ labelBytes))) =
      (front ++ (src ++ stored)) ++ (count ++ labelBytes) := by
    simp only [List.append_assoc]
  have hslice' : slice (front ++ (src ++ (stored ++ (count ++ labelBytes))))
      (44 + (4 + beNat src) + 24) 4 = count := by
    rw [hassoc, KeyMeta.slice_append_right hbefore, List.take_left' hcount]
  have hdrop : (front ++ (src ++ (stored ++ (count ++ labelBytes)))).drop
      (44 + (4 + beNat src) + 24 + 4) = labelBytes := by
    rw [hassoc, ← List.append_assoc, List.drop_left' (by rw [List.length_append, hbefore, hcount])]
  generalize front ++ (src ++ (stored ++ (count ++ labelBytes))) = bytes at hlen hslice hslice' hdrop
  have hmin : ¬bytes.length < KeyMeta.encodedSize + 8 + 8 + 1 := by
    rw [hlen, KeyMeta.encodedSize]
    omega
  have htypes : KeyMeta.encodedSize + 8 + 8 + 2 ≤ bytes.length := by
    rw [hlen, KeyMeta.encodedSize]
    omega
  have hoffset : KeyMeta.encodedSize + 8 + 8 + 2 = 44 := rfl
  have hfour : ¬44 + 4 > bytes.length := by omega
  have hfour' : ¬44 + (4 + beNat src) + 24 + 4 > bytes.length := by omega
  cases hempty : filter.isEmpty with
  | true => rw [matchesLabelsRaw, if_pos hempty, Bool.true_or]
  | false =>
    rw [matchesLabelsRaw, hempty, if_neg Bool.false_ne_true, if_neg hmin]
    dsimp only
    rw [if_pos htypes, hoffset, if_neg hfour, hslice, if_neg hfour', hslice', hdrop, Bool.false_or, twoLoopLabels]
    split_ifs <;> rfl

theorem matchLabels_of_isEmpty {filter : TimeSeriesLabelFilter} (h : filter.isEmpty = true)
    (labels : List (String × String)) : filter.matchLabels labels = true := by
  rw [TimeSeriesLabelFilter.isEmpty, List.isEmpty_iff] at h
  rw [TimeSeriesLabelFilter.matchLabels, h, List.all_nil]

theorem matchesLabelsRaw_encode (h : m.Framable) (filter : TimeSeriesLabelFilter) :
    matchesLabelsRaw m.encode filter = filter.matchLabels m.labels := by
  have hparts : m.encode = (m.encodeFront ++ [m.chunkType.asU8, m.duplicatePolicy.asU8]) ++
      ((UInt32.ofNat m.sourceKey.length).toBeBytes ++ ((m.sourceKey ++ (m.totalSamples.toBeBytes ++
        (m.firstTime.toBeBytes ++ m.lastTime.toBeBytes))) ++
          ((UInt32.ofNat m.labels.length).toBeBytes ++ encodeLabels m.labels))) := by
    rw [encode_eq, encodeRest, encodeFramed]
    simp only [List.append_assoc, List.cons_append, List.nil_append]
  have hstored : (m.sourceKey ++ (m.totalSamples.toBeBytes ++ (m.firstTime.toBeBytes ++
      m.lastTime.toBeBytes))).length = beNat (UInt32.ofNat m.sourceKey.length).toBeBytes + 24 := by
    rw [beNat_ofNat_u32 h.source]
    simp
  rw [hparts, matchesLabelsRaw_of_parts filter (by simp) (UInt32.toBeBytes_length _) hstored
    (UInt32.toBeBytes_length _), beNat_ofNat_u32 h.count, twoLoopLabels_encodeLabels h.texts]
  cases hempty : filter.isEmpty with
  | true => rw [matchLabels_of_isEmpty hempty, Bool.true_or]
  | false => rw [Bool.false_or]

/-! ## Agreement -/

/-- Metadata is read back as written, and matching on it in place is matching its labels. -/
structure LabelsAgree (m : TimeSeriesMeta) : Prop where
  decoded : decode m.encode = some m
  matched : ∀ filter : TimeSeriesLabelFilter, matchesLabelsRaw m.encode filter = filter.matchLabels m.labels

/-- Raw and decoded metadata agree exactly where every length fits its field. -/
theorem labelsAgree_iff (m : TimeSeriesMeta) : m.LabelsAgree ↔ m.Framable :=
  ⟨fun h => framable_of_decode h.decoded, fun h => ⟨decode_encode h, matchesLabelsRaw_encode h⟩⟩

/-- A source key of four gigabytes is not read back. -/
theorem labels_disagree_of_source : ¬∀ m : TimeSeriesMeta, m.LabelsAgree := by
  intro hclaim
  have hagree := hclaim ⟨⟨.timeSeries, 0, 0, 0, 0⟩, 0, 4096, .compressed, .block,
    List.replicate (2 ^ 32) 0, 0, 0, 0, []⟩
  have hlt := (framable_of_decode hagree.decoded).source
  rw [List.length_replicate] at hlt
  exact lt_irrefl _ hlt

end TimeSeriesMeta

end Wedb
