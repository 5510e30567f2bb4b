import Wedb.KeyComposer.Oppv
import Wedb.Ordered.Saturating
import Wedb.Meta.KeyMeta
import Wedb.Engine.Error
import Mathlib.Data.List.Sort

/-!
# Packed graph nodes

A node is a flag, its vector, its degree and the sorted neighbours as deltas. The
dimension is not stored: the reader brings it, and all offsets are computed from it
in machine words.
-/

namespace Wedb

/-- How a read that does not stay inside its slice ends. -/
inductive Fault
  | panic
  | outside
  deriving DecidableEq, Repr

def subslice (bytes : Bytes) (start stop : ℕ) : Except Fault Bytes :=
  if start ≤ stop ∧ stop ≤ bytes.length then .ok ((bytes.take stop).drop start)
  else .error .panic

def splitAt (bytes : Bytes) (mid : ℕ) : Except Fault (Bytes × Bytes) :=
  if mid ≤ bytes.length then .ok (bytes.take mid, bytes.drop mid) else .error .panic

def f64Slice (bytes : Bytes) (dim : ℕ) : Except Fault (List UInt64) :=
  if dim * 8 ≤ bytes.length then
    .ok ((List.range dim).map fun i => UInt64.fromBeBytes (slice bytes (8 * i) 8).reverse)
  else .error .outside

inductive NodePackFormat
  | rawF64
  | sq8
  deriving DecidableEq, Repr

def NodePackFormat.flag : NodePackFormat → UInt8
  | rawF64 => 0x00
  | sq8 => 0x01

/-- Floats are their bits. -/
structure NodePackRef where
  format : NodePackFormat
  rawF64Vector : Option (List UInt64)
  sq8Scale : UInt32
  sq8Offset : UInt32
  sq8Vector : Option (List Int8)
  rawNeighbors : Bytes
  degree : ℕ
  deriving DecidableEq

structure OppvDeltaNeighborIter where
  rem : Bytes
  remainingCount : ℕ
  prev : UInt64
  isFirst : Bool
  deriving DecidableEq, Repr

def f32One : UInt32 := 0x3F800000

def errEmptyNodePack : String := "empty node pack payload"
def errSq8TooShort : String := "invalid sq8 node pack payload: too short"
def errRawTooShort : String := "invalid raw f64 node pack payload: too short"
def errUnalignedVector : String := "invalid node pack payload: unaligned f64 vector pointer"
def errUnsupportedNodePack : String := "unsupported node pack format"

namespace OppvDeltaNeighborIter

def next (it : OppvDeltaNeighborIter) : Except Fault (Option UInt64 × OppvDeltaNeighborIter) :=
  if it.remainingCount = 0 ∨ it.rem = [] then .ok (none, it)
  else
    match decodeOppvU64 it.rem with
    | none => .ok (none, { it with remainingCount := 0 })
    | some (delta, len) => do
      let rem ← subslice it.rem len it.rem.length
      let val := if it.isFirst then delta else it.prev.satAdd delta
      return (some val, ⟨rem, it.remainingCount - 1, val, false⟩)

def collect : ℕ → OppvDeltaNeighborIter → Except Fault (Option (List UInt64))
  | 0, _ => .ok none
  | fuel + 1, it => do
    match ← it.next with
    | (none, _) => return some []
    | (some val, it') => return (← collect fuel it').map (val :: ·)

end OppvDeltaNeighborIter

namespace NodePackRef

def decodeSq8 (payload : Bytes) (dim : UInt64) : Except Fault (Except Error NodePackRef) :=
  let headerLen := 1 + 8 + dim + 2
  if payload.length < headerLen.toNat then .ok (.error (.invalidData errSq8TooShort))
  else do
    let scale ← subslice payload 1 5
    let offset ← subslice payload 5 9
    let vecSlice ← subslice payload 9 (9 + dim).toNat
    let degBytes ← subslice payload (9 + dim).toNat (11 + dim).toNat
    let rawNeighbors ← subslice payload (11 + dim).toNat payload.length
    return .ok
      { format := .sq8
        rawF64Vector := none
        sq8Scale := readU32 scale 0
        sq8Offset := readU32 offset 0
        sq8Vector := some (vecSlice.map UInt8.toInt8)
        rawNeighbors := rawNeighbors
        degree := beNat degBytes }

def viewRawF64 (vecBytes rest : Bytes) (dim : UInt64) :
    Except Fault (Except Error NodePackRef) := do
  let vector ← f64Slice vecBytes dim.toNat
  let degBytes ← subslice rest 0 2
  let rawNeighbors ← subslice rest 2 rest.length
  return .ok
    { format := .rawF64
      rawF64Vector := some vector
      sq8Scale := f32One
      sq8Offset := 0
      sq8Vector := none
      rawNeighbors := rawNeighbors
      degree := beNat degBytes }

def decodeRawF64 (addr : ℕ) (payload : Bytes) (dim : UInt64) :
    Except Fault (Except Error NodePackRef) :=
  let vecBytesLen := dim * 8
  if payload.length < (1 + vecBytesLen + 2).toNat then .ok (.error (.invalidData errRawTooShort))
  else do
    let tail ← subslice payload 1 payload.length
    let (vecBytes, rest) ← splitAt tail vecBytesLen.toNat
    if (addr + 1) % 8 ≠ 0 then return .error (.invalidData errUnalignedVector)
    else viewRawF64 vecBytes rest dim

def decodeLegacy (addr : ℕ) (payload : Bytes) (dim : UInt64) :
    Except Fault (Except Error NodePackRef) :=
  let vecBytesLen := dim * 8
  if (vecBytesLen + 2).toNat ≤ payload.length then do
    let (vecBytes, rest) ← splitAt payload vecBytesLen.toNat
    if addr % 8 = 0 then viewRawF64 vecBytes rest dim
    else return .error (.invalidData errUnsupportedNodePack)
  else .ok (.error (.invalidData errUnsupportedNodePack))

def decode (addr : ℕ) (payload : Bytes) (dim : UInt64) : Except Fault (Except Error NodePackRef) :=
  match payload with
  | [] => .ok (.error (.invalidData errEmptyNodePack))
  | flag :: _ =>
    if flag = NodePackFormat.sq8.flag then decodeSq8 payload dim
    else if flag = NodePackFormat.rawF64.flag then decodeRawF64 addr payload dim
    else decodeLegacy addr payload dim

def iterNeighbors (node : NodePackRef) : OppvDeltaNeighborIter :=
  ⟨node.rawNeighbors, node.degree, 0, true⟩

def toNeighborVec (node : NodePackRef) (fuel : ℕ) : Except Fault (Option (List UInt64)) :=
  node.iterNeighbors.collect fuel

def encodeDeltas (isFirst : Bool) (prev : UInt64) : List UInt64 → Bytes
  | [] => []
  | n :: ns =>
    encodeOppvU64 (if isFirst then n else n.satSub prev) ++ encodeDeltas false n ns

def sortNeighbors (neighbors : List UInt64) : List UInt64 :=
  if neighbors.IsChain (· ≤ ·) then neighbors else neighbors.insertionSort (· ≤ ·)

def encodeSq8 (scale offset : UInt32) (vector : List Int8) (neighbors : List UInt64) : Bytes :=
  let deg := UInt16.ofNat (min neighbors.length 65535)
  let header := NodePackFormat.sq8.flag ::
    (scale.toBeBytes ++ (offset.toBeBytes ++ (vector.map Int8.toUInt8 ++ deg.toBeBytes)))
  if deg = 0 then header
  else header ++ encodeDeltas true 0 (sortNeighbors (neighbors.take deg.toNat))

end NodePackRef

/-! ## Reading inside a slice -/

theorem subslice_of_le {bytes : Bytes} {start stop : ℕ} (h : start ≤ stop)
    (hstop : stop ≤ bytes.length) :
    subslice bytes start stop = .ok ((bytes.take stop).drop start) := if_pos ⟨h, hstop⟩

theorem subslice_append {a b : Bytes} (c : Bytes) {start stop : ℕ} (hstart : a.length = start)
    (hstop : start + b.length = stop) : subslice (a ++ (b ++ c)) start stop = .ok b := by
  subst hstart
  subst hstop
  rw [subslice_of_le (by omega) (by simp), ← List.append_assoc,
    List.take_left' (by simp), List.drop_left' rfl]

theorem subslice_suffix {a b : Bytes} {start stop : ℕ} (hstart : a.length = start)
    (hstop : (a ++ b).length = stop) : subslice (a ++ b) start stop = .ok b := by
  have h := @subslice_append a b [] _ stop hstart (by
    rw [← hstop, List.length_append, hstart])
  rwa [List.append_nil] at h

@[simp] theorem Fault.ok_bind {α β : Type} (a : α) (f : α → Except Fault β) :
    (Except.ok a >>= f) = f a := rfl

theorem splitAt_of_le {bytes : Bytes} {mid : ℕ} (h : mid ≤ bytes.length) :
    splitAt bytes mid = .ok (bytes.take mid, bytes.drop mid) := if_pos h

theorem Fault.of_bind_ok {α β : Type} {x : Except Fault α} {f : α → Except Fault β} {b : β}
    (h : x >>= f = .ok b) : ∃ a, x = .ok a ∧ f a = .ok b := by
  cases x with
  | error fault => cases h
  | ok a => exact ⟨a, rfl, h⟩

theorem le_of_subslice {bytes out : Bytes} {start stop : ℕ}
    (h : subslice bytes start stop = .ok out) : start ≤ stop ∧ stop ≤ bytes.length := by
  by_contra hnot
  rw [subslice, if_neg hnot] at h
  cases h

theorem le_of_f64Slice {bytes : Bytes} {dim : ℕ} {out : List UInt64}
    (h : f64Slice bytes dim = .ok out) : dim * 8 ≤ bytes.length := by
  by_contra hnot
  rw [f64Slice, if_neg hnot] at h
  cases h

theorem decodeOppvU64_len {bytes : Bytes} {val : UInt64} {len : ℕ}
    (h : decodeOppvU64 bytes = some (val, len)) : 0 < len ∧ len ≤ bytes.length := by
  unfold decodeOppvU64 at h
  split at h
  · cases h
  · split_ifs at h with h1 h2 h3 h4 h5 h6
    · cases h
      simp
    · split at h
      · cases h
        simp
      · cases h
    · split at h
      · cases h
        simp
      · cases h
    · split at h
      · cases h
        simp
      · cases h
    · cases h
      omega

namespace OppvDeltaNeighborIter

theorem next_spec (it : OppvDeltaNeighborIter) :
    (∃ it', it.next = .ok (none, it')) ∨
      ∃ val it', it.next = .ok (some val, it') ∧ it'.remainingCount < it.remainingCount := by
  by_cases hend : it.remainingCount = 0 ∨ it.rem = []
  · exact .inl ⟨it, if_pos hend⟩
  · rw [next, if_neg hend]
    push Not at hend
    cases hdec : decodeOppvU64 it.rem with
    | none => exact .inl ⟨_, rfl⟩
    | some res =>
      obtain ⟨delta, len⟩ := res
      have hlen := decodeOppvU64_len hdec
      right
      simp only [subslice_of_le hlen.2 le_rfl]
      exact ⟨_, _, rfl, by simp only; omega⟩

/-- The iterator ends within one call more than its count, without leaving the payload. -/
theorem collect_total {fuel : ℕ} (it : OppvDeltaNeighborIter) (h : it.remainingCount < fuel) :
    ∃ vals, it.collect fuel = .ok (some vals) ∧ vals.length ≤ it.remainingCount := by
  induction fuel generalizing it with
  | zero => omega
  | succ fuel ih =>
    rcases it.next_spec with ⟨it', hnext⟩ | ⟨val, it', hnext, hlt⟩
    · refine ⟨[], ?_, by simp⟩
      simp only [collect, hnext]
      rfl
    · obtain ⟨vals, hvals, hlen⟩ := ih it' (by omega)
      refine ⟨val :: vals, ?_, by simp only [List.length_cons]; omega⟩
      simp only [collect, hnext, Fault.ok_bind, hvals]
      rfl

theorem satAdd_satSub {prev n : UInt64} (h : prev ≤ n) : prev.satAdd (n.satSub prev) = n := by
  have hle : prev.toNat ≤ n.toNat := h
  have hsub : (n.satSub prev).toNat = n.toNat - prev.toNat := by
    rw [UInt64.satSub, if_pos h, UInt64.toNat_sub_of_le _ _ h]
  have hn := n.toNat_lt
  apply UInt64.toNat.inj
  rw [UInt64.toNat_satAdd (by omega), hsub]
  omega

theorem next_encodeDeltas {isFirst : Bool} {prev n : UInt64} (ns : List UInt64)
    (h : isFirst = false → prev ≤ n) :
    next ⟨NodePackRef.encodeDeltas isFirst prev (n :: ns), (n :: ns).length, prev, isFirst⟩ =
      .ok (some n, ⟨NodePackRef.encodeDeltas false n ns, ns.length, n, false⟩) := by
  generalize hd : (if isFirst then n else n.satSub prev) = delta
  have hval : (if isFirst then delta else prev.satAdd delta) = n := by
    rw [← hd]
    cases isFirst with
    | true => rfl
    | false => exact satAdd_satSub (h rfl)
  have hrem := subslice_suffix (a := encodeOppvU64 delta) (b := NodePackRef.encodeDeltas false n ns)
    (encodeOppvU64_length delta) rfl
  have hne : encodeOppvU64 delta ++ NodePackRef.encodeDeltas false n ns ≠ [] := by
    rw [encodeOppvU64_eq_cons]
    exact List.cons_ne_nil _ _
  rw [next, if_neg (by simp [NodePackRef.encodeDeltas, hd, hne])]
  simp only [NodePackRef.encodeDeltas, hd, decodeOppvU64_encodeOppvU64, hrem]
  change Except.ok (some (if isFirst then delta else prev.satAdd delta), _) = _
  simp only [hval, List.length_cons, Nat.add_sub_cancel]

theorem collect_encodeDeltas {fuel : ℕ} {isFirst : Bool} {prev : UInt64} {ns : List UInt64}
    (hs : ns.Pairwise (· ≤ ·)) (hprev : isFirst = false → ∀ n ∈ ns, prev ≤ n)
    (hfuel : ns.length < fuel) :
    collect fuel ⟨NodePackRef.encodeDeltas isFirst prev ns, ns.length, prev, isFirst⟩ =
      .ok (some ns) := by
  induction ns generalizing fuel isFirst prev with
  | nil =>
    obtain ⟨fuel, rfl⟩ := Nat.exists_eq_add_of_lt hfuel
    rfl
  | cons n ns ih =>
    obtain ⟨fuel, rfl⟩ := Nat.exists_eq_add_of_lt hfuel
    have hnext := @next_encodeDeltas isFirst prev n ns
      (fun hf => hprev hf n (by simp))
    have hrest := @ih ((n :: ns).length + fuel) false n
      (List.pairwise_cons.mp hs).2 (fun _ => (List.pairwise_cons.mp hs).1) (by simp; omega)
    simp only [collect, hnext, Fault.ok_bind]
    rw [hrest]
    rfl

end OppvDeltaNeighborIter

namespace NodePackRef

theorem sortNeighbors_eq (neighbors : List UInt64) :
    sortNeighbors neighbors = neighbors.insertionSort (· ≤ ·) := by
  unfold sortNeighbors
  split_ifs with h
  · exact (List.isChain_iff_pairwise.mp h).insertionSort_eq.symm
  · rfl

theorem sortNeighbors_sorted (neighbors : List UInt64) :
    (sortNeighbors neighbors).Pairwise (· ≤ ·) := by
  rw [sortNeighbors_eq]
  exact List.pairwise_insertionSort _ _

theorem length_sortNeighbors (neighbors : List UInt64) :
    (sortNeighbors neighbors).length = neighbors.length := by
  rw [sortNeighbors_eq, List.length_insertionSort]

/-! ## Round trip -/

theorem toNat_add_dim {c dim : UInt64} {n : ℕ} (hdim : dim.toNat = n)
    (hlen : c.toNat + n < 2 ^ 64) : (c + dim).toNat = c.toNat + n := by
  rw [UInt64.toNat_add, hdim, Nat.mod_eq_of_lt hlen]

theorem toNat_headerLen {dim : UInt64} {n : ℕ} (hdim : dim.toNat = n) (hlen : n + 11 < 2 ^ 64) :
    (1 + 8 + dim + 2).toNat = n + 11 := by
  have h9 := toNat_add_dim (c := 1 + 8) hdim (show 9 + n < 2 ^ 64 by omega)
  rw [UInt64.toNat_add, h9, show (1 + 8 : UInt64).toNat = 9 by rfl,
    show (2 : UInt64).toNat = 2 by rfl]
  omega

theorem readU32_toBeBytes (x : UInt32) : readU32 x.toBeBytes 0 = x := by
  have h := KeyMeta.readU32_append (a := []) (b := []) x rfl
  rwa [List.nil_append, List.append_nil] at h

theorem map_toInt8_toUInt8 (vector : List Int8) :
    (vector.map Int8.toUInt8).map UInt8.toInt8 = vector := by
  rw [List.map_map]
  exact (List.map_congr_left fun x _ => Int8.toInt8_toUInt8 x).trans (List.map_id _)

theorem decodeSq8_append (scale offset : UInt32) (vector : List Int8) (deg : UInt16)
    (rest : Bytes) {dim : UInt64} (hdim : dim.toNat = vector.length)
    (hlen : vector.length + 11 < 2 ^ 64) :
    decodeSq8 (NodePackFormat.sq8.flag ::
      (scale.toBeBytes ++
        (offset.toBeBytes ++ (vector.map Int8.toUInt8 ++ (deg.toBeBytes ++ rest)))))
      dim = .ok (.ok
        { format := .sq8
          rawF64Vector := none
          sq8Scale := scale
          sq8Offset := offset
          sq8Vector := some vector
          rawNeighbors := rest
          degree := deg.toNat }) := by
  have h9 : (9 + dim).toNat = 9 + vector.length := toNat_add_dim hdim (show 9 + _ < _ by omega)
  have h11 : (11 + dim).toNat = 11 + vector.length := toNat_add_dim hdim (show 11 + _ < _ by omega)
  generalize hp : NodePackFormat.sq8.flag :: (scale.toBeBytes ++ (offset.toBeBytes ++
    (vector.map Int8.toUInt8 ++ (deg.toBeBytes ++ rest)))) = payload
  have hpl : payload.length = 11 + vector.length + rest.length := by
    rw [← hp]
    simp
    omega
  have hscale : subslice payload 1 5 = .ok scale.toBeBytes := by
    rw [← hp]
    exact subslice_append (a := [NodePackFormat.sq8.flag]) (b := scale.toBeBytes) _ rfl (by simp)
  have hoffset : subslice payload 5 9 = .ok offset.toBeBytes := by
    rw [← hp]
    exact subslice_append (a := NodePackFormat.sq8.flag :: scale.toBeBytes) (b := offset.toBeBytes)
      _ (by simp) (by simp)
  have hvec : subslice payload 9 (9 + dim).toNat = .ok (vector.map Int8.toUInt8) := by
    have h := @subslice_append (NodePackFormat.sq8.flag :: (scale.toBeBytes ++ offset.toBeBytes))
        (vector.map Int8.toUInt8) (deg.toBeBytes ++ rest) 9 (9 + dim).toNat (by simp) (by simp [h9])
    rw [← hp]
    simpa using h
  have hdeg : subslice payload (9 + dim).toNat (11 + dim).toNat = .ok deg.toBeBytes := by
    have h := @subslice_append (NodePackFormat.sq8.flag :: (scale.toBeBytes ++
      (offset.toBeBytes ++ vector.map Int8.toUInt8))) deg.toBeBytes rest (9 + dim).toNat
      (11 + dim).toNat (by simp [h9]; omega)
      (by simp [h9, h11]; omega)
    rw [← hp]
    simpa using h
  have hrest : subslice payload (11 + dim).toNat payload.length = .ok rest := by
    have h := @subslice_suffix (NodePackFormat.sq8.flag :: (scale.toBeBytes ++
      (offset.toBeBytes ++ (vector.map Int8.toUInt8 ++ deg.toBeBytes)))) rest (11 + dim).toNat
      payload.length (by simp [h11]; omega)
      (by rw [hpl]; simp; omega)
    rw [← hp] at h ⊢
    simpa using h
  unfold decodeSq8
  rw [if_neg (by rw [toNat_headerLen hdim hlen]; omega), hscale, hoffset, hvec, hdeg, hrest]
  change Except.ok (Except.ok _) = _
  rw [readU32_toBeBytes, readU32_toBeBytes, map_toInt8_toUInt8, UInt16.beNat_toBeBytes]

theorem encodeSq8_eq (scale offset : UInt32) (vector : List Int8) {neighbors : List UInt64}
    (hdeg : neighbors.length ≤ 65535) :
    encodeSq8 scale offset vector neighbors = NodePackFormat.sq8.flag ::
      (scale.toBeBytes ++ (offset.toBeBytes ++ (vector.map Int8.toUInt8 ++
        ((UInt16.ofNat neighbors.length).toBeBytes ++
          encodeDeltas true 0 (sortNeighbors neighbors))))) := by
  have hnat : (UInt16.ofNat neighbors.length).toNat = neighbors.length :=
    UInt16.toNat_ofNat_of_lt' (show _ < 65536 by omega)
  simp only [encodeSq8, min_eq_left hdeg]
  by_cases h0 : UInt16.ofNat neighbors.length = 0
  · have hlen : neighbors.length = 0 := by rw [← hnat, h0]; rfl
    obtain rfl := List.length_eq_zero_iff.mp hlen
    simp [encodeDeltas, sortNeighbors]
  · rw [if_neg h0, hnat, List.take_length]
    simp

theorem decode_encodeSq8 (addr : ℕ) (scale offset : UInt32) (vector : List Int8)
    {neighbors : List UInt64} (hdeg : neighbors.length ≤ 65535) {dim : UInt64}
    (hdim : dim.toNat = vector.length) (hlen : vector.length + 11 < 2 ^ 64) :
    decode addr (encodeSq8 scale offset vector neighbors) dim = .ok (.ok
      { format := .sq8
        rawF64Vector := none
        sq8Scale := scale
        sq8Offset := offset
        sq8Vector := some vector
        rawNeighbors := encodeDeltas true 0 (sortNeighbors neighbors)
        degree := neighbors.length }) := by
  have hnat : (UInt16.ofNat neighbors.length).toNat = neighbors.length :=
    UInt16.toNat_ofNat_of_lt' (show _ < 65536 by omega)
  rw [encodeSq8_eq scale offset vector hdeg]
  simp only [decode, if_true]
  rw [decodeSq8_append scale offset vector _ _ hdim hlen, hnat]

/-! ## Arbitrary payloads -/

/-- The length computed for the dimension wraps around and fits into the payload. -/
def Oversized (addr : ℕ) (payload : Bytes) (dim : UInt64) : Prop :=
  match payload with
  | [] => False
  | flag :: _ =>
    if flag = NodePackFormat.sq8.flag then
      2 ^ 64 ≤ dim.toNat + 11 ∧ dim.toNat + 11 ≤ 2 ^ 64 + payload.length
    else
      let start := if flag = NodePackFormat.rawF64.flag then 1 else 0
      2 ^ 61 ≤ dim.toNat ∧ dim.toNat * 8 % 2 ^ 64 + start + 2 ≤ payload.length ∧
        (addr + start) % 8 = 0

theorem toNat_headerLen_mod (dim : UInt64) :
    (1 + 8 + dim + 2).toNat = (dim.toNat + 11) % 2 ^ 64 := by
  rw [UInt64.toNat_add, UInt64.toNat_add, show (1 + 8 : UInt64).toNat = 9 by rfl,
    show (2 : UInt64).toNat = 2 by rfl]
  omega

theorem decodeSq8_ok_iff {payload : Bytes} {dim : UInt64} (hlen : payload.length < 2 ^ 63) :
    (∃ r, decodeSq8 payload dim = .ok r) ↔
      ¬(2 ^ 64 ≤ dim.toNat + 11 ∧ dim.toNat + 11 ≤ 2 ^ 64 + payload.length) := by
  have hdim := dim.toNat_lt
  have h9 : (9 + dim).toNat = (9 + dim.toNat) % 2 ^ 64 := UInt64.toNat_add 9 dim
  have h11 : (11 + dim).toNat = (11 + dim.toNat) % 2 ^ 64 := UInt64.toNat_add 11 dim
  have hhead := toNat_headerLen_mod dim
  unfold decodeSq8
  by_cases hshort : payload.length < (1 + 8 + dim + 2).toNat
  · rw [if_pos hshort]
    exact ⟨fun _ => by omega, fun _ => ⟨_, rfl⟩⟩
  · rw [if_neg hshort]
    refine ⟨fun hr => ?_, fun h => ?_⟩
    · obtain ⟨r, h⟩ := hr
      obtain ⟨scale, -, h⟩ := Fault.of_bind_ok h
      obtain ⟨offset, -, h⟩ := Fault.of_bind_ok h
      obtain ⟨vec, hvec, -⟩ := Fault.of_bind_ok h
      have hle := le_of_subslice hvec
      omega
    · rw [subslice_of_le (by omega) (by omega), subslice_of_le (by omega) (by omega),
        subslice_of_le (by omega) (by omega), subslice_of_le (by omega) (by omega),
        subslice_of_le (by omega) (by omega)]
      exact ⟨_, rfl⟩

theorem viewRawF64_ok_iff {vecBytes rest : Bytes} {dim : UInt64} (hrest : 2 ≤ rest.length) :
    (∃ r, viewRawF64 vecBytes rest dim = .ok r) ↔ dim.toNat * 8 ≤ vecBytes.length := by
  refine ⟨fun hr => ?_, fun h => ?_⟩
  · obtain ⟨r, h⟩ := hr
    obtain ⟨vec, hvec, -⟩ := Fault.of_bind_ok h
    exact le_of_f64Slice hvec
  · rw [viewRawF64, f64Slice, if_pos h, subslice_of_le (by omega) hrest,
      subslice_of_le hrest le_rfl]
    exact ⟨_, rfl⟩

theorem toNat_vecBytesLen (dim : UInt64) : (dim * 8).toNat = dim.toNat * 8 % 2 ^ 64 :=
  UInt64.toNat_mul dim 8

theorem decodeRawF64_ok_iff {addr : ℕ} {payload : Bytes} {dim : UInt64} :
    (∃ r, decodeRawF64 addr payload dim = .ok r) ↔
      ¬(2 ^ 61 ≤ dim.toNat ∧ dim.toNat * 8 % 2 ^ 64 + 1 + 2 ≤ payload.length ∧
        (addr + 1) % 8 = 0) := by
  have hdim := dim.toNat_lt
  have hvec := toNat_vecBytesLen dim
  have hneed : (1 + dim * 8 + 2).toNat = dim.toNat * 8 % 2 ^ 64 + 3 := by
    rw [UInt64.toNat_add, UInt64.toNat_add, hvec, show (1 : UInt64).toNat = 1 by rfl,
      show (2 : UInt64).toNat = 2 by rfl]
    omega
  simp only [decodeRawF64, hneed, hvec]
  by_cases hshort : payload.length < dim.toNat * 8 % 2 ^ 64 + 3
  · rw [if_pos hshort]
    exact ⟨fun _ => by omega, fun _ => ⟨_, rfl⟩⟩
  · have htail : ((payload.take payload.length).drop 1).length = payload.length - 1 := by simp
    rw [if_neg hshort, subslice_of_le (by omega) le_rfl]
    simp only [Fault.ok_bind, @splitAt_of_le ((payload.take payload.length).drop 1)
      (dim.toNat * 8 % 2 ^ 64) (by omega)]
    by_cases halign : (addr + 1) % 8 = 0
    · rw [if_neg (by simpa using halign), viewRawF64_ok_iff (by rw [List.length_drop]; omega),
        List.length_take]
      omega
    · rw [if_pos halign]
      exact ⟨fun _ => by omega, fun _ => ⟨_, rfl⟩⟩

theorem decodeLegacy_ok_iff {addr : ℕ} {payload : Bytes} {dim : UInt64} :
    (∃ r, decodeLegacy addr payload dim = .ok r) ↔
      ¬(2 ^ 61 ≤ dim.toNat ∧ dim.toNat * 8 % 2 ^ 64 + 0 + 2 ≤ payload.length ∧
        (addr + 0) % 8 = 0) := by
  have hdim := dim.toNat_lt
  have hvec := toNat_vecBytesLen dim
  have hneed : (dim * 8 + 2).toNat = dim.toNat * 8 % 2 ^ 64 + 2 := by
    rw [UInt64.toNat_add, hvec, show (2 : UInt64).toNat = 2 by rfl]
    omega
  simp only [decodeLegacy, hneed, hvec]
  by_cases hfits : dim.toNat * 8 % 2 ^ 64 + 2 ≤ payload.length
  · rw [if_pos hfits]
    simp only [Fault.ok_bind, @splitAt_of_le payload (dim.toNat * 8 % 2 ^ 64) (by omega)]
    by_cases halign : addr % 8 = 0
    · rw [if_pos halign, viewRawF64_ok_iff (by rw [List.length_drop]; omega), List.length_take]
      omega
    · rw [if_neg halign]
      exact ⟨fun _ => by omega, fun _ => ⟨_, rfl⟩⟩
  · rw [if_neg hfits]
    exact ⟨fun _ => by omega, fun _ => ⟨_, rfl⟩⟩

theorem decode_ok_iff {addr : ℕ} {payload : Bytes} {dim : UInt64}
    (hlen : payload.length < 2 ^ 63) :
    (∃ r, decode addr payload dim = .ok r) ↔ ¬Oversized addr payload dim := by
  cases payload with
  | nil => exact ⟨fun _ h => h, fun _ => ⟨_, rfl⟩⟩
  | cons flag rest =>
    simp only [decode, Oversized]
    by_cases hsq8 : flag = NodePackFormat.sq8.flag
    · rw [if_pos hsq8, if_pos hsq8, decodeSq8_ok_iff hlen]
    · rw [if_neg hsq8, if_neg hsq8]
      by_cases hraw : flag = NodePackFormat.rawF64.flag
      · rw [if_pos hraw, if_pos hraw, decodeRawF64_ok_iff]
      · rw [if_neg hraw, if_neg hraw, decodeLegacy_ok_iff]

theorem toNeighborVec_total (node : NodePackRef) {fuel : ℕ} (h : node.degree < fuel) :
    ∃ vals, node.toNeighborVec fuel = .ok (some vals) ∧ vals.length ≤ node.degree :=
  node.iterNeighbors.collect_total h

/-- Decoding and iterating end with a result or an error and read only the payload. -/
def ReadsInside (addr : ℕ) (payload : Bytes) (dim : UInt64) : Prop :=
  ∃ r, decode addr payload dim = .ok r ∧ ∀ node, r = .ok node → ∀ fuel, node.degree < fuel →
    ∃ vals, node.toNeighborVec fuel = .ok (some vals)

theorem readsInside_iff {addr : ℕ} {payload : Bytes} {dim : UInt64}
    (hlen : payload.length < 2 ^ 63) :
    ReadsInside addr payload dim ↔ ¬Oversized addr payload dim := by
  rw [← decode_ok_iff hlen]
  refine ⟨fun hreads => ?_, fun hr => ?_⟩
  · obtain ⟨r, hr, -⟩ := hreads
    exact ⟨r, hr⟩
  · obtain ⟨r, hr⟩ := hr
    refine ⟨r, hr, fun node _ fuel hfuel => ?_⟩
    obtain ⟨vals, hvals, -⟩ := node.toNeighborVec_total hfuel
    exact ⟨vals, hvals⟩

/-- Packing a node and reading it with its dimension gives the node with its neighbours sorted. -/
def RoundTrips (addr : ℕ) (scale offset : UInt32) (vector : List Int8) (neighbors : List UInt64) :
    Prop :=
  ∃ node, decode addr (encodeSq8 scale offset vector neighbors) (.ofNat vector.length) =
      .ok (.ok node) ∧
    node.sq8Scale = scale ∧ node.sq8Offset = offset ∧ node.sq8Vector = some vector ∧
    ∀ fuel, neighbors.length < fuel →
      node.toNeighborVec fuel = .ok (some (neighbors.insertionSort (· ≤ ·)))

theorem roundTrips (addr : ℕ) (scale offset : UInt32) (vector : List Int8)
    {neighbors : List UInt64} (hdeg : neighbors.length ≤ 65535)
    (hlen : (encodeSq8 scale offset vector neighbors).length < 2 ^ 63) :
    RoundTrips addr scale offset vector neighbors := by
  have hvec : vector.length < 2 ^ 63 := by
    have hle : vector.length ≤ (encodeSq8 scale offset vector neighbors).length := by
      rw [encodeSq8_eq scale offset vector hdeg]
      simp
      omega
    omega
  refine ⟨_, decode_encodeSq8 addr scale offset vector hdeg
    (UInt64.toNat_ofNat_of_lt' (show _ < 2 ^ 64 by omega)) (by omega), rfl, rfl, rfl,
    fun fuel hfuel => ?_⟩
  have h := @OppvDeltaNeighborIter.collect_encodeDeltas _ true 0 _
    (sortNeighbors_sorted neighbors) (fun hf => by cases hf)
    (show (sortNeighbors neighbors).length < fuel by rwa [length_sortNeighbors])
  rw [length_sortNeighbors] at h
  rw [← sortNeighbors_eq]
  exact h

/-- A node is read back as it was packed, and a read leaves the payload, or stops, exactly
where the computed length wraps around. -/
theorem nodePack_roundTrips_readsInside (addr : ℕ) (payload : Bytes) (dim : UInt64)
    (hlen : payload.length < 2 ^ 63) :
    (∀ scale offset vector neighbors, neighbors.length ≤ 65535 →
      (encodeSq8 scale offset vector neighbors).length < 2 ^ 63 →
      RoundTrips addr scale offset vector neighbors) ∧
    (ReadsInside addr payload dim ↔ ¬Oversized addr payload dim) :=
  ⟨fun scale offset vector _ hdeg hlen => roundTrips addr scale offset vector hdeg hlen,
    readsInside_iff hlen⟩

theorem nodePack_roundTrips_readsInside_small :
    RoundTrips 0 0x3F800000 0 [-3, 4] [300, 7] ∧ ReadsInside 0 [1, 2] 5 := by
  have h := nodePack_roundTrips_readsInside 0 [1, 2] 5 (by decide)
  refine ⟨h.1 0x3F800000 0 [-3, 4] [300, 7] (by decide) (by decide), h.2.mpr fun hover => ?_⟩
  exact absurd hover.1 (by decide)

/-- Eight times 2⁶¹ floats are no bytes, and a view of all of them is handed out. -/
theorem nodePack_reads_outside :
    decode 7 [0, 0, 0] 0x2000000000000000 = .error .outside ∧
    decode 0 [1] 0xFFFFFFFFFFFFFFF6 = .error .panic ∧
    ¬∀ addr payload dim, payload.length < 2 ^ 63 → ReadsInside addr payload dim := by
  have hraw : decode 7 [0, 0, 0] 0x2000000000000000 = .error .outside := rfl
  refine ⟨hraw, rfl, fun h => ?_⟩
  obtain ⟨r, hr, -⟩ := h 7 [0, 0, 0] 0x2000000000000000 (by decide)
  rw [hraw] at hr
  cases hr

end NodePackRef

end Wedb
