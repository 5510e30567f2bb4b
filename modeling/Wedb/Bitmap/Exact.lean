import Wedb.Bitmap.Window

/-!
# Exactness of bit fields

Strings and segments show the same bytes in the window and take them back from it, so one
account of an operation holds for both: the value that the policy settles on is stored and
returned, and no bit outside the field changes. The one operation that stores another value
sets a signed field, with saturation, to a number too far below it.
-/

namespace Wedb.Bitfield

section operation

variable (op : BitfieldOperation)

def Bitmap.fieldValue (bitmap : Bitmap) : ℤ :=
  op.encoding.valueOf (fieldOf bitmap.bit op.offset op.encoding.bits)

/-- An operation has stored a value and returned what belongs to it, or has failed. -/
def Settles (target : Option ℤ) (before : Bitmap) (ret : Option BitfieldValue) (after : Bitmap) :
    Prop :=
  match target with
  | some y =>
      ret = some (op.output (before.fieldValue op) y) ∧ after.fieldValue op = y ∧
        ∀ i, i < op.offset ∨ op.offset + op.encoding.bits ≤ i → after.bit i = before.bit i
  | none => ret = none ∧ ∀ i, after.bit i = before.bit i

/-- The window shows the bytes of the field. -/
def Shows (view : ArrayBitfieldBitmap) (bitmap : Bitmap) : Prop :=
  ∀ q, firstByte op + q ≤ lastByte op → view.buf.getD q 0 = bitmap.byteAt (firstByte op + q)

/-- The bytes of the field are those of the window, and the others are as before. -/
def Takes (view : ArrayBitfieldBitmap) (before after : Bitmap) : Prop :=
  ∀ i, after.byteAt i =
    if firstByte op ≤ i ∧ i ≤ lastByte op then view.buf.getD (i - firstByte op) 0
    else before.byteAt i

end operation

section window

variable {op : BitfieldOperation} {view view' : ArrayBitfieldBitmap} {before after : Bitmap}

theorem field_in_bytes (op : BitfieldOperation) :
    op.offset = 8 * firstByte op + op.offset % 8 ∧
      op.offset % 8 + op.encoding.bits ≤ 8 * (lastByte op - firstByte op + 1) ∧
      firstByte op ≤ lastByte op ∧ lastByte op ≤ firstByte op + 8 := by
  have hpos := op.encoding.pos
  have hle := op.encoding.le_word
  unfold firstByte lastByte
  omega

theorem Shows.bit_eq (h : Shows op view before) {j : ℕ}
    (hj : j < 8 * (lastByte op - firstByte op + 1)) :
    view.bit j = before.bit (8 * firstByte op + j) := by
  have hle := (field_in_bytes op).2.2.1
  rw [ArrayBitfieldBitmap.bit, Bitmap.bit, h (j / 8) (by omega),
    (by omega : (8 * firstByte op + j) / 8 = firstByte op + j / 8),
    (by omega : (8 * firstByte op + j) % 8 = j % 8)]

theorem Shows.fieldValue_eq (h : Shows op view before) :
    before.fieldValue op =
      op.encoding.valueOf (fieldOf view.bit (op.offset % 8) op.encoding.bits) := by
  obtain ⟨hoffset, hlast, -⟩ := field_in_bytes op
  have hfield : fieldOf view.bit (op.offset % 8) op.encoding.bits =
      fieldOf (fun j => before.bit (8 * firstByte op + j)) (op.offset % 8) op.encoding.bits :=
    fieldOf_congr fun i hi => h.bit_eq (by omega)
  rw [hfield, fieldOf_shift, ← hoffset, Bitmap.fieldValue]

theorem Takes.bit_eq (h : Takes op view before after) (i : ℕ) :
    after.bit i =
      if firstByte op ≤ i / 8 ∧ i / 8 ≤ lastByte op then view.bit (i - 8 * firstByte op)
      else before.bit i := by
  rw [Bitmap.bit, h]
  split_ifs with hin
  · rw [ArrayBitfieldBitmap.bit, (by omega : (i - 8 * firstByte op) / 8 = i / 8 - firstByte op),
      (by omega : (i - 8 * firstByte op) % 8 = i % 8)]
  · rfl

theorem Takes.stored (hshows : Shows op view before) (htakes : Takes op view' before after) {y : ℤ}
    (hy : op.encoding.lo ≤ y ∧ y ≤ op.encoding.hi)
    (hbits : ∀ j < 72, view'.bit j =
      if op.offset % 8 ≤ j ∧ j < op.offset % 8 + op.encoding.bits then
        (asU64 y).testBit (op.offset % 8 + op.encoding.bits - 1 - j)
      else view.bit j) :
    after.fieldValue op = y ∧
      ∀ i, i < op.offset ∨ op.offset + op.encoding.bits ≤ i → after.bit i = before.bit i := by
  obtain ⟨hoffset, hlast, hle, hnine⟩ := field_in_bytes op
  refine ⟨?_, fun i hi => ?_⟩
  · have hfield : fieldOf after.bit op.offset op.encoding.bits = asU64 y % 2 ^ op.encoding.bits := by
      refine Nat.eq_of_testBit_eq fun i => ?_
      rw [fieldOf_testBit, Nat.testBit_mod_two_pow]
      by_cases hi : i < op.encoding.bits
      · rw [htakes.bit_eq, if_pos (by omega), hbits _ (by omega), if_pos (by omega)]
        refine congrArg₂ and rfl (congrArg _ ?_)
        omega
      · rw [decide_eq_false hi, Bool.false_and, Bool.false_and]
    rw [Bitmap.fieldValue, hfield, BitfieldEncoding.valueOf_asU64 hy]
  · rw [htakes.bit_eq]
    split_ifs with hin
    · rw [hbits _ (by omega), if_neg (by omega), hshows.bit_eq (by omega)]
      refine congrArg before.bit ?_
      omega
    · rfl

theorem stored_get (hop : op.opType = .get) {v : ℤ}
    (hv : op.encoding.lo ≤ v ∧ v ≤ op.encoding.hi) : op.stored v = some v := by
  have hmis : ¬op.Missaturates := by
    intro h
    have htype := h.1
    rw [hop] at htype
    contradiction
  rw [BitfieldOperation.stored, if_neg hmis]
  unfold BitfieldOperation.input BitfieldEncoding.settle
  rw [hop, if_pos hv]

theorem fieldValue_range (op : BitfieldOperation) (bitmap : Bitmap) :
    op.encoding.lo ≤ bitmap.fieldValue op ∧ bitmap.fieldValue op ≤ op.encoding.hi :=
  BitfieldEncoding.valueOf_range (fieldOf_lt op.encoding.bits)

theorem Settles.get (hop : op.opType = .get) (bitmap : Bitmap) :
    Settles op (op.stored (bitmap.fieldValue op)) bitmap
      (some (op.output (bitmap.fieldValue op) (bitmap.fieldValue op))) bitmap := by
  rw [stored_get hop (fieldValue_range op bitmap)]
  exact ⟨rfl, rfl, fun _ _ => rfl⟩

end window

theorem getD_splice {α : Type*} (l mid : List α) {start : ℕ} (h : start ≤ l.length) (i : ℕ) (d : α) :
    (l.take start ++ mid ++ l.drop (start + mid.length)).getD i d =
      if start ≤ i ∧ i < start + mid.length then mid.getD (i - start) d else l.getD i d := by
  have hlen : (l.take start).length = start := List.length_take_of_le h
  simp only [List.getD_eq_getElem?_getD]
  by_cases hlow : i < start
  · rw [if_neg (by omega), List.append_assoc, List.getElem?_append_left (by omega),
      List.getElem?_take_of_lt hlow]
  · by_cases hin : i < start + mid.length
    · rw [if_pos (by omega), List.getElem?_append_left (by simp; omega),
        List.getElem?_append_right (by omega), hlen]
    · rw [if_neg (by omega), List.getElem?_append_right (by simp; omega), List.getElem?_drop,
        List.length_append, hlen]
      refine congrArg (fun j => l[j]?.getD d) ?_
      omega

theorem getD_zeros (l : Bytes) (n i : ℕ) : (l ++ List.replicate n 0).getD i 0 = l.getD i 0 := by
  simp only [List.getD_eq_getElem?_getD]
  by_cases hi : i < l.length
  · rw [List.getElem?_append_left hi]
  · rw [List.getElem?_append_right (by omega), List.getElem?_replicate,
      List.getElem?_eq_none (by omega : l.length ≤ i)]
    split_ifs <;> rfl

/-! ## Strings -/

section string

variable {op : BitfieldOperation} (bytes : Bytes)

theorem shows_viewAt : Shows op (viewAt bytes (firstByte op)) (.string bytes) := by
  obtain ⟨-, -, -, hnine⟩ := field_in_bytes op
  intro q hq
  rw [viewAt, getD_zeros, Bitmap.byteAt]
  simp only [List.getD_eq_getElem?_getD]
  rw [List.getElem?_take_of_lt (by omega), List.getElem?_drop]

theorem byteAt_resized (op : BitfieldOperation) (i : ℕ) :
    (Bitmap.string (resized op bytes)).byteAt i = (Bitmap.string bytes).byteAt i := by
  rw [Bitmap.byteAt, Bitmap.byteAt, resized, getD_zeros]

theorem bit_resized (op : BitfieldOperation) :
    (Bitmap.string (resized op bytes)).bit = (Bitmap.string bytes).bit := by
  funext i
  rw [Bitmap.bit, Bitmap.bit, byteAt_resized]

theorem takes_string (view : ArrayBitfieldBitmap) :
    Takes op view (.string (resized op bytes))
      (.string ((resized op bytes).take (firstByte op) ++
        view.buf.take (min (lastByte op - firstByte op + 1) 9) ++
        (resized op bytes).drop (firstByte op + min (lastByte op - firstByte op + 1) 9))) := by
  obtain ⟨-, -, hle, hnine⟩ := field_in_bytes op
  intro i
  have hlen : (view.buf.take (min (lastByte op - firstByte op + 1) 9)).length =
      min (lastByte op - firstByte op + 1) 9 := by
    rw [List.length_take, view.size_eq]
    omega
  have hstart : firstByte op ≤ (resized op bytes).length := by
    rw [resized, List.length_append, List.length_replicate]
    omega
  have hsplice := getD_splice (resized op bytes)
    (view.buf.take (min (lastByte op - firstByte op + 1) 9)) hstart i 0
  rw [hlen] at hsplice
  rw [Bitmap.byteAt, Bitmap.byteAt, hsplice]
  by_cases hin : firstByte op ≤ i ∧ i ≤ lastByte op
  · rw [if_pos (by omega), if_pos hin]
    simp only [List.getD_eq_getElem?_getD]
    rw [List.getElem?_take_of_lt (by omega)]
  · rw [if_neg (by omega), if_neg hin]

theorem stringStep_settles (op : BitfieldOperation) :
    ∃ ret after, stringStep bytes op false = .ok (ret, after) ∧
      Settles op (op.stored ((Bitmap.string bytes).fieldValue op)) (.string bytes) ret
        (.string after) := by
  by_cases hop : op.opType = .get
  · refine ⟨_, bytes, ?_, Settles.get hop _⟩
    unfold stringStep
    simp only [hop, ne_eq, not_true, if_false, false_and]
    rw [ArrayBitfieldBitmap.applyOp_get hop rfl (shows_viewAt bytes).fieldValue_eq]
    rfl
  · have hvalue : (Bitmap.string (resized op bytes)).fieldValue op =
        (Bitmap.string bytes).fieldValue op := by
      rw [Bitmap.fieldValue, Bitmap.fieldValue, bit_resized]
    have hshows := @shows_viewAt op (resized op bytes)
    have hread := hshows.fieldValue_eq
    rw [hvalue] at hread
    unfold stringStep
    simp only [ne_eq, hop, not_false_eq_true, if_true, true_and]
    cases hstored : op.stored ((Bitmap.string bytes).fieldValue op) with
    | none =>
      rw [ArrayBitfieldBitmap.applyOp_failed hop rfl hread hstored]
      refine ⟨none, resized op bytes, rfl, rfl, fun i => ?_⟩
      rw [bit_resized]
    | some y =>
      obtain ⟨view', happly, -, hbits⟩ :=
        ArrayBitfieldBitmap.applyOp_stored hop rfl hread hstored
      rw [happly]
      refine ⟨_, _, rfl, rfl, ?_⟩
      rw [← bit_resized bytes op]
      exact (takes_string bytes view').stored hshows (stored_range hstored) hbits

end string

/-! ## Segments -/

theorem reverseBits_reverseBits (b : UInt8) : reverseBits (reverseBits b) = b := by
  rw [reverseBits, reverseBits, BitVec.reverse_reverse_eq]

theorem reverseBits_zero : reverseBits 0 = 0 := by decide

theorem getD_map_reverseBits (l : Bytes) (i : ℕ) :
    (l.map reverseBits).getD i 0 = reverseBits (l.getD i 0) := by
  simp only [List.getD_eq_getElem?_getD, List.getElem?_map]
  cases l[i]? with
  | none => exact reverseBits_zero.symm
  | some b => rfl

theorem msbSlice_length (seg : Bytes) (segRelStart sliceLen : ℕ) :
    (msbSlice seg segRelStart sliceLen).length = sliceLen := by
  simp [msbSlice]

theorem msbSlice_getD (seg : Bytes) (segRelStart : ℕ) {sliceLen i : ℕ} (hi : i < sliceLen) :
    (msbSlice seg segRelStart sliceLen).getD i 0 = reverseBits (seg.getD (segRelStart + i) 0) := by
  rw [msbSlice, getD_zeros, getD_map_reverseBits]
  simp only [List.getD_eq_getElem?_getD]
  rw [List.getElem?_take_of_lt hi, List.getElem?_drop]

theorem expandBitmapSegment_length (segment : Bytes) (minBytes : ℕ) :
    minBytes ≤ (expandBitmapSegment segment minBytes).length := by
  rw [expandBitmapSegment]
  split_ifs with h
  · simp
    omega
  · omega

theorem expandBitmapSegment_getD (segment : Bytes) (minBytes i : ℕ) :
    (expandBitmapSegment segment minBytes).getD i 0 = segment.getD i 0 := by
  rw [expandBitmapSegment]
  split_ifs with h
  · exact getD_zeros _ _ _
  · rfl

section segments

variable {first last sIdx : ℕ} {view : ArrayBitfieldBitmap} {store : ℕ → Bytes}

theorem readSegment_spec (hview : view.byteOffset = first) (hlast : last ≤ first + 8) :
    ∃ view', readSegment first last store view sIdx = .ok view' ∧ view'.byteOffset = first ∧
      ∀ q, first + q ≤ last → view'.buf.getD q 0 =
        if (first + q) / 1024 = sIdx then (Bitmap.segments store).byteAt (first + q)
        else view.buf.getD q 0 := by
  have hsize := view.size_eq
  unfold readSegment interStart interEnd bitmapSegmentBytes
  by_cases hin : max first (sIdx * 1024) < min (last + 1) (sIdx * 1024 + 1024)
  · simp only [if_pos hin]
    have hlen := msbSlice_length (store sIdx) (max first (sIdx * 1024) - sIdx * 1024)
      (min (last + 1) (sIdx * 1024 + 1024) - max first (sIdx * 1024))
    unfold ArrayBitfieldBitmap.set
    rw [dif_neg (by omega)]
    refine ⟨_, rfl, hview, fun q hq => ?_⟩
    rw [getD_splice _ _ (by omega), hlen, hview]
    by_cases hseg : (first + q) / 1024 = sIdx
    · rw [if_pos (by omega), if_pos hseg, msbSlice_getD _ _ (by omega), Bitmap.byteAt,
        bitmapSegmentBytes, hseg]
      refine congrArg (fun j => reverseBits ((store sIdx).getD j 0)) ?_
      omega
    · rw [if_neg (by omega), if_neg hseg]
  · simp only [if_neg hin]
    refine ⟨view, rfl, hview, fun q hq => ?_⟩
    rw [if_neg (by omega)]

theorem readSegments_spec (hview : view.byteOffset = first) (hlast : last ≤ first + 8) (k : ℕ) :
    ∃ view', (List.range' sIdx k).foldlM (readSegment first last store) view = .ok view' ∧
      view'.byteOffset = first ∧
      ∀ q, first + q ≤ last → view'.buf.getD q 0 =
        if sIdx ≤ (first + q) / 1024 ∧ (first + q) / 1024 < sIdx + k then
          (Bitmap.segments store).byteAt (first + q)
        else view.buf.getD q 0 := by
  induction k generalizing sIdx view with
  | zero => exact ⟨view, rfl, hview, fun q _ => by rw [if_neg (by omega)]⟩
  | succ k ih =>
    obtain ⟨view₁, hread, hview₁, hbytes₁⟩ :=
      @readSegment_spec first last sIdx view store hview hlast
    obtain ⟨view₂, hrest, hview₂, hbytes₂⟩ := @ih (sIdx + 1) view₁ hview₁
    refine ⟨view₂, ?_, hview₂, fun q hq => ?_⟩
    · rw [List.range'_succ, List.foldlM_cons, hread]
      exact hrest
    · rw [hbytes₂ q hq, hbytes₁ q hq]
      split_ifs <;> first | rfl | omega

theorem writeSegment_spec (hview : view.byteOffset = first) (hlast : last ≤ first + 8) :
    ∃ store', writeSegment first last view store sIdx = .ok store' ∧
      ∀ i, (Bitmap.segments store').byteAt i =
        if first ≤ i ∧ i ≤ last ∧ i / 1024 = sIdx then view.buf.getD (i - first) 0
        else (Bitmap.segments store).byteAt i := by
  have hsize := view.size_eq
  unfold writeSegment interStart interEnd
  simp only [Bitmap.byteAt]
  unfold bitmapSegmentBytes
  by_cases hin : max first (sIdx * 1024) < min (last + 1) (sIdx * 1024 + 1024)
  · simp only [if_pos hin]
    unfold ArrayBitfieldBitmap.get
    rw [if_neg (by omega)]
    refine ⟨_, rfl, fun i => ?_⟩
    dsimp only
    by_cases hseg : i / 1024 = sIdx
    · have hlen : (((view.buf.drop (max first (sIdx * 1024) - view.byteOffset)).take
          (min (last + 1) (sIdx * 1024 + 1024) - max first (sIdx * 1024))).map reverseBits).length =
          min (last + 1) (sIdx * 1024 + 1024) - max first (sIdx * 1024) := by
        rw [List.length_map, List.length_take, List.length_drop]
        omega
      have hstop := expandBitmapSegment_length (store sIdx)
        (min (last + 1) (sIdx * 1024 + 1024) - sIdx * 1024)
      have hstart : max first (sIdx * 1024) - sIdx * 1024 ≤ (expandBitmapSegment (store sIdx)
          (min (last + 1) (sIdx * 1024 + 1024) - sIdx * 1024)).length := by omega
      have hsplice := getD_splice _ (((view.buf.drop (max first (sIdx * 1024) - view.byteOffset)).take
          (min (last + 1) (sIdx * 1024 + 1024) - max first (sIdx * 1024))).map reverseBits) hstart
          (i % 1024) 0
      rw [hlen, (by omega : max first (sIdx * 1024) - sIdx * 1024 +
        (min (last + 1) (sIdx * 1024 + 1024) - max first (sIdx * 1024)) =
          min (last + 1) (sIdx * 1024 + 1024) - sIdx * 1024)] at hsplice
      rw [hseg, Function.update_self, hsplice]
      by_cases hrange : first ≤ i ∧ i ≤ last
      · rw [if_pos (by omega), if_pos ⟨hrange.1, hrange.2, rfl⟩, getD_map_reverseBits]
        simp only [List.getD_eq_getElem?_getD]
        rw [List.getElem?_take_of_lt (by omega), List.getElem?_drop, reverseBits_reverseBits]
        refine congrArg (fun j => view.buf[j]?.getD 0) ?_
        omega
      · rw [if_neg (by omega), if_neg (by omega), expandBitmapSegment_getD]
    · rw [Function.update_of_ne hseg, if_neg (by omega)]
  · simp only [if_neg hin]
    refine ⟨store, rfl, fun i => ?_⟩
    rw [if_neg (by omega)]

theorem writeSegments_spec (hview : view.byteOffset = first) (hlast : last ≤ first + 8) (k : ℕ) :
    ∃ store', (List.range' sIdx k).foldlM (writeSegment first last view) store = .ok store' ∧
      ∀ i, (Bitmap.segments store').byteAt i =
        if first ≤ i ∧ i ≤ last ∧ sIdx ≤ i / 1024 ∧ i / 1024 < sIdx + k then
          view.buf.getD (i - first) 0
        else (Bitmap.segments store).byteAt i := by
  induction k generalizing sIdx store with
  | zero => exact ⟨store, rfl, fun i => by rw [if_neg (by omega)]⟩
  | succ k ih =>
    obtain ⟨store₁, hwrite, hbytes₁⟩ :=
      @writeSegment_spec first last sIdx view store hview hlast
    obtain ⟨store₂, hrest, hbytes₂⟩ := @ih (sIdx + 1) store₁
    refine ⟨store₂, ?_, fun i => ?_⟩
    · rw [List.range'_succ, List.foldlM_cons, hwrite]
      exact hrest
    · rw [hbytes₂ i, hbytes₁ i]
      split_ifs <;> first | rfl | omega

end segments

section segmentStep

variable {op : BitfieldOperation} (store : ℕ → Bytes)

theorem shows_segments (op : BitfieldOperation) :
    ∃ view, (segmentRange op).foldlM (readSegment (firstByte op) (lastByte op) store)
        (ArrayBitfieldBitmap.new (firstByte op)) = .ok view ∧
      view.byteOffset = firstByte op ∧ Shows op view (.segments store) := by
  obtain ⟨-, -, hle, hnine⟩ := field_in_bytes op
  obtain ⟨view, hread, hview, hbytes⟩ := @readSegments_spec (firstByte op) (lastByte op)
    (firstByte op / 1024) (ArrayBitfieldBitmap.new (firstByte op)) store rfl hnine
    (lastByte op / 1024 - firstByte op / 1024 + 1)
  refine ⟨view, hread, hview, fun q hq => ?_⟩
  rw [hbytes q hq, if_pos (by omega)]

theorem takes_segments {view : ArrayBitfieldBitmap} (hview : view.byteOffset = firstByte op) :
    ∃ store', (segmentRange op).foldlM (writeSegment (firstByte op) (lastByte op) view) store =
        .ok store' ∧ Takes op view (.segments store) (.segments store') := by
  obtain ⟨-, -, hle, hnine⟩ := field_in_bytes op
  obtain ⟨store', hwrite, hbytes⟩ := @writeSegments_spec (firstByte op) (lastByte op)
    (firstByte op / 1024) view store hview hnine (lastByte op / 1024 - firstByte op / 1024 + 1)
  refine ⟨store', hwrite, fun i => ?_⟩
  rw [hbytes i]
  refine if_congr ?_ rfl rfl
  omega

theorem segmentStep_settles (op : BitfieldOperation) :
    ∃ ret after, segmentStep store op false = .ok (ret, after) ∧
      Settles op (op.stored ((Bitmap.segments store).fieldValue op)) (.segments store) ret
        (.segments after) := by
  obtain ⟨view, hread, hview, hshows⟩ := shows_segments store op
  have hvalue := hshows.fieldValue_eq
  unfold segmentStep
  simp only [hread, Except.bind]
  by_cases hop : op.opType = .get
  · refine ⟨_, store, ?_, Settles.get hop _⟩
    rw [ArrayBitfieldBitmap.applyOp_get hop hview hvalue]
    simp [hop]
  · cases hstored : op.stored ((Bitmap.segments store).fieldValue op) with
    | none =>
      rw [ArrayBitfieldBitmap.applyOp_failed hop hview hvalue hstored]
      exact ⟨none, store, by simp, rfl, fun _ => rfl⟩
    | some y =>
      obtain ⟨view', happly, hview', hbits⟩ :=
        ArrayBitfieldBitmap.applyOp_stored hop hview hvalue hstored
      obtain ⟨store', hwrite, htakes⟩ := takes_segments store (hview'.trans hview)
      rw [happly]
      refine ⟨_, store', ?_, rfl, htakes.stored hshows (stored_range hstored) hbits⟩
      simp [hop, hwrite, Except.map]

end segmentStep

/-! ## Both -/

namespace Bitmap

theorem bitfieldStep_settles (bitmap : Bitmap) (op : BitfieldOperation) :
    ∃ ret after, bitmap.bitfieldStep op false = .ok (ret, after) ∧
      Settles op (op.stored (bitmap.fieldValue op)) bitmap ret after := by
  cases bitmap with
  | string bytes =>
    obtain ⟨ret, after, hstep, hsettles⟩ := stringStep_settles bytes op
    exact ⟨ret, string after, by rw [bitfieldStep, hstep]; rfl, hsettles⟩
  | segments store =>
    obtain ⟨ret, after, hstep, hsettles⟩ := segmentStep_settles store op
    exact ⟨ret, segments after, by rw [bitfieldStep, hstep]; rfl, hsettles⟩

/-- What an operation owes: the value that the policy settles on. -/
def Exact (bitmap : Bitmap) (op : BitfieldOperation) : Prop :=
  ∃ ret after, bitmap.bitfieldStep op false = .ok (ret, after) ∧
    Settles op (op.encoding.settle op.overflow (op.input (bitmap.fieldValue op))) bitmap ret after

theorem not_exact_of_missaturates {bitmap : Bitmap} {op : BitfieldOperation}
    (hmis : op.Missaturates) : ¬bitmap.Exact op := by
  rintro ⟨ret', after', hstep', hexact⟩
  obtain ⟨ret, after, hstep, hsettles⟩ := bitmap.bitfieldStep_settles op
  rw [hstep] at hstep'
  obtain ⟨rfl, rfl⟩ := Prod.mk.inj (Except.ok.inj hstep')
  rw [settle_of_missaturates hmis] at hexact
  rw [BitfieldOperation.stored, if_pos hmis] at hsettles
  have hword := op.encoding.limits_word
  have hpow : (1 : ℤ) < 2 ^ op.encoding.bits :=
    one_lt_pow₀ (by norm_num) (Nat.one_le_iff_ne_zero.mp op.encoding.pos)
  have hlow := hexact.2.1
  have hhigh := hsettles.2.1
  omega

/-- The value that the policy settles on is stored, but for a saturation gone wrong. -/
theorem bitfieldStep_exact_iff (bitmap : Bitmap) (op : BitfieldOperation) :
    bitmap.Exact op ↔ ¬op.Missaturates := by
  refine ⟨fun hexact hmis => not_exact_of_missaturates hmis hexact, fun hmis => ?_⟩
  obtain ⟨ret, after, hstep, hsettles⟩ := bitmap.bitfieldStep_settles op
  rw [BitfieldOperation.stored, if_neg hmis] at hsettles
  exact ⟨ret, after, hstep, hsettles⟩

theorem bitfieldStep_not_always_exact : ¬∀ bitmap : Bitmap, ∀ op, bitmap.Exact op := by
  intro h
  refine not_exact_of_missaturates ?_ (h (.string [])
    { opType := .set
      encoding := ⟨true, 8, by decide, by decide⟩
      offset := 0
      value := Int64.minValue
      overflow := .sat
      offset_lt := by decide })
  decide

/-! ## Runs -/

/-- The operations of a command settle one after the other. -/
def Runs : List BitfieldOperation → Bitmap → List (Option BitfieldValue) → Bitmap → Prop
  | [], before, results, after => results = [] ∧ after = before
  | op :: ops, before, results, after =>
      ∃ ret rest next, results = ret :: rest ∧
        Settles op (op.stored (before.fieldValue op)) before ret next ∧ Runs ops next rest after

theorem execBitfield_runs (ops : List BitfieldOperation) (bitmap : Bitmap) :
    ∃ results after, execBitfield false ops bitmap = .ok (results, after) ∧
      Runs ops bitmap results after := by
  induction ops generalizing bitmap with
  | nil => exact ⟨[], bitmap, rfl, rfl, rfl⟩
  | cons op ops ih =>
    obtain ⟨ret, next, hstep, hsettles⟩ := bitmap.bitfieldStep_settles op
    obtain ⟨rest, after, hrest, hruns⟩ := ih next
    refine ⟨ret :: rest, after, ?_, ret, rest, next, rfl, hsettles, hruns⟩
    rw [execBitfield, hstep]
    simp only [Except.bind, hrest]
    rfl

end Bitmap

end Wedb.Bitfield
