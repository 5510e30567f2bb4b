import Wedb.Engine.Error
import Wedb.Hll.Merge
import Wedb.Ordered.RunLength

/-!
# Sparse registers

The sparse form is a sequence of opcodes, each a run of equal registers. Changing
a register replays the runs before it, splits its own and replays those after it,
joining equal neighbours; what outgrows the form is refused.
-/

namespace Wedb

open RunLength

def hllSparseMaxBytes : ℕ := 3000
def hllSparseValMaxValue : UInt8 := 32
def hllSparseValMaxLen : ℕ := 4
def hllSparseZeroMaxLen : ℕ := 64
def hllSparseXzeroMaxLen : ℕ := 16384

inductive HllSparseOp
  | zero (len : ℕ)
  | xZero (len : ℕ)
  | val (val : UInt8) (len : ℕ)
  deriving DecidableEq, Repr

namespace HllSparseOp

def len : HllSparseOp → ℕ
  | zero len | xZero len | val _ len => len

def value : HllSparseOp → UInt8
  | zero _ | xZero _ => 0
  | val v _ => v

def run (op : HllSparseOp) : UInt8 × ℕ := (op.value, op.len)

end HllSparseOp

def decodeSparseOp : Bytes → Option (HllSparseOp × ℕ)
  | [] => none
  | b0 :: rest =>
    if b0 &&& 0x80 ≠ 0 then
      some (.val (((b0 >>> 2) &&& 0x1F) + 1) ((b0 &&& 0x03).toNat + 1), 1)
    else if b0 &&& 0xC0 = 0x40 then
      match rest with
      | [] => none
      | b1 :: _ => some (.xZero (((b0 &&& 0x3F).toNat <<< 8 ||| b1.toNat) + 1), 2)
    else if b0 &&& 0xC0 = 0x00 then some (.zero ((b0 &&& 0x3F).toNat + 1), 1)
    else none

theorem decodeSparseOp_consumed {bytes : Bytes} {op : HllSparseOp} {n : ℕ}
    (h : decodeSparseOp bytes = some (op, n)) : 0 < n ∧ n ≤ bytes.length := by
  cases bytes with
  | nil => cases h
  | cons b0 rest =>
    simp only [decodeSparseOp] at h
    split_ifs at h
    · cases h
      simp
    · cases rest with
      | nil => cases h
      | cons b1 rest =>
        cases h
        simp
    · cases h
      simp

def sparseOps (bytes : Bytes) : List HllSparseOp × Bool :=
  match _h : decodeSparseOp bytes with
  | none => ([], bytes.isEmpty)
  | some (op, consumed) =>
    let rest := sparseOps (bytes.drop consumed)
    (op :: rest.1, rest.2)
termination_by bytes.length
decreasing_by
  have := decodeSparseOp_consumed _h
  rw [List.length_drop]
  omega

def encodeSparseZero (len : ℕ) : Bytes :=
  if len = 0 then []
  else if len > hllSparseZeroMaxLen then
    let chunk := min len hllSparseXzeroMaxLen
    let v := chunk - 1
    ((0x40 : UInt8) ||| UInt8.ofNat (v >>> 8)) :: UInt8.ofNat (v &&& 0xFF) :: encodeSparseZero (len - chunk)
  else [UInt8.ofNat (len - 1)]
termination_by len
decreasing_by
  simp only [hllSparseXzeroMaxLen]
  omega

def encodeSparseVal (val : UInt8) (len : ℕ) : Bytes :=
  if len = 0 then []
  else
    let chunk := min len hllSparseValMaxLen
    ((0x80 : UInt8) ||| (((val - 1) &&& 0x1F) <<< 2) ||| (UInt8.ofNat (chunk - 1) &&& 0x03)) ::
      encodeSparseVal val (len - chunk)
termination_by len
decreasing_by
  simp only [hllSparseValMaxLen]
  omega

def hllSparseNew : Bytes := encodeSparseZero hllRegisters

def totalRegs (ops : List HllSparseOp) : ℕ := (ops.map HllSparseOp.len).sum

def hllSparseIsValid (sparse : Bytes) : Bool :=
  (sparseOps sparse).2 && totalRegs (sparseOps sparse).1 == hllRegisters

def hllSparseRegHisto (sparse : Bytes) (reghisto : ℕ → ℕ) : Except Error (ℕ → ℕ) :=
  let (ops, clean) := sparseOps sparse
  let reghisto := ops.foldl (fun h op => if op.value < 64 then bump h op.value.toNat op.len else h)
    reghisto
  if !clean then .error (.invalidData "invalid sparse hll opcode")
  else if totalRegs ops ≠ hllRegisters then
    .error (.invalidData s!"invalid sparse hll register count: expected {hllRegisters}, got {
      totalRegs ops}")
  else .ok reghisto

def fillRun (dense : Bytes) (start stop : ℕ) (val : UInt8) : Bytes :=
  (List.range' start (stop - start)).foldl (fun d i => hllDenseSetRegister d i val) dense

def raiseRun (dense : Bytes) (start stop : ℕ) (val : UInt8) : Bytes :=
  (List.range' start (stop - start)).foldl
    (fun d i => if val > hllDenseGetRegister d i then hllDenseSetRegister d i val else d) dense

def writeOps (write : Bytes → ℕ → ℕ → UInt8 → Bytes) :
    List HllSparseOp → ℕ → Bytes → Bytes
  | [], _, dense => dense
  | op :: ops, regIdx, dense =>
    writeOps write ops (regIdx + op.len)
      (if op.value > 0 then write dense regIdx (min (regIdx + op.len) hllRegisters) op.value
      else dense)

def hllSparseToDense (sparse dense : Bytes) : Except Error Bytes :=
  if dense.length < hllDenseSize then .error (.invalidData "dense buffer too small")
  else
    let (ops, clean) := sparseOps sparse
    let dense := List.replicate hllDenseSize 0 ++ dense.drop hllDenseSize
    if !clean then .error (.invalidData "invalid sparse opcode")
    else if totalRegs ops ≠ hllRegisters then
      .error (.invalidData s!"sparse total registers mismatch: expected {hllRegisters}, got {
        totalRegs ops}")
    else .ok (writeOps fillRun ops 0 dense)

def hllMergeSparseIntoDense (dest sparse : Bytes) : Bytes :=
  if dest.length < hllDenseSize ∨ sparse.isEmpty then dest
  else writeOps raiseRun (sparseOps sparse).1 0 dest

def denseRunLen (dense : Bytes) (v : UInt8) (i len : ℕ) : ℕ :=
  if i + len < hllRegisters ∧ hllDenseGetRegister dense (i + len) = v then
    denseRunLen dense v i (len + 1)
  else len
termination_by hllRegisters - (i + len)

theorem le_denseRunLen (dense : Bytes) (v : UInt8) (i len : ℕ) : len ≤ denseRunLen dense v i len := by
  induction len using denseRunLen.induct dense v i with
  | case1 len h ih =>
    rw [denseRunLen, if_pos h]
    omega
  | case2 len h => rw [denseRunLen, if_neg h]

def encodeRun (v : UInt8) (len : ℕ) : Bytes :=
  if v = 0 then encodeSparseZero len else encodeSparseVal v len

def denseToSparseLoop (dense : Bytes) (i : ℕ) (sparse : Bytes) : Option Bytes :=
  if i < hllRegisters then
    let v := hllDenseGetRegister dense i
    if v > hllSparseValMaxValue then none
    else
      let len := denseRunLen dense v i 1
      let sparse := sparse ++ encodeRun v len
      if sparse.length > hllSparseMaxBytes then none else denseToSparseLoop dense (i + len) sparse
  else some sparse
termination_by hllRegisters - i
decreasing_by
  have := le_denseRunLen dense (hllDenseGetRegister dense i) i 1
  omega

def hllDenseToSparse (dense : Bytes) : Option Bytes := denseToSparseLoop dense 0 []

def locateOp (index : ℕ) :
    List HllSparseOp → ℕ → Option (List HllSparseOp × ℕ × HllSparseOp × List HllSparseOp)
  | [], _ => none
  | op :: ops, curReg =>
    if index < curReg + op.len then some ([], curReg, op, ops)
    else (locateOp index ops (curReg + op.len)).map fun x => (op :: x.1, x.2)

def scanError (clean : Bool) : Error :=
  if clean then .invalidData "sparse register index not found"
  else .invalidData "invalid sparse opcode"

def hllSparseGetRegister (sparse : Bytes) (index : ℕ) : Except Error UInt8 :=
  if index ≥ hllRegisters then .error (.invalidData "register index out of range")
  else
    let (ops, clean) := sparseOps sparse
    match locateOp index ops 0 with
    | some (_, _, op, _) => .ok op.value
    | none => .error (scanError clean)

/-- The run not yet written, and the bytes of the runs before it. -/
structure SparseWriter where
  lastVal : UInt8 := 0
  lastLen : ℕ := 0
  out : Bytes := []

namespace SparseWriter

def emitRun (v : UInt8) (len : ℕ) (out : Bytes) : Bytes := if len = 0 then out else out ++ encodeRun v len

def pushRun (w : SparseWriter) (v : UInt8) (l : ℕ) : SparseWriter :=
  if l = 0 then w
  else if w.lastLen = 0 then { w with lastVal := v, lastLen := l }
  else if w.lastVal = v then { w with lastLen := w.lastLen + l }
  else ⟨v, l, emitRun w.lastVal w.lastLen w.out⟩

def pushOps (w : SparseWriter) (ops : List HllSparseOp) : SparseWriter :=
  ops.foldl (fun w op => w.pushRun op.value op.len) w

def flush (w : SparseWriter) : Bytes := emitRun w.lastVal w.lastLen w.out

end SparseWriter

def hllSparseSetRegister (sparse : Bytes) (index : ℕ) (val : UInt8) : Except Error (Bool × Bytes) :=
  if index ≥ hllRegisters then .error (.invalidData "register index out of range")
  else if val > hllSparseValMaxValue then
    .error (.invalidData "sparse value exceeds 32, promotion required")
  else
    let (ops, clean) := sparseOps sparse
    match locateOp index ops 0 with
    | none => .error (scanError clean)
    | some (pre, curReg, op, post) =>
      if val ≤ op.value then .ok (false, sparse)
      else
        let regEnd := curReg + op.len
        let w := SparseWriter.pushOps {} pre
        let w := if index > curReg then w.pushRun op.value (index - curReg) else w
        let w := w.pushRun val 1
        let w := if regEnd > index + 1 then w.pushRun op.value (regEnd - (index + 1)) else w
        let w := w.pushOps post
        let newSparse := w.flush
        if !clean then .error (.invalidData "invalid sparse opcode")
        else if totalRegs ops ≠ hllRegisters then
          .error (.invalidData s!"sparse total registers mismatch: expected {hllRegisters}, got {
            totalRegs ops}")
        else if newSparse.length > hllSparseMaxBytes then
          .error (.invalidData "sparse bytes exceeded limit, promotion required")
        else .ok (true, newSparse)

end Wedb
