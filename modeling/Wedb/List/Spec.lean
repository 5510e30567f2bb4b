import Wedb.List.Mutate

/-!
# Lists as sequences

What the list commands are for: every key has a finite sequence of byte strings,
and a key with the empty sequence is absent. The definitions are on sequences
alone and know nothing of indices in a store.
-/

namespace Wedb

namespace Seq

def resolve (len : ℕ) (index : ℤ) : Option ℕ :=
  let i := if index < 0 then len + index else index
  if 0 ≤ i ∧ i < len then some i.toNat else none

/-- The first and the last position between two indices; the last may be the smaller. -/
def first (len : ℕ) (start : ℤ) : ℤ := if start < 0 then max 0 (len + start) else start

def last (len : ℕ) (stop : ℤ) : ℤ := min (if stop < 0 then len + stop else stop) (len - 1)

def slice (start stop : ℤ) (xs : List Bytes) : List Bytes :=
  let b := first xs.length start
  (xs.drop b.toNat).take (last xs.length stop - b + 1).toNat

def push (left : Bool) (values xs : List Bytes) : List Bytes :=
  if left then values.reverse ++ xs else xs ++ values

def pop (left : Bool) (n : ℕ) (xs : List Bytes) : List Bytes × List Bytes :=
  if left then (xs.take n, xs.drop n)
  else ((xs.drop (xs.length - n)).reverse, xs.take (xs.length - n))

def insertAt (i : ℕ) (elem : Bytes) (xs : List Bytes) : List Bytes :=
  xs.take i ++ elem :: xs.drop i

def insertPosition (before : Bool) (pivot : Bytes) (xs : List Bytes) : Option ℕ :=
  ((enumerate xs).find? fun x => x.2 = pivot).map fun x => if before then x.1 else x.1 + 1

def searchLimit (maxLen : Option ℕ) (n : ℕ) : ℕ :=
  match maxLen with
  | some l => if l = 0 then n else min l n
  | none => n

def visited (rank : ℤ) (limit : ℕ) (xs : List Bytes) : List (ℕ × Bytes) :=
  if rank < 0 then (enumerate xs).reverse.take limit else (enumerate xs).take limit

def matchOffsets (elem : Bytes) (visited : List (ℕ × Bytes)) : List ℕ :=
  (visited.filter fun x => x.2 = elem).map Prod.fst

def removed (count : ℤ) (elem : Bytes) (xs : List Bytes) : List ℕ :=
  let found := matchOffsets elem (enumerate xs)
  if count = 0 then found
  else if count > 0 then found.take count.natAbs else found.drop (found.length - count.natAbs)

def without (offsets : List ℕ) (xs : List Bytes) : List Bytes :=
  ((enumerate xs).filter fun x => x.1 ∉ offsets).map Prod.snd

def remove (count : ℤ) (elem : Bytes) (xs : List Bytes) : List Bytes :=
  without (removed count elem xs) xs

def positions (elem : Bytes) (rank : ℤ) (count maxLen : Option ℕ) (xs : List Bytes) : List ℕ :=
  let found := (matchOffsets elem
    (visited rank (searchLimit maxLen xs.length) xs)).drop (rank.natAbs - 1)
  match count with
  | some c => if c = 0 then found else found.take c
  | none => found.take 1

end Seq

inductive ListCommand
  | push (left create : Bool) (values : List Bytes)
  | popOne (left : Bool)
  | pop (left : Bool) (count : UInt64)
  | llen
  | lrange (start stop : Int64)
  | lindex (index : Int64)
  | lset (index : Int64) (value : Bytes)
  | ltrim (start stop : Int64)
  | linsert (before : Bool) (pivot elem : Bytes)
  | lrem (count : Int64) (elem : Bytes)
  | lpos (elem : Bytes) (options : List LPos)
  | lmove (dst : Key) (srcLeft dstLeft : Bool)
  | lmpop (keys : List Key) (left : Bool) (count : UInt64)

/-- A command with its key, the clock it reads and the version it would generate. -/
structure ListCall where
  kc : KeyComposer
  key : Key
  nowMs : UInt64
  version : UInt64
  command : ListCommand

inductive ListReply
  | unit
  | number (n : ℤ)
  | value (v : Option Bytes)
  | values (vs : List Bytes)
  | popped (x : Option (Key × List Bytes))
  | positions (ps : List ℤ)
  deriving DecidableEq

/-- The sequence of every key of every database. -/
abbrev ListState := KeyComposer × Key → List Bytes

namespace ListCall

def specPop (kc : KeyComposer) (left : Bool) (count : ℕ) :
    ListState → List Key → Option (Key × List Bytes) × ListState
  | σ, [] => (none, σ)
  | σ, key :: keys =>
    let (popped, rest) := Seq.pop left count (σ (kc, key))
    if popped.isEmpty then specPop kc left count σ keys
    else (some (key, popped), Function.update σ (kc, key) rest)

def spec (σ : ListState) (c : ListCall) : Except Error (ListReply × ListState) :=
  let slot := (c.kc, c.key)
  let xs := σ slot
  match c.command with
  | .push left create values =>
    if values = [] ∨ create = false ∧ xs = [] then .ok (.number 0, σ)
    else
      let ys := Seq.push left values xs
      .ok (.number ys.length, Function.update σ slot ys)
  | .popOne left =>
    let (popped, rest) := Seq.pop left 1 xs
    .ok (.value popped.head?, Function.update σ slot rest)
  | .pop left count =>
    let (popped, rest) := Seq.pop left count.toNat xs
    .ok (.values popped, Function.update σ slot rest)
  | .llen => .ok (.number xs.length, σ)
  | .lrange start stop => .ok (.values (Seq.slice start.toInt stop.toInt xs), σ)
  | .lindex index =>
    .ok (.value ((Seq.resolve xs.length index.toInt).bind fun i => xs[i]?), σ)
  | .lset index value =>
    match Seq.resolve xs.length index.toInt with
    | some i => .ok (.unit, Function.update σ slot (xs.set i value))
    | none => .error (.invalidData errIndexOutOfRange)
  | .ltrim start stop =>
    .ok (.unit, Function.update σ slot (Seq.slice start.toInt stop.toInt xs))
  | .linsert before pivot elem =>
    if xs = [] then .ok (.number 0, σ)
    else
      match Seq.insertPosition before pivot xs with
      | some i =>
        let ys := Seq.insertAt i elem xs
        .ok (.number ys.length, Function.update σ slot ys)
      | none => .ok (.number (-1), σ)
  | .lrem count elem =>
    let ys := Seq.remove count.toInt elem xs
    .ok (.number (xs.length - ys.length), Function.update σ slot ys)
  | .lpos elem options =>
    let (rank, count, maxLen) := lposOptions options
    if rank = 0 then .error (.invalidData errRankZero)
    else
      .ok (.positions ((Seq.positions elem rank.toInt (count.map UInt64.toNat)
        (maxLen.map UInt64.toNat) xs).map Int.ofNat), σ)
  | .lmove dst srcLeft dstLeft =>
    let (popped, rest) := Seq.pop srcLeft 1 xs
    match popped with
    | [] => .ok (.value none, σ)
    | elem :: _ =>
      let σ := Function.update σ slot rest
      .ok (.value (some elem),
        Function.update σ (c.kc, dst) (Seq.push dstLeft [elem] (σ (c.kc, dst))))
  | .lmpop keys left count =>
    let (popped, σ) := specPop c.kc left count.toNat σ keys
    .ok (.popped popped, σ)

def plan (s : Store) (c : ListCall) : Except Error (ListReply × Batch) :=
  match c.command with
  | .push left create values =>
    (listPushInternal s c.kc c.key c.nowMs c.version values create left).map
      fun x => (.number x.1.toNat, x.2)
  | .popOne left =>
    (listPopOneInternal s c.kc c.key c.nowMs left).map fun x => (.value x.1, x.2)
  | .pop left count =>
    (listPopInternal s c.kc c.key c.nowMs count left).map fun x => (.values x.1, x.2)
  | .llen => (Wedb.llen s c.kc c.key c.nowMs).map fun x => (.number x.toNat, [])
  | .lrange start stop =>
    (Wedb.lrange s c.kc c.key c.nowMs start stop).map fun x => (.values x, [])
  | .lindex index => (Wedb.lindex s c.kc c.key c.nowMs index).map fun x => (.value x, [])
  | .lset index value =>
    (Wedb.lset s c.kc c.key c.nowMs index value).map fun x => (.unit, x.2)
  | .ltrim start stop => (Wedb.ltrim s c.kc c.key c.nowMs start stop).map fun x => (.unit, x.2)
  | .linsert before pivot elem =>
    (Wedb.linsert s c.kc c.key c.nowMs before pivot elem).map fun x => (.number x.1, x.2)
  | .lrem count elem =>
    (Wedb.lrem s c.kc c.key c.nowMs count elem).map fun x => (.number x.1.toNat, x.2)
  | .lpos elem options =>
    (Wedb.lpos s c.kc c.key c.nowMs elem options).map fun x => (.positions x, [])
  | .lmove dst srcLeft dstLeft =>
    (Wedb.lmove s c.kc c.key c.nowMs c.version dst srcLeft dstLeft).map
      fun x => (.value x.1, x.2)
  | .lmpop keys left count =>
    (Wedb.lmpop s c.kc c.nowMs keys left count).map fun x => (.popped x.1, x.2)

end ListCall

end Wedb
