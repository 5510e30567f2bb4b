import Mathlib.Tactic
import Mathlib.Algebra.Order.Field.Basic

/-!
# Reducers of sample values

Buckets of one series and groups of several are reduced by the same functions: counts,
ends, sums, extremes, means and variances. The operations on values are a parameter, so
that the reducers can be read over machine numbers and over a field.
-/

section

universe u

namespace Wedb

inductive GroupReducerType
  | sum
  | min
  | max
  | avg
  | count
  | range
  | first
  | last
  | stdP
  | stdS
  | varP
  | varS
  | twa
  | none
  deriving DecidableEq, Repr

namespace GroupReducerType

def asStr : GroupReducerType → String
  | sum => "sum"
  | min => "min"
  | max => "max"
  | avg => "avg"
  | count => "count"
  | range => "range"
  | first => "first"
  | last => "last"
  | stdP => "std.p"
  | stdS => "std.s"
  | varP => "var.p"
  | varS => "var.s"
  | twa => "twa"
  | none => "none"

end GroupReducerType

inductive AggregationType
  | avg
  | first
  | last
  | min
  | max
  | sum
  | count
  | stdP
  | stdS
  | varP
  | varS
  | range
  | twa
  deriving DecidableEq, Repr

/-- The operations on values; `sumInit` is what the sum of an iterator starts from. -/
structure Arith (α : Type u) where
  zero : α
  sumInit : α
  infinity : α
  negInfinity : α
  ofNat : ℕ → α
  add : α → α → α
  sub : α → α → α
  mul : α → α → α
  div : α → α → α
  min : α → α → α
  max : α → α → α
  sqrt : α → α

namespace Reducer

variable {α : Type u} (A : Arith α)

def sum (values : List α) : α := values.foldl A.add A.sumInit

def extremes (values : List α) : α × α :=
  values.foldl (fun m v => (A.min m.1 v, A.max m.2 v)) (A.infinity, A.negInfinity)

/-- One value of Welford's pass: how many values came before, their mean, and the sum of the
squares of their distances from it. -/
def welfordStep (state : ℕ × α × α) (val : α) : ℕ × α × α :=
  let k := A.ofNat (state.1 + 1)
  let delta := A.sub val state.2.1
  let mean := A.add state.2.1 (A.div delta k)
  let delta2 := A.sub val mean
  (state.1 + 1, mean, A.add state.2.2 (A.mul delta delta2))

def computeWelfordVar (values : List α) (count : ℕ) : α × α :=
  if count = 0 then (A.zero, A.zero)
  else
    let n := A.ofNat count
    let m2 := (values.foldl (welfordStep A) (0, A.zero, A.zero)).2.2
    let varP := A.max (A.div m2 n) A.zero
    let varS := if count ≤ 1 then A.zero else A.max (A.div m2 (A.sub n (A.ofNat 1))) A.zero
    (varP, varS)

def reduceF64 (values : List α) (reducer : GroupReducerType) : α :=
  if values.isEmpty || reducer == .none then A.zero
  else
    match reducer with
    | .count => A.ofNat values.length
    | .first => values.head?.getD A.zero
    | .last => values.getLast?.getD A.zero
    | .sum => sum A values
    | .min => values.foldl A.min A.infinity
    | .max => values.foldl A.max A.negInfinity
    | .avg | .twa => A.div (sum A values) (A.ofNat values.length)
    | .range =>
      let (minV, maxV) := extremes A values
      A.sub maxV minV
    | .varP => (computeWelfordVar A values values.length).1
    | .stdP => A.sqrt (computeWelfordVar A values values.length).1
    | .varS => (computeWelfordVar A values values.length).2
    | .stdS => A.sqrt (computeWelfordVar A values values.length).2
    | .none => A.zero

def reduceSamples (samples : List (UInt64 × α)) (aggType : AggregationType) : α :=
  if samples.isEmpty then A.zero
  else
    match aggType with
    | .count => A.ofNat samples.length
    | .first => (samples.head?.map Prod.snd).getD A.zero
    | .last => (samples.getLast?.map Prod.snd).getD A.zero
    | .sum => sum A (samples.map Prod.snd)
    | .min => (samples.map Prod.snd).foldl A.min A.infinity
    | .max => (samples.map Prod.snd).foldl A.max A.negInfinity
    | .avg | .twa => A.div (sum A (samples.map Prod.snd)) (A.ofNat samples.length)
    | .range =>
      let (minV, maxV) := extremes A (samples.map Prod.snd)
      A.sub maxV minV
    | .varP => (computeWelfordVar A (samples.map Prod.snd) samples.length).1
    | .stdP => A.sqrt (computeWelfordVar A (samples.map Prod.snd) samples.length).1
    | .varS => (computeWelfordVar A (samples.map Prod.snd) samples.length).2
    | .stdS => A.sqrt (computeWelfordVar A (samples.map Prod.snd) samples.length).2

end Reducer

end Wedb

end

/-!
## Reducers over a field

Exact arithmetic on values: the numbers of an ordered field with the two infinities that
the extremes start from.
-/

section

universe u

namespace Wedb

inductive Extended (K : Type u)
  | negInf
  | fin (v : K)
  | posInf
  deriving DecidableEq, Repr

namespace Extended

variable {K : Type u}

def lift (f : K → K → K) : Extended K → Extended K → Extended K
  | fin x, fin y => fin (f x y)
  | _, _ => posInf

def min [LinearOrder K] : Extended K → Extended K → Extended K
  | negInf, _ => negInf
  | _, negInf => negInf
  | posInf, y => y
  | x, posInf => x
  | fin x, fin y => fin (Min.min x y)

def max [LinearOrder K] : Extended K → Extended K → Extended K
  | posInf, _ => posInf
  | _, posInf => posInf
  | negInf, y => y
  | x, negInf => x
  | fin x, fin y => fin (Max.max x y)

def arith [Field K] [LinearOrder K] (sqrt : K → K) : Arith (Extended K) where
  zero := fin 0
  sumInit := fin 0
  infinity := posInf
  negInfinity := negInf
  ofNat n := fin n
  add := lift (· + ·)
  sub := lift (· - ·)
  mul := lift (· * ·)
  div := lift (· / ·)
  min := min
  max := max
  sqrt x := match x with
    | fin v => fin (sqrt v)
    | x => x

end Extended

end Wedb

end
