import Wedb.TDigest.State
import Wedb.Ordered.Scatter
import Wedb.Ordered.Saturating
import Mathlib.Algebra.Order.Floor.Ring

/-!
# Order statistics

Ranks are sorted and answered in one pass over the running weights, and a trimmed mean
clips the weight of each centroid at both ends. Both are read against the list in which
every mean stands as often as its weight says.
-/

namespace Wedb

def f64AsI64 (x : ℚ) : ℤ :=
  max (-2 ^ 63) (min (if 0 ≤ x then ⌊x⌋ else ⌈x⌉) (2 ^ 63 - 1))

namespace TDigestState

section

variable (scaler : Scaler) (tol : Tolerance)

end

end TDigestState

section

variable (scaler : Scaler) (tol : Tolerance)

end

/-! ## The pass over sorted ranks -/

theorem weightSum_reverse (cs : List Centroid) : weightSum cs.reverse = weightSum cs := by
  rw [weightSum, weightSum, List.map_reverse, List.sum_reverse]

def expand (cs : List Centroid) : List ℚ := cs.flatMap fun c => List.replicate ⌊c.weight⌋₊ c.mean

def WholeWeights (cs : List Centroid) : Prop := ∀ c ∈ cs, ∃ n : ℕ, 0 < n ∧ c.weight = n

theorem expand_cons {c : Centroid} {n : ℕ} (h : c.weight = n) (cs : List Centroid) :
    expand (c :: cs) = List.replicate n c.mean ++ expand cs := by
  rw [expand, List.flatMap_cons, h, Nat.floor_natCast]
  rfl

theorem WholeWeights.tail {c : Centroid} {cs : List Centroid} (h : WholeWeights (c :: cs)) :
    WholeWeights cs := fun d hd => h d (List.mem_cons_of_mem c hd)

theorem WholeWeights.reverse {cs : List Centroid} (h : WholeWeights cs) : WholeWeights cs.reverse :=
  fun c hc => h c (List.mem_reverse.mp hc)

section

variable {left right : ℕ}

end

/-! ## Digests -/

def window (L : List ℚ) (low high : ℚ) : List ℚ :=
  (L.take ⌈high * L.length⌉₊).drop ⌊low * L.length⌋₊

def mean (L : List ℚ) : ℚ := L.sum / L.length

namespace TDigestState

variable {scaler : Scaler} {tol : Tolerance} {td : TDigestState}

def elements (td : TDigestState) : List ℚ := expand td.centroids

end TDigestState

end Wedb
