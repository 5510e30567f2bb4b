import Wedb.Ordered.Float64

/-!
# JSON values

A value as the parser gives it. An object keeps its pairs in the order in which they
are walked, and a key may occur more than once.
-/

namespace Wedb

/-- The characters of a string. -/
abbrev Text := List Char

inductive JsonNumber
  | unsigned (n : UInt64)
  | signed (n : Int64)
  | float (x : F64)
  deriving DecidableEq, Repr

inductive Json
  | null
  | bool (b : Bool)
  | number (n : JsonNumber)
  | string (s : Text)
  | array (xs : List Json)
  | object (pairs : List (Text × Json))

namespace Json

def asStr : Json → Option Text
  | string s => some s
  | _ => none

def asArray : Json → Option (List Json)
  | array xs => some xs
  | _ => none

def asObject : Json → Option (List (Text × Json))
  | object pairs => some pairs
  | _ => none

def asNumber : Json → Option JsonNumber
  | number n => some n
  | _ => none

end Json

end Wedb
