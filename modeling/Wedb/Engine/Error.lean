/-!
The errors a command returns. The variants that wrap foreign errors are left
out; an engine failure reaches the caller as `engine`.
-/

namespace Wedb

inductive Error
  | engine (msg : String)
  | storage (msg : String)
  | config (msg : String)
  | internal (msg : String)
  | serialization (msg : String)
  | redis (msg : String)
  | wrongType (msg : String)
  | invalidData (msg : String)
  | notFound (msg : String)
  deriving DecidableEq, Repr

def errWrongType : String :=
  "WRONGTYPE Operation against a key holding the wrong kind of value"

def errNoSuchKey : String := "ERR no such key"

def Error.wrongTypeDefault : Error := .wrongType errWrongType

/-! ## Results of runs -/

theorem map_eq_ok {ε α β : Type} {x : Except ε α} {f : α → β} {b : β}
    (h : x.map f = .ok b) : ∃ a, x = .ok a ∧ f a = b := by
  cases x with
  | error err => cases h
  | ok a =>
    cases h
    exact ⟨a, rfl, rfl⟩

theorem bind_eq_ok {ε α β : Type} {x : Except ε α} {f : α → Except ε β} {b : β}
    (h : x.bind f = .ok b) : ∃ a, x = .ok a ∧ f a = .ok b := by
  cases x with
  | error err => cases h
  | ok a => exact ⟨a, rfl, h⟩

theorem exists_ok_of_toOption_map {α β : Type} {x : Except Error α} {f : α → β} {b : β}
    (h : (x.map f).toOption = some b) : ∃ a, x = .ok a ∧ f a = b := by
  cases x with
  | error err => cases h
  | ok a =>
    cases h
    exact ⟨a, rfl, rfl⟩

theorem exists_ok_of_toOption_bind {α β : Type} {x : Except Error α} {f : α → Except Error β}
    {b : β} (h : (x.bind f).toOption = some b) : ∃ a, x = .ok a ∧ (f a).toOption = some b := by
  cases x with
  | error err => cases h
  | ok a => exact ⟨a, rfl, h⟩

end Wedb
