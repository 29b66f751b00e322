import FactGuard.ValueRange.Basic
import FactGuard.Json.Decode

/-!
# Ranges as documents

A range is an object with its width and either its bounds or, for the full and the empty set, the
name of the set. A document that has both counts by the name, if the name is one of the two.
-/

namespace FactGuard

/-- The sets that are written by name. -/
inductive NamedSet where
  | full
  | empty
deriving DecidableEq, Repr

namespace NamedSet

/-- The name of the set. -/
def name : NamedSet → String
  | full => "full"
  | empty => "empty"

/-- The set as a range. -/
def range (set : NamedSet) (width : Nat) : ValueRange :=
  match set with
  | full => ValueRange.full width
  | empty => ValueRange.empty width

/-- The set that a document names. -/
def decode : Json.Decoder NamedSet := fun value => do
  let name ← Json.plainVariant value
  if name = full.name then return full
  else if name = empty.name then return empty
  else throw (.unfit "full or empty")

end NamedSet

namespace ValueRange

/-- The document of a range. -/
def encode (r : ValueRange) : Json :=
  if r.isFull then .obj [("width", .nat r.width), ("set", .str NamedSet.full.name)]
  else if r.isEmpty then .obj [("width", .nat r.width), ("set", .str NamedSet.empty.name)]
  else .obj [("width", .nat r.width), ("lower", .nat r.lower), ("upper", .nat r.upper)]

/-- A width and a named set. -/
def decodeNamed (members : List (Option String × Json)) : Except Json.Fault (Nat × NamedSet) := do
  let fields ← Json.namedMembers ["width", "set"] false members []
  return (← Json.required fields "width" (Json.unsigned 32),
    ← Json.required fields "set" NamedSet.decode)

/-- A width and two bounds. -/
def decodeBounds (members : List (Option String × Json)) :
    Except Json.Fault (Nat × Nat × Nat) := do
  let fields ← Json.namedMembers ["width", "lower", "upper"] false members []
  return (← Json.required fields "width" (Json.unsigned 32),
    ← Json.required fields "lower" (Json.unsigned 64),
    ← Json.required fields "upper" (Json.unsigned 64))

/-- What a document must be if it is read as a range and fails. -/
def fault : Json.Fault := .unfit "a range"

/-- The range of a document. -/
def decode : Json.Decoder ValueRange := fun value => do
  Json.untagged 0 value
  match value with
  | .object members =>
    match decodeNamed members with
    | .ok (width, set) =>
      match checkWidth width with
      | .ok () => return set.range width
      | .error _ => throw fault
    | .error _ =>
      let (width, lower, upper) ← decodeBounds members
      match ofBounds width lower upper with
      | .ok range => return range
      | .error _ => throw fault
  | _ => throw fault

end ValueRange

end FactGuard
