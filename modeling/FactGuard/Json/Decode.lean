import FactGuard.Json.Reader
import FactGuard.Bindings

/-!
# Reading values out of documents

Decoders for the shapes that documents give to data. A record is an object with named fields, or an
array of its fields in order, whose last fields may be left out where they have a default. A variant
is an object with one key, the name of the variant, and its data as the value; a variant without
data may also be the bare name.
-/

namespace FactGuard.Json

/-- Why a document gives no value. -/
inductive Fault where
  /-- The text is not a document. -/
  | malformed
  /-- The document has not the shape of what is wanted. -/
  | unfit (wanted : String)
deriving DecidableEq, Repr

/-- The text of a fault. -/
def Fault.message : Fault → String
  | .malformed => "not a JSON document"
  | .unfit wanted => s!"expected {wanted}"

/-- Read a value out of a document. -/
abbrev Decoder (α : Type) := Json → Except Fault α

/-- The document that a text writes. -/
def parse (text : String) : Except Fault Json :=
  match ofText? text with
  | some value => .ok value
  | none => .error .malformed

/-- A string. -/
def text : Decoder String
  | .string (some text) => .ok text
  | _ => .error (.unfit "a string")

/-- A truth value. -/
def boolean : Decoder Bool
  | .bool value => .ok value
  | _ => .error (.unfit "true or false")

/-- An integer of at most `bits` bits, without sign. -/
def unsigned (bits : Nat) : Decoder Nat
  | .int value =>
    if 0 ≤ value ∧ value < 2 ^ bits then .ok value.toNat else .error (.unfit "an unsigned integer")
  | _ => .error (.unfit "an unsigned integer")

/-- An integer of 64 bits, with sign. -/
def signed : Decoder Int
  | .int value =>
    if -2 ^ 63 ≤ value ∧ value < 2 ^ 63 then .ok value else .error (.unfit "a signed integer")
  | _ => .error (.unfit "a signed integer")

/-- The float next to an integer of 64 bits, with or without sign. -/
def floatOfInt (value : Int) : Float :=
  if 0 ≤ value then (UInt64.ofNat value.toNat).toFloat else (Int64.ofInt value).toFloat

/-- A finite float; an integer stands for the float next to it. -/
def number : Decoder Float
  | .int value => .ok (floatOfInt value)
  | .float value => if value.isFinite then .ok value else .error (.unfit "a number in range")
  | _ => .error (.unfit "a number")

/-- The value, or `null` for none. -/
def optional {α : Type} (decode : Decoder α) : Decoder (Option α)
  | .null => .ok none
  | value => (decode value).map some

/-- An array of values of one kind. -/
def listOf {α : Type} (decode : Decoder α) : Decoder (List α)
  | .array items => items.mapM decode
  | _ => .error (.unfit "an array")

/-- An array of two values. -/
def pairOf {α β : Type} (first : Decoder α) (second : Decoder β) : Decoder (α × β)
  | .array [a, b] => do return (← first a, ← second b)
  | _ => .error (.unfit "an array of two")

/-- The name of a variant, and its data if it is given any. -/
def variant : Decoder (String × Option Json)
  | .string (some name) => .ok (name, none)
  | .object [(some name, data)] => .ok (name, some data)
  | _ => .error (.unfit "a variant")

/-- A variant without data, whose data may be written as `null`. -/
def plainVariant : Decoder String := fun value => do
  match ← variant value with
  | (name, none) => return name
  | (name, some .null) => return name
  | _ => throw (.unfit "a variant without data")

/-- The members of an object that a record names, each at most once. Others are passed over, unless
the record is closed. -/
def namedMembers (names : List String) (isClosed : Bool) :
    List (Option String × Json) → Bindings Json → Except Fault (Bindings Json)
  | [], found => .ok found
  | (none, _) :: _, _ => .error (.unfit "a readable key")
  | (some key, value) :: rest, found =>
    if names.contains key then
      if (found.get? key).isSome then .error (.unfit "each key once")
      else namedMembers names isClosed rest (found ++ [(key, value)])
    else if isClosed then .error (.unfit "known keys only")
    else namedMembers names isClosed rest found

/-- The fields of a record with the given names. -/
def fieldsOf (isClosed : Bool) (names : List String) : Decoder (Bindings Json)
  | .array items =>
    if items.length ≤ names.length then .ok (names.zip items)
    else .error (.unfit s!"at most {names.length} fields")
  | .object members => namedMembers names isClosed members []
  | _ => .error (.unfit "a record")

/-- The fields of a record; keys of an object that name no field are passed over. -/
def record (names : List String) : Decoder (Bindings Json) := fieldsOf false names

/-- The fields of a record; every key of an object must name a field. -/
def closedRecord (names : List String) : Decoder (Bindings Json) := fieldsOf true names

/-- A field that must be given. -/
def required {α : Type} (fields : Bindings Json) (name : String) (decode : Decoder α) :
    Except Fault α :=
  match fields.get? name with
  | some value => decode value
  | none => .error (.unfit s!"field {name}")

/-- A field that has the value `default` if it is not given. -/
def defaulted {α : Type} (fields : Bindings Json) (name : String) (default : α)
    (decode : Decoder α) : Except Fault α :=
  match fields.get? name with
  | some value => decode value
  | none => .ok default

/-- How many arrays and objects may enclose a value that is read before its shape is known. -/
def depthLimit : Nat := 127

/-- Check a value whose shape is tried in several ways, inside `outer` arrays and objects: it is
read as a whole first, so all of it has to be exact and within the depth limit. -/
def untagged (outer : Nat) (value : Json) : Except Fault Unit :=
  if value.isExact ∧ outer + value.depth ≤ depthLimit then .ok ()
  else .error (.unfit "exact values within the depth limit")

end FactGuard.Json
