/-!
# JSON documents

A document as a tree. Members stand in the order of the text and may repeat a key. A string literal
may escape half of a surrogate pair; such a literal is well-formed but stands for no text, and is
kept as `none`. A number literal is an integer if it has neither point nor exponent and fits into 64
bits, signed or unsigned, and is not `-0`; all others are floats, infinite if they are too great.
-/

namespace FactGuard

/-- A JSON document. -/
inductive Json where
  | null
  | bool (value : Bool)
  | int (value : Int)
  | float (value : Float)
  | string (text : Option String)
  | array (items : List Json)
  | object (members : List (Option String × Json))
deriving Inhabited

namespace Json

/-- The string literal of a text. -/
def str (text : String) : Json := .string (some text)

/-- An object with the given keys. -/
def obj (members : List (String × Json)) : Json := .object (members.map fun m => (some m.1, m.2))

/-- A number without sign. -/
def nat (n : Nat) : Json := .int n

/-- A value that may be missing. -/
def ofOption (value? : Option Json) : Json := value?.getD .null

mutual

/-- How many arrays and objects enclose the innermost value, the outermost one included. -/
def depth : Json → Nat
  | .array items => depthItems items + 1
  | .object members => depthMembers members + 1
  | _ => 0

/-- The greatest depth among the items of an array. -/
def depthItems : List Json → Nat
  | [] => 0
  | item :: rest => max item.depth (depthItems rest)

/-- The greatest depth among the members of an object. -/
def depthMembers : List (Option String × Json) → Nat
  | [] => 0
  | (_, value) :: rest => max value.depth (depthMembers rest)

end

mutual

/-- Every number is finite and every string stands for a text. -/
def isExact : Json → Bool
  | .float value => value.isFinite
  | .string text => text.isSome
  | .array items => exactItems items
  | .object members => exactMembers members
  | _ => true

/-- Every item of an array is exact. -/
def exactItems : List Json → Bool
  | [] => true
  | item :: rest => item.isExact && exactItems rest

/-- Every key and value of an object is exact. -/
def exactMembers : List (Option String × Json) → Bool
  | [] => true
  | (key, value) :: rest => key.isSome && value.isExact && exactMembers rest

end

end Json

end FactGuard
