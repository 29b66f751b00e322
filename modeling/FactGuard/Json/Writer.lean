import FactGuard.Json.Basic
import FactGuard.Decimal.Layout

/-!
# Writing documents

Two text forms of a document: `compact` without blanks, and `pretty` with one item or member on a
line and two blanks of indent for each level. Strings escape the quote, the backslash and control
characters, and nothing else.
-/

namespace FactGuard.Json

/-- Floats have a point or an exponent: positional from `0.00001` below `1e16`, `1e+16` and `1e-6`
outside, ties to the even digit. What is not finite has no number and is written `null`. -/
def floatLayout : Decimal.Layout where
  tie := .even
  positional := fun point => decide (-5 < point) && decide (point ≤ 16)
  afterWhole := ".0"
  notNumber := "null"
  infinite := "null"
  negativeInfinite := "null"

/-- A lower-case hexadecimal digit. -/
def hexChar (n : Nat) : Char := Nat.digitChar n

/-- A character inside a string literal. -/
def escapeChar (c : Char) : List Char :=
  match c with
  | '"' => ['\\', '"']
  | '\\' => ['\\', '\\']
  | '\x08' => ['\\', 'b']
  | '\x0c' => ['\\', 'f']
  | '\n' => ['\\', 'n']
  | '\r' => ['\\', 'r']
  | '\t' => ['\\', 't']
  | c =>
    if c.toNat < 0x20 then
      ['\\', 'u', '0', '0', hexChar (c.toNat / 16), hexChar (c.toNat % 16)]
    else [c]

/-- A string literal. Text that does not exist is half a surrogate pair. -/
def stringChars : Option String → List Char
  | some text => '"' :: text.toList.flatMap escapeChar ++ ['"']
  | none => "\"\\ud800\"".toList

/-- A value without parts. -/
def atomChars : Json → List Char
  | .bool true => "true".toList
  | .bool false => "false".toList
  | .int value => (toString value).toList
  | .float value => (floatLayout.text value).toList
  | .string text => stringChars text
  | _ => "null".toList

mutual

/-- The document without blanks. -/
def compactChars : Json → List Char
  | .array [] => ['[', ']']
  | .array (item :: rest) => '[' :: compactChars item ++ compactItems rest
  | .object [] => ['\x7b', '\x7d']
  | .object ((key, value) :: rest) =>
    '\x7b' :: stringChars key ++ ':' :: compactChars value ++ compactMembers rest
  | value => atomChars value

/-- The items after the first, and the end of the array. -/
def compactItems : List Json → List Char
  | [] => [']']
  | item :: rest => ',' :: compactChars item ++ compactItems rest

/-- The members after the first, and the end of the object. -/
def compactMembers : List (Option String × Json) → List Char
  | [] => ['\x7d']
  | (key, value) :: rest =>
    ',' :: stringChars key ++ ':' :: compactChars value ++ compactMembers rest

end

/-- The text of a document without blanks. -/
def compact (value : Json) : String := String.ofList (compactChars value)

/-- The start of a line at a level. -/
def lineStart (level : Nat) : List Char := '\n' :: List.replicate (2 * level) ' '

mutual

/-- The document at a level of indent. -/
def prettyChars (level : Nat) : Json → List Char
  | .array [] => ['[', ']']
  | .array (item :: rest) =>
    '[' :: lineStart (level + 1) ++ prettyChars (level + 1) item ++ prettyItems level rest
  | .object [] => ['\x7b', '\x7d']
  | .object ((key, value) :: rest) =>
    '\x7b' :: lineStart (level + 1) ++ stringChars key ++ ':' :: ' '
      :: prettyChars (level + 1) value
      ++ prettyMembers level rest
  | value => atomChars value

/-- The items after the first, and the end of an array that opened at `level`. -/
def prettyItems (level : Nat) : List Json → List Char
  | [] => lineStart level ++ [']']
  | item :: rest =>
    ',' :: lineStart (level + 1) ++ prettyChars (level + 1) item ++ prettyItems level rest

/-- The members after the first, and the end of an object that opened at `level`. -/
def prettyMembers (level : Nat) : List (Option String × Json) → List Char
  | [] => lineStart level ++ ['\x7d']
  | (key, value) :: rest =>
    ',' :: lineStart (level + 1) ++ stringChars key ++ ':' :: ' ' :: prettyChars (level + 1) value
      ++ prettyMembers level rest

end

/-- The text of a document on several lines. -/
def pretty (value : Json) : String := String.ofList (prettyChars 0 value)

end FactGuard.Json
