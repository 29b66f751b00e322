import FactGuard.Json.Basic
import FactGuard.Decimal.Reading

/-!
# JSON tokens

The lexer reads a text character by character. Between two characters it stands between tokens,
inside a string literal, inside one of its escapes, or inside a bare word, which is a number or one
of the three names. `Scan.step` makes one step, and `tokens?` is its fold over a text.

A bare word is delimited first and understood afterwards, so two words that touch are one malformed
word. This changes no verdict, since two values never stand side by side in a document.
-/

namespace FactGuard.Json

/-- The smallest parts of a document. -/
inductive Token where
  | openBrace
  | closeBrace
  | openBracket
  | closeBracket
  | colon
  | comma
  /-- A value without parts. -/
  | atom (value : Json)

/-- The text of a string literal as far as it is read: its characters in reverse, `none` once half a
surrogate pair stood alone, and the first half of a pair that waits for its second. -/
structure Literal where
  chars : Option (List Char)
  high : Option Nat

namespace Literal

/-- Nothing read yet. -/
def start : Literal := ⟨some [], none⟩

/-- Append a character. A first half that waits is then alone. -/
def push (s : Literal) (c : Char) : Literal :=
  match s.high with
  | none => ⟨s.chars.map (c :: ·), none⟩
  | some _ => ⟨none, none⟩

/-- Append a code unit that was written as an escape. -/
def pushUnit (s : Literal) (unit : Nat) : Literal :=
  let isLow := decide (0xDC00 ≤ unit) && decide (unit ≤ 0xDFFF)
  match s.high with
  | some high =>
    if isLow then
      ⟨s.chars.map (Char.ofNat (0x10000 + (high - 0xD800) * 0x400 + (unit - 0xDC00)) :: ·), none⟩
    else ⟨none, none⟩
  | none =>
    if 0xD800 ≤ unit ∧ unit ≤ 0xDBFF then ⟨s.chars, some unit⟩
    else if isLow then ⟨none, none⟩
    else ⟨s.chars.map (Char.ofNat unit :: ·), none⟩

/-- The text of the finished literal. -/
def text? (s : Literal) : Option String :=
  match s.high with
  | none => s.chars.map fun chars => String.ofList chars.reverse
  | some _ => none

end Literal

/-- The value of a decimal digit. -/
def digit? (c : Char) : Option Nat := if c.isDigit then some (c.toNat - '0'.toNat) else none

/-- The value of a hexadecimal digit of either case. -/
def hexDigit? (c : Char) : Option Nat :=
  if c.isDigit then some (c.toNat - '0'.toNat)
  else if 'a' ≤ c ∧ c ≤ 'f' then some (c.toNat - 'a'.toNat + 10)
  else if 'A' ≤ c ∧ c ≤ 'F' then some (c.toNat - 'A'.toNat + 10)
  else none

/-- The number that a list of digits writes in a base. -/
def natOfDigits (base : Nat) (digits : List Nat) : Nat :=
  digits.foldl (fun n digit => n * base + digit) 0

/-- The parts of a number literal. -/
structure Numeral where
  negative : Bool
  whole : List Nat
  /-- The digits after the point, if there is a point. -/
  fraction : Option (List Nat)
  exponent : Option Int

namespace Numeral

/-- Split off the digits at the front. -/
def spanDigits : List Char → List Nat × List Char
  | [] => ([], [])
  | c :: rest =>
    match digit? c with
    | some d => let r := spanDigits rest; (d :: r.1, r.2)
    | none => ([], c :: rest)

/-- The exponent that a list of characters writes, which must have a digit. -/
def exponent? (chars : List Char) : Option Int :=
  let signed := match chars with
    | '-' :: rest => (true, rest)
    | '+' :: rest => (false, rest)
    | _ => (false, chars)
  match spanDigits signed.2 with
  | (d :: ds, []) =>
    let n := natOfDigits 10 (d :: ds)
    some (if signed.1 then -(n : Int) else n)
  | _ => none

/-- What follows the whole part: a point with digits, an exponent, both or neither. -/
def tail? (chars : List Char) : Option (Option (List Nat) × Option Int) :=
  match chars with
  | [] => some (none, none)
  | '.' :: rest =>
    match spanDigits rest with
    | ([], _) => none
    | (digits, []) => some (some digits, none)
    | (digits, e :: exponent) =>
      if e = 'e' ∨ e = 'E' then (exponent? exponent).map fun n => (some digits, some n) else none
  | e :: exponent =>
    if e = 'e' ∨ e = 'E' then (exponent? exponent).map fun n => (none, some n) else none

/-- The numeral that a list of characters writes. A whole part of several digits does not start with
zero. -/
def ofChars? (chars : List Char) : Option Numeral :=
  let signed := match chars with
    | '-' :: rest => (true, rest)
    | _ => (false, chars)
  match spanDigits signed.2 with
  | ([], _) => none
  | (0 :: _ :: _, _) => none
  | (whole, rest) => (tail? rest).map fun t => ⟨signed.1, whole, t.1, t.2⟩

/-- The float of a numeral. -/
def toFloat (n : Numeral) : Float :=
  let magnitude :=
    (Decimal.toFloat? n.whole (n.fraction.getD []) (n.exponent.getD 0)).getD (1 / 0)
  if n.negative then -magnitude else magnitude

/-- The number that a numeral stands for. -/
def value (n : Numeral) : Json :=
  match n.fraction, n.exponent with
  | none, none =>
    let magnitude := natOfDigits 10 n.whole
    let value : Int := if n.negative then -(magnitude : Int) else magnitude
    if n.negative && magnitude == 0 then .float n.toFloat
    else if -2 ^ 63 ≤ value ∧ value < 2 ^ 64 then .int value
    else .float n.toFloat
  | _, _ => .float n.toFloat

end Numeral

/-- The value of a bare word. -/
def word? (chars : List Char) : Option Json :=
  if chars = ['n', 'u', 'l', 'l'] then some .null
  else if chars = ['t', 'r', 'u', 'e'] then some (.bool true)
  else if chars = ['f', 'a', 'l', 's', 'e'] then some (.bool false)
  else (Numeral.ofChars? chars).map Numeral.value

/-- The character may stand in a bare word. -/
def isWordChar (c : Char) : Bool := c.isAlphanum || c == '+' || c == '-' || c == '.'

/-- The character may stand between tokens. -/
def isBlank (c : Char) : Bool := c == ' ' || c == '\t' || c == '\n' || c == '\r'

/-- Where the lexer stands between two characters. -/
inductive Mode where
  | between
  | inWord (chars : List Char)
  | inString (literal : Literal)
  | inEscape (literal : Literal)
  | inUnit (literal : Literal) (value count : Nat)

/-- Where the lexer stands and the tokens behind it, the last one first. -/
structure Scan where
  mode : Mode
  done : List Token

namespace Scan

/-- Nothing read yet. -/
def start : Scan := ⟨.between, []⟩

/-- Read the first character after a token. -/
def begin? (done : List Token) (c : Char) : Option Scan :=
  if isBlank c then some ⟨.between, done⟩
  else if isWordChar c then some ⟨.inWord [c], done⟩
  else match c with
    | '"' => some ⟨.inString .start, done⟩
    | '\x7b' => some ⟨.between, .openBrace :: done⟩
    | '\x7d' => some ⟨.between, .closeBrace :: done⟩
    | '[' => some ⟨.between, .openBracket :: done⟩
    | ']' => some ⟨.between, .closeBracket :: done⟩
    | ':' => some ⟨.between, .colon :: done⟩
    | ',' => some ⟨.between, .comma :: done⟩
    | _ => none

/-- The character that a backslash and `c` stand for. -/
def escaped? (c : Char) : Option Char :=
  match c with
  | '"' => some '"'
  | '\\' => some '\\'
  | '/' => some '/'
  | 'b' => some '\x08'
  | 'f' => some '\x0c'
  | 'n' => some '\n'
  | 'r' => some '\r'
  | 't' => some '\t'
  | _ => none

/-- Read one character. -/
def step (s : Scan) (c : Char) : Option Scan :=
  match s.mode with
  | .between => begin? s.done c
  | .inWord chars =>
    if isWordChar c then some ⟨.inWord (c :: chars), s.done⟩
    else (word? chars.reverse).bind fun value => begin? (.atom value :: s.done) c
  | .inString literal =>
    if c = '"' then some ⟨.between, .atom (.string literal.text?) :: s.done⟩
    else if c = '\\' then some ⟨.inEscape literal, s.done⟩
    else if c.toNat < 0x20 then none
    else some ⟨.inString (literal.push c), s.done⟩
  | .inEscape literal =>
    if c = 'u' then some ⟨.inUnit literal 0 0, s.done⟩
    else (escaped? c).map fun e => ⟨.inString (literal.push e), s.done⟩
  | .inUnit literal value count =>
    (hexDigit? c).map fun d =>
      let value := value * 16 + d
      if count = 3 then ⟨.inString (literal.pushUnit value), s.done⟩
      else ⟨.inUnit literal value (count + 1), s.done⟩

/-- The tokens of a text that ends here, the last one first. -/
def finish? (s : Scan) : Option (List Token) :=
  match s.mode with
  | .between => some s.done
  | .inWord chars => (word? chars.reverse).map (.atom · :: s.done)
  | _ => none

end Scan

/-- The tokens of a text. -/
def tokens? (chars : List Char) : Option (List Token) :=
  (chars.foldlM Scan.step Scan.start).bind fun s => s.finish?.map List.reverse

end FactGuard.Json
