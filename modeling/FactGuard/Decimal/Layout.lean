import FactGuard.Decimal.Shortest

/-!
# The text of a float

How the digits of a shortest decimal are laid out: positionally, with zeros put in where the digits
do not reach the point, or with an exponent after `e`. A `Layout` records the choices of one text
format; each format's record stands in the module that writes the format.
-/

namespace FactGuard.Decimal

/-- The choices of a text format for floats. -/
structure Layout where
  /-- Which of two equally near shortest decimals is written. -/
  tie : Tie
  /-- The positions of the point, counted from before the first digit, that are written without an
  exponent. -/
  positional : Int → Bool
  /-- What follows a whole number that is written without an exponent. -/
  afterWhole : String
  /-- The texts of what is not a finite number. -/
  notNumber : String
  infinite : String
  negativeInfinite : String

/-- A text of `count` zeros. -/
def zeros (count : Nat) : String := String.ofList (List.replicate count '0')

/-- The digits with the point after `point` of them. -/
def Layout.positionalText (layout : Layout) (digits : List Char) (point : Int) : String :=
  if point ≤ 0 then "0." ++ zeros (-point).toNat ++ String.ofList digits
  else if digits.length ≤ point.toNat then
    String.ofList digits ++ zeros (point.toNat - digits.length) ++ layout.afterWhole
  else
    String.ofList (digits.take point.toNat) ++ "." ++ String.ofList (digits.drop point.toNat)

/-- The digits with the point after the first, and an exponent with its sign. -/
def exponentText (digits : List Char) (point : Int) : String :=
  let exponent := point - 1
  let sign := if exponent < 0 then "" else "+"
  let tail := digits.drop 1
  String.ofList (digits.take 1) ++ (if tail.isEmpty then "" else "." ++ String.ofList tail)
    ++ "e" ++ sign ++ toString exponent

/-- The text of a nonnegative finite float. -/
def Layout.magnitudeText (layout : Layout) (bits : Nat) : String :=
  let d := shortest layout.tie bits
  if d.digits = 0 then "0" ++ layout.afterWhole
  else
    let digits := Nat.toDigits 10 d.digits
    let point := digits.length + d.exponent
    if layout.positional point then layout.positionalText digits point
    else exponentText digits point

/-- The text of a float. -/
def Layout.text (layout : Layout) (x : Float) : String :=
  let bits := x.toBits.toNat
  let magnitude := bits % 2 ^ 63
  let negative := 2 ^ 63 ≤ bits
  if x.isNaN then layout.notNumber
  else if x.isInf then if negative then layout.negativeInfinite else layout.infinite
  else (if negative then "-" else "") ++ layout.magnitudeText magnitude

end FactGuard.Decimal
