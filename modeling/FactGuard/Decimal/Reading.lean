import FactGuard.Word

/-!
# Reading decimals

A decimal literal is read in the precision of its target. Its digits are collected in a 64-bit word
as long as they fit; digits before the point that no longer fit count as powers of ten, and digits
after it are dropped. The word is then converted to a float and multiplied or divided by a power of
ten, so the result may differ from the nearest float in its last place.
-/

namespace FactGuard.Decimal

/-- Digits collected in a word, and how many of the list were taken. -/
structure Collected where
  word : Nat
  taken : Nat

/-- Append digits to a word until the first that would not fit. -/
def collect (word taken : Nat) : List Nat → Collected
  | [] => ⟨word, taken⟩
  | digit :: rest =>
    if word * 10 + digit < 2 ^ 64 then collect (word * 10 + digit) (taken + 1) rest
    else ⟨word, taken⟩

/-- The float next to `10^n`, for `n` up to 308. -/
def powerOfTen (n : Nat) : Float := Float.ofScientific 1 false n

/-- Multiply a float by `10^exponent`. Below `10^-308` it is divided in steps, of which `steps` are
made. No result is given above the greatest float. -/
def scale (x : Float) (exponent : Int) : Nat → Option Float
  | 0 => some x
  | steps + 1 =>
    if exponent.natAbs ≤ 308 then
      if exponent < 0 then some (x / powerOfTen exponent.natAbs)
      else
        let y := x * powerOfTen exponent.natAbs
        if y.isInf then none else some y
    else if x == 0 then some x
    else if exponent < 0 then scale (x / powerOfTen 308) (exponent + 308) steps
    else none

/-- The float of a literal with the given digits before and after its point and the given exponent.
A literal above the greatest float has none. An exponent outside 32 bits stands for zero or for a
literal that is too great. -/
def toFloat? (whole fraction : List Nat) (exponent : Int) : Option Float :=
  let ahead := collect 0 0 whole
  let all := collect ahead.word 0 fraction
  let shift : Int := ((whole.length - ahead.taken : Nat) : Int) - (all.taken : Int)
  if exponent.natAbs < 2 ^ 31 then
    scale (UInt64.ofNat all.word).toFloat (shift + exponent) 4
  else if 0 < exponent ∧ all.word ≠ 0 then none
  else some 0

end FactGuard.Decimal
