import FactGuard.Word

/-!
# Shortest decimals

The decimal with the fewest digits that reads back as a given binary float. A finite float is
`m * 2^e`; the reals that round to it form an interval around it, which reaches half way to either
neighbour and includes its ends exactly if `m` is even. Among the decimals of `1, 2, …, 17` digits,
the two next to the value are tried, and the first count of digits for which one lies in the
interval wins. Of two hits the nearer is taken, and `Tie` says which if they are equally near.

All comparisons are between natural numbers.
-/

namespace FactGuard.Decimal

/-- The number `digits * 10^exponent`. -/
structure Scaled where
  digits : Nat
  exponent : Int
deriving DecidableEq, Repr

/-- Which of two equally near decimals is taken. -/
inductive Tie where
  | even
  | up
deriving DecidableEq, Repr

/-- A fraction of natural numbers. -/
structure Ratio where
  num : Nat
  den : Nat

namespace Ratio

/-- The fraction `m * 2^e`. -/
def ofBinary (m : Nat) (e : Int) : Ratio := ⟨m * 2 ^ e.toNat, 2 ^ (-e).toNat⟩

/-- The fraction in units of `10^p`. -/
def inUnits (r : Ratio) (p : Int) : Ratio := ⟨r.num * 10 ^ (-p).toNat, r.den * 10 ^ p.toNat⟩

end Ratio

/-- The magnitude of a finite float: `m * 2^e`, and whether the float below it is nearer than the
float above. -/
structure Magnitude where
  m : Nat
  e : Int
  closeBelow : Bool
deriving DecidableEq, Repr

/-- The magnitude of the finite float with the given 64-bit pattern. -/
def Magnitude.ofBits (bits : Nat) : Magnitude :=
  let exponent : Nat := bits / 2 ^ 52 % 2 ^ 11
  let fraction : Nat := bits % 2 ^ 52
  if exponent = 0 then ⟨fraction, -1074, false⟩
  else ⟨2 ^ 52 + fraction, (exponent : Int) - 1075, fraction == 0 && exponent != 1⟩

/-- The number of decimal digits before the point of a value that is at least `10^-400`, negative if
zeros follow the point. -/
def pointPosition (value : Ratio) : Int :=
  ((Nat.toDigits 10 (value.num * 10 ^ 400 / value.den)).length : Int) - 400

/-- The decimal of at most `count` digits next to the value that lies in its interval. -/
def ofLength? (mag : Magnitude) (tie : Tie) (point : Int) (count : Nat) : Option Scaled :=
  let p := point - count
  let quarters (k : Nat) : Ratio := (Ratio.ofBinary k (mag.e - 2)).inUnits p
  let value := quarters (4 * mag.m)
  let least := quarters (4 * mag.m - if mag.closeBelow then 1 else 2)
  let greatest := quarters (4 * mag.m + 2)
  let inside (c : Nat) : Bool :=
    let scaled := c * value.den
    if mag.m % 2 = 0 then decide (least.num ≤ scaled) && decide (scaled ≤ greatest.num)
    else decide (least.num < scaled) && decide (scaled < greatest.num)
  let below := value.num / value.den
  let twice := 2 * (value.num % value.den)
  let preferUp : Bool := match tie with
    | .up => decide (value.den ≤ twice)
    | .even => decide (value.den < twice) || (value.den == twice && below % 2 == 1)
  match inside below, inside (below + 1) with
  | true, true => some ⟨if preferUp then below + 1 else below, p⟩
  | true, false => some ⟨below, p⟩
  | false, true => some ⟨below + 1, p⟩
  | false, false => none

/-- The first hit for `count, count + 1, …` digits, in `tries` attempts. -/
def firstHit (mag : Magnitude) (tie : Tie) (point : Int) (count : Nat) : Nat → Scaled
  | 0 => ⟨0, 0⟩
  | tries + 1 =>
    (ofLength? mag tie point count).getD (firstHit mag tie point (count + 1) tries)

/-- Move trailing zeros of the digits into the exponent, `tries` of them at most. -/
def Scaled.strip (d : Scaled) : Nat → Scaled
  | 0 => d
  | tries + 1 =>
    if d.digits % 10 = 0 ∧ d.digits ≠ 0 then Scaled.strip ⟨d.digits / 10, d.exponent + 1⟩ tries
    else d

/-- The shortest decimal of the magnitude of a finite float, without trailing zeros. -/
def shortest (tie : Tie) (bits : Nat) : Scaled :=
  let mag := Magnitude.ofBits bits
  if mag.m = 0 then ⟨0, 0⟩
  else
    let point := pointPosition (Ratio.ofBinary mag.m mag.e)
    (firstHit mag tie point 1 17).strip 17

end FactGuard.Decimal
