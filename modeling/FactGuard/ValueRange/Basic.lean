import FactGuard.KnownBits.Basic

/-!
# Value ranges

A half-open interval `[lower, upper)` on the circle of the `2^width` patterns of a width. If `lower`
is not below `upper` it runs through the greatest pattern and on from zero. Two intervals with equal
bounds have a meaning: both bounds zero is the empty set, both bounds the greatest pattern the full
set. `ValueRange.ofBounds` refuses the others, and bounds or widths that do not fit.
-/

namespace FactGuard

/-- An interval of patterns of a width, which may run past the greatest one. -/
structure ValueRange where
  width : Nat
  lower : Nat
  upper : Nat
deriving DecidableEq, Repr, Inhabited

/-- Why bounds do not make a range. -/
inductive RangeError where
  /-- The width is zero or above 64. -/
  | unsupportedWidth (width : Nat)
  /-- A bound is greater than the greatest pattern. -/
  | boundsTooWide (lower upper width : Nat)
  /-- The bounds are equal and stand for neither the full nor the empty set. -/
  | ambiguousBounds (lower upper : Nat)
deriving DecidableEq, Repr

/-- The text of a range error. -/
def RangeError.message : RangeError → String
  | .unsupportedWidth width => s!"unsupported bit width {width}"
  | .boundsTooWide lower upper width => s!"bounds [{lower}, {upper}) do not fit in {width} bits"
  | .ambiguousBounds lower upper => s!"[{lower}, {upper}) is neither the full nor the empty set"

namespace ValueRange

/-- Widths from 1 to 64 are supported. -/
def checkWidth (width : Nat) : Except RangeError Unit :=
  if width = 0 ∨ width > maxWidth then .error (.unsupportedWidth width) else .ok ()

/-- The range `[lower, upper)`. -/
def ofBounds (width lower upper : Nat) : Except RangeError ValueRange := do
  checkWidth width
  if lower > widthMask width ∨ upper > widthMask width then
    throw (.boundsTooWide lower upper width)
  if lower = upper ∧ lower ≠ 0 ∧ lower ≠ widthMask width then
    throw (.ambiguousBounds lower upper)
  return ⟨width, lower, upper⟩

/-- Every pattern of the width. -/
def full (width : Nat) : ValueRange := ⟨width, widthMask width, widthMask width⟩

/-- No pattern. -/
def empty (width : Nat) : ValueRange := ⟨width, 0, 0⟩

/-- The low bits of `value` alone. -/
def single (width value : Nat) : ValueRange :=
  ⟨width, FactGuard.truncate width value, FactGuard.truncate width (value + 1)⟩

/-- The patterns from `least` to `greatest`, both included, after cutting them to the width. -/
def between (width least greatest : Nat) : ValueRange :=
  let least := FactGuard.truncate width least
  let greatest := FactGuard.truncate width greatest
  if least > greatest then empty width
  else if least = 0 ∧ greatest = widthMask width then full width
  else ⟨width, least, FactGuard.truncate width (greatest + 1)⟩

/-- The smallest interval without wrapping that holds all values that agree with `known`. -/
def ofKnownBits (known : KnownBits) : ValueRange :=
  between known.width known.minValue known.maxValue

/-- The number of patterns of the range's width. -/
def domainSize (r : ValueRange) : Nat := 2 ^ r.width

/-- The range holds every pattern. -/
def isFull (r : ValueRange) : Bool := r.lower == r.upper && r.lower == widthMask r.width

/-- The range holds no pattern. -/
def isEmpty (r : ValueRange) : Bool := r.lower == r.upper && r.lower == 0

/-- The range runs past the greatest pattern, or up to it and writes that as an upper bound of
zero. -/
def isWrapped (r : ValueRange) : Bool := !r.isFull && !r.isEmpty && decide (r.upper ≤ r.lower)

/-- The low bits of `v` lie in the range. -/
def contains (r : ValueRange) (v : Nat) : Bool :=
  let low := FactGuard.truncate r.width v
  if r.isFull then true
  else if r.isEmpty then false
  else if r.lower < r.upper then decide (r.lower ≤ low) && decide (low < r.upper)
  else decide (r.lower ≤ low) || decide (low < r.upper)

/-- The number of patterns in the range. -/
def size (r : ValueRange) : Nat :=
  if r.isFull then r.domainSize
  else if r.isEmpty then 0
  else if r.lower < r.upper then r.upper - r.lower
  else r.domainSize - r.lower + r.upper

/-- The only pattern in the range. -/
def singleElement? (r : ValueRange) : Option Nat := if r.size = 1 then some r.lower else none

/-- The least pattern in the range. -/
def min? (r : ValueRange) : Option Nat :=
  if r.isEmpty then none
  else if r.isFull || (r.isWrapped && decide (0 < r.upper)) then some 0
  else some r.lower

/-- The greatest pattern in the range. -/
def max? (r : ValueRange) : Option Nat :=
  if r.isEmpty then none
  else if r.isFull || r.isWrapped then some (widthMask r.width)
  else some (r.upper - 1)

/-- How many bits the range says about a value: the width less the binary logarithm of its size,
rounded up. The empty range says everything. -/
def informationBits (r : ValueRange) : Nat :=
  if r.size ≤ 1 then r.width else r.width - bitLength (r.size - 1)

/-- The range as text: its bounds, or the name of the full or the empty set. -/
def text (r : ValueRange) : String :=
  if r.isFull then "full-set"
  else if r.isEmpty then "empty-set"
  else s!"[{r.lower},{r.upper})"

end ValueRange

end FactGuard
