import FactGuard.ValueRange.Basic

/-!
# Arithmetic on ranges

Each operation takes the ranges of its operands to a range that holds every result. Addition and
subtraction are exact: the results form an interval on the circle, unless its length reaches the
whole circle. The others answer with an interval that does not wrap, or with the full set where they
would have to.
-/

namespace FactGuard.ValueRange

/-- The number of steps that the intervals of `a` and `b` span together covers the circle. -/
def spansDomain (a b : ValueRange) : Bool := decide (a.domainSize ≤ a.size + b.size - 1)

/-- The sums modulo `2^width`. -/
def add (a b : ValueRange) : ValueRange :=
  if a.isEmpty || b.isEmpty then empty a.width
  else if a.isFull || b.isFull || spansDomain a b then full a.width
  else ⟨a.width, FactGuard.truncate a.width (a.lower + b.lower),
    FactGuard.truncate a.width (a.upper + b.upper + widthMask a.width)⟩

/-- The differences modulo `2^width`. -/
def sub (a b : ValueRange) : ValueRange :=
  if a.isEmpty || b.isEmpty then empty a.width
  else if a.isFull || b.isFull || spansDomain a b then full a.width
  else ⟨a.width, truncateInt a.width (a.lower - (b.upper - 1)),
    truncateInt a.width (a.upper - b.lower)⟩

/-- All members lie in `[lower, max]`, and this interval does not wrap: `max`. -/
def plainMax? (r : ValueRange) : Option Nat :=
  if r.isWrapped || r.isFull then none else r.max?

/-- The low `width` bits of the members. -/
def truncate (r : ValueRange) (width : Nat) : ValueRange :=
  if r.width ≤ width then r
  else if r.isEmpty then empty width
  else match r.plainMax? with
    | some greatest =>
      if greatest ≤ widthMask width then between width r.lower greatest else full width
    | none => full width

/-- The members with zeros put in front, or truncated if `width` is not wider. -/
def zeroExtend (r : ValueRange) (width : Nat) : ValueRange :=
  if width ≤ r.width then r.truncate width
  else if r.isEmpty then empty width
  else if r.isFull || (r.isWrapped && r.upper != 0) then between width 0 (widthMask r.width)
  else between width r.lower (if r.upper = 0 then widthMask r.width else r.upper - 1)

/-- The members with copies of their sign bit put in front, or truncated if `width` is not wider. -/
def signExtend (r : ValueRange) (width : Nat) : ValueRange :=
  if width ≤ r.width then r.truncate width
  else if r.isEmpty then empty width
  else match r.plainMax? with
    | some greatest =>
      if greatest < signBit r.width then between width r.lower greatest else full width
    | none => full width

/-- The smallest interval without wrapping that holds both ranges. -/
def hull (a b : ValueRange) : ValueRange :=
  match a.min?, b.min? with
  | none, _ => b
  | _, none => a
  | some least, some other =>
    between a.width (min least other) (max (a.max?.getD 0) (b.max?.getD 0))

/-- The remainders of the members, read without sign, divided by `divisor`. -/
def uremConstant (r : ValueRange) (divisor : Nat) : ValueRange :=
  if r.isEmpty then r
  else if divisor = 0 then full r.width
  else match r.max? with
    | some greatest => between r.width 0 (min greatest (divisor - 1))
    | none => between r.width 0 (divisor - 1)

end FactGuard.ValueRange
