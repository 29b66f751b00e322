import FactGuard.ValueRange.Transfer
import FactGuard.KnownBits.Transfer

/-!
# Facts about a value

A range and known bits, which both hold of a value. `ValueFact.refined` lets each tighten the other:
a range that says nothing is replaced by the one that the known bits give, and the bits above the
greatest member of a range that does not wrap are known to be zero. It removes no value that
satisfies both.
-/

namespace FactGuard

/-- A range and known bits of one width. -/
structure ValueFact where
  range : ValueRange
  known : KnownBits
deriving DecidableEq, Repr, Inhabited

namespace ValueFact

/-- Nothing known. -/
def unknown (width : Nat) : ValueFact := ⟨ValueRange.full width, KnownBits.unknown width⟩

/-- The value is known. -/
def constant (width value : Nat) : ValueFact :=
  ⟨ValueRange.single width value, KnownBits.constant width value⟩

/-- What known bits say, with the range that they give. -/
def ofKnownBits (known : KnownBits) : ValueFact := ⟨ValueRange.ofKnownBits known, known⟩

/-- The width of the value. -/
def width (fact : ValueFact) : Nat := fact.known.width

/-- The known bits with zeros above the highest one of `greatest`; unchanged if one of these bits is
known to be one, which means that there is no such value. -/
def boundedBits (known : KnownBits) (greatest : Nat) : KnownBits :=
  let width := known.width
  let zeros := BitMask.ofBits width (known.zero.bits ||| invert width (fillBelow greatest))
  match KnownBits.ofMasks zeros (BitMask.ofBits width known.one.bits) with
  | .ok bounded => bounded
  | .error _ => known

/-- The range, or what the known bits give in place of a full one. -/
def tightenedRange (fact : ValueFact) : ValueRange :=
  if fact.range.isFull then ValueRange.ofKnownBits fact.known else fact.range

/-- Let the range and the known bits tighten each other. -/
def refined (fact : ValueFact) : ValueFact :=
  let range := fact.tightenedRange
  if range.isWrapped then ⟨range, fact.known⟩
  else match range.max? with
    | some greatest => ⟨range, boundedBits fact.known greatest⟩
    | none => ⟨range, fact.known⟩

/-- A fact that holds of the values of either side. -/
def join (a b : ValueFact) : ValueFact :=
  refined ⟨a.range.hull b.range, a.known.common b.known⟩

end ValueFact

end FactGuard
