import FactGuard.Fact.Basic
import FactGuard.Settings.Basic

/-!
# Trap conditions

A value violates a fact if it lies outside the range or disagrees with a known bit. The condition
for a trap is a list of terms, each a way to violate the fact, and traps if one of them holds. An
empty range has no such list: reaching the value at all violates it.
-/

namespace FactGuard

/-- One way for a value to violate a fact. -/
inductive Term where
  /-- Below `lower`, or not below `upper`. -/
  | outsideRange (lower upper : Nat)
  /-- In the gap of a range that wraps: below `lower` and not below `upper`. -/
  | insideGap (lower upper : Nat)
  /-- A bit of the mask is set that should be zero. -/
  | forcedZeroSet (mask : Nat)
  /-- A bit of the mask is clear that should be one. -/
  | forcedOneClear (mask : Nat)
deriving DecidableEq, Repr

/-- The term holds of a value. -/
def Term.holds (v : Nat) : Term → Bool
  | outsideRange lower upper => decide (v < lower) || decide (upper ≤ v)
  | insideGap lower upper => decide (v < lower) && decide (upper ≤ v)
  | forcedZeroSet mask => v &&& mask != 0
  | forcedOneClear mask => v &&& mask != mask

/-- Terms over a value of a width. -/
structure Guard where
  width : Nat
  terms : List Term
deriving DecidableEq, Repr

/-- One of the terms holds of the low bits of a value. -/
def Guard.isViolated (guard : Guard) (v : Nat) : Bool :=
  guard.terms.any fun term => term.holds (truncate guard.width v)

/-- When to trap after an instruction. -/
inductive Condition where
  | always
  | violated (guard : Guard)
deriving DecidableEq, Repr

/-- The condition holds of a value. -/
def Condition.isViolated (v : Nat) : Condition → Bool
  | always => true
  | violated guard => guard.isViolated v

/-- The condition never holds: its guard has no terms. -/
def Condition.isVacuous : Condition → Bool
  | always => false
  | violated guard => guard.terms.isEmpty

/-- The terms of a range that is neither empty nor full. -/
def rangeTerms (range : ValueRange) : List Term :=
  if range.isFull then []
  else if range.isWrapped then [.insideGap range.lower range.upper]
  else [.outsideRange range.lower range.upper]

/-- The terms of known bits. -/
def bitTerms (known : KnownBits) : List Term :=
  (if known.zero.bits = 0 then [] else [.forcedZeroSet known.zero.bits])
    ++ (if known.one.bits = 0 then [] else [.forcedOneClear known.one.bits])

/-- The condition under which a value violates a fact, as far as the settings ask for checks. -/
def Settings.condition (settings : Settings) (range : ValueRange) (known : KnownBits) :
    Condition :=
  if settings.checkRanges && range.isEmpty then .always
  else .violated ⟨range.width,
    (if settings.checkRanges then rangeTerms range else [])
      ++ (if settings.checkKnownBits then bitTerms known else [])⟩

end FactGuard
