import FactGuard.Failure
import FactGuard.ValueRange.Codec
import FactGuard.KnownBits.Basic

/-!
# Claims

What someone claims about values of a program, by function and value. A claim leaves out the width,
which is that of the value's type, and may speak of the range, of the bits that are zero and of the
bits that are one, or of some of these only. `Claim.resolve` gives a claim its width, and refuses
bounds and masks that do not fit it. Masks that overlap pass; those who use them refuse them.

Functions and values stand in ascending order in a table.
-/

namespace FactGuard

/-- A claimed range: a named set, or bounds. -/
inductive ClaimedRange where
  | named (set : NamedSet)
  | bounds (lower upper : Nat)
deriving DecidableEq, Repr

/-- The claimed range at a width. -/
def ClaimedRange.resolve (width : Nat) : ClaimedRange → Except RangeError ValueRange
  | .named set => .ok (set.range width)
  | .bounds lower upper => ValueRange.ofBounds width lower upper

/-- What is claimed of a value. -/
structure Claim where
  range : Option ClaimedRange
  knownZero : Option Nat
  knownOne : Option Nat
deriving DecidableEq, Repr

/-- A claim at the width of its value. -/
structure ResolvedClaim where
  range : Option ValueRange
  known : Option (BitMask × BitMask)
deriving DecidableEq, Repr

namespace Claim

/-- A claim of a range only. -/
def ofRange (range : ClaimedRange) : Claim := ⟨some range, none, none⟩

/-- A claim of both masks only. -/
def ofMasks (zeros ones : Nat) : Claim := ⟨none, some zeros, some ones⟩

/-- The claimed range at a width. -/
def resolveRange (width : Nat) (claim : Claim) : Except ClaimError (Option ValueRange) :=
  match claim.range with
  | none => .ok none
  | some range => ((range.resolve width).mapError .range).map some

/-- The claimed masks at a width. If only one mask is claimed, the other is empty. -/
def resolveMasks (width : Nat) (claim : Claim) :
    Except ClaimError (Option (BitMask × BitMask)) :=
  if claim.knownZero.isNone && claim.knownOne.isNone then .ok none
  else
    let zeros := claim.knownZero.getD 0
    let ones := claim.knownOne.getD 0
    let excess := (zeros ||| ones) - truncate width (zeros ||| ones)
    if excess ≠ 0 then .error (.excessBits excess width)
    else .ok (some (BitMask.ofBits width zeros, BitMask.ofBits width ones))

/-- The claim at the width of its value. -/
def resolve (width : Nat) (claim : Claim) : Except ClaimError ResolvedClaim := do
  let range ← claim.resolveRange width
  let known ← claim.resolveMasks width
  return ⟨range, known⟩

end Claim

/-- Claims by function and value. -/
structure FactTable where
  functions : Bindings (Bindings Claim)
deriving DecidableEq, Repr

namespace FactTable

/-- No claims. -/
def empty : FactTable := ⟨[]⟩

/-- The claims about the values of a function. -/
def claims (table : FactTable) (function : String) : Bindings Claim :=
  (table.functions.get? function).getD []

/-- The claim about a value. -/
def get? (table : FactTable) (function value : String) : Option Claim :=
  (table.claims function).get? value

/-- Claim something of a value, in place of what was claimed of it. -/
def insert (table : FactTable) (function value : String) (claim : Claim) : FactTable :=
  ⟨table.functions.insertSorted function ((table.claims function).insertSorted value claim)⟩

/-- The table claims nothing of any value. -/
def isEmpty (table : FactTable) : Bool := table.functions.all (·.2.isEmpty)

end FactTable

end FactGuard
