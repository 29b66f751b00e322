import FactGuard.Machine.Run

/-!
# Settings

What a user may choose: which guards are put in, which functions are left alone, and how many steps
a run may take.
-/

namespace FactGuard

/-- The choices of a user. -/
structure Settings where
  /-- Check ranges, and trap at values that have none. -/
  checkRanges : Bool
  /-- Check known bits. -/
  checkKnownBits : Bool
  /-- Functions that are left as they are. -/
  skipFunctions : List String
  /-- The number of steps that a run may take. -/
  stepLimit : Nat
deriving DecidableEq, Repr

namespace Settings

/-- Everything is checked. -/
def default : Settings := ⟨true, true, [], defaultStepLimit⟩

/-- The function is left as it is. -/
def skips (settings : Settings) (function : String) : Bool :=
  settings.skipFunctions.contains function

end Settings

end FactGuard
