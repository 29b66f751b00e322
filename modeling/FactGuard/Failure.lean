import FactGuard.ValueRange.Basic
import FactGuard.Json.Decode

/-!
# Failures

Why reading, checking or guarding a program fails. Each failure is a cause; `Failure.message` words
it. Some failures mean that an oracle or a program breaks what the library relies on, and these
leave the function that was worked on to be discarded.
-/

namespace FactGuard

/-- Why a claim cannot be made about a value. -/
inductive ClaimError where
  /-- The function declares no integer value of the name. -/
  | notInteger
  /-- The claimed bounds make no range of the value's width. -/
  | range (cause : RangeError)
  /-- The claimed masks have bits above the value's width. -/
  | excessBits (bits width : Nat)
deriving DecidableEq, Repr

/-- Why an operation of the library fails. -/
inductive Failure where
  /-- The block that should hold an instruction defining the value has none there. -/
  | missingSuccessor (value block : String)
  /-- The block was already split after the instruction. -/
  | outOfOrderFact (value block : String) (index : Nat)
  | conflictingKnownBits (value : String) (overlap : Nat)
  | knownBitsWidthMismatch (value : String) (zeroWidth oneWidth : Nat)
  | rangeWidthMismatch (value : String) (rangeWidth valueWidth : Nat)
  | invalidRange (cause : RangeError)
  | invalidFact (function value : String) (cause : ClaimError)
  | missingAnalysis (pass analysis : String)
  | unknownFunction (name : String)
  /-- A file cannot be read. -/
  | io (path : String)
  /-- A document does not hold what it should. -/
  | json (fault : Json.Fault)
  /-- A configuration cannot be read. -/
  | config (reason : String)
deriving DecidableEq, Repr

/-- The text of an invalid range. -/
def RangeError.report (cause : RangeError) : String := "invalid range: " ++ cause.message

/-- The text of a claim error. -/
def ClaimError.message : ClaimError → String
  | .notInteger => "not an integer value of this function"
  | .range cause => cause.report
  | .excessBits bits width => s!"known bits {hexText bits} exceed {width} bits"

namespace Failure

/-- The text of a failure. -/
def message : Failure → String
  | missingSuccessor value block =>
    "no instruction follows %" ++ value ++ " in block `" ++ block ++ "`"
  | outOfOrderFact value block index =>
    "fact for %" ++ value ++ " at " ++ block ++ "[" ++ toString index
      ++ "] arrived after the block was already split past it"
  | conflictingKnownBits value overlap =>
    "known bits for %" ++ value ++ " mark bits " ++ hexText overlap ++ " as both zero and one"
  | knownBitsWidthMismatch value zeroWidth oneWidth =>
    "known bits for %" ++ value ++ " have mismatched widths (" ++ toString zeroWidth ++ " vs "
      ++ toString oneWidth ++ ")"
  | rangeWidthMismatch value rangeWidth valueWidth =>
    "range for %" ++ value ++ " is " ++ toString rangeWidth ++ " bits wide but the value is "
      ++ toString valueWidth ++ " bits"
  | invalidRange cause => cause.report
  | invalidFact function value cause =>
    "invalid fact for %" ++ value ++ " in `" ++ function ++ "`: " ++ cause.message
  | missingAnalysis pass analysis =>
    "pass `" ++ pass ++ "` requires analysis `" ++ analysis ++ "` which was not provided"
  | unknownFunction name => "unknown function `" ++ name ++ "`"
  | io path => "IO error: " ++ path ++ ": cannot be read"
  | json fault => "JSON error: " ++ fault.message
  | config reason => "config error: " ++ reason

/-- The failure means that a program or an oracle breaks what the library relies on. -/
def breaksInvariant : Failure → Bool
  | missingSuccessor .. | outOfOrderFact .. | conflictingKnownBits .. | knownBitsWidthMismatch ..
  | rangeWidthMismatch .. | invalidFact .. => true
  | _ => false

/-- The failure of a reader of documents. -/
def ofJson {α : Type} : Except Json.Fault α → Except Failure α := Except.mapError json

end Failure

end FactGuard
