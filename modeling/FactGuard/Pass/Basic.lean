import FactGuard.Site.Instrument

/-!
# Passes

A pass changes one function at a time. It says which analyses it needs, and may prepare the program
before it runs on the first function. The range-check pass puts guards into functions.
-/

namespace FactGuard

/-- What a pass may need to know. -/
inductive Analysis where
  /-- Ranges and known bits of integer values. -/
  | valueRanges
deriving DecidableEq, Repr

/-- The name of an analysis. -/
def Analysis.name : Analysis → String
  | valueRanges => "value-ranges"

/-- The analyses that passes are given. -/
structure Analyses where
  valueRanges : Option FactSource

namespace Analyses

/-- No analysis. -/
def none : Analyses := ⟨Option.none⟩

/-- Ranges and known bits from a source. -/
def ofSource (source : FactSource) : Analyses := ⟨some source⟩

/-- The analysis is given. -/
def provides (analyses : Analyses) : Analysis → Bool
  | .valueRanges => analyses.valueRanges.isSome

end Analyses

/-- A change to functions, one at a time. -/
structure Pass where
  name : String
  description : String
  requires : List Analysis
  /-- Prepare the program, once before any function. -/
  prepare : Program → Session → Program × Session
  /-- Run on a function, and say whether it was changed. -/
  run : Analyses → Function → Session → Attempt Function Bool

/-- Count a report among those of the range-check pass. -/
def Session.addReport (session : Session) (report : Report) : Session :=
  { session with total := session.total.add report }

namespace Pass

/-- The name of the range-check pass. -/
def rangeCheckName : String := "range-check"

/-- Run the range-check pass on a function. A function that it does not skip gains a trap block, and
so is changed. -/
def runRangeCheck (settings : Settings) (analyses : Analyses) (f : Function) (session : Session) :
    Attempt Function Bool :=
  match analyses.valueRanges with
  | none => ⟨f, session, .error (.missingAnalysis rangeCheckName Analysis.valueRanges.name)⟩
  | some source =>
    let done := session.instrument settings source f
    match done.result with
    | .error failure => ⟨done.subject, done.session, .error failure⟩
    | .ok report =>
      ⟨done.subject, done.session.addReport report, .ok (decide (0 < report.functions))⟩

/-- The pass that guards functions. -/
def rangeCheck (settings : Settings) : Pass where
  name := rangeCheckName
  description := "Check value-range facts at runtime"
  requires := [.valueRanges]
  prepare p session := (p.declareExtern trapExtern, session)
  run := runRangeCheck settings

end Pass

end FactGuard
