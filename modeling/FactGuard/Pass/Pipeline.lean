import FactGuard.Pass.Basic

/-!
# Pipelines

Passes are registered under their names, each for one of two slots. A pipeline has the passes of the
early slot and then those of the last, in the order of registration. It checks first that every pass
has the analyses that it needs, then lets every pass prepare the program, and then takes each
function through all passes before the next one. It stops at the first failure.
-/

namespace FactGuard

/-- When a pass runs. -/
inductive Slot where
  /-- Before any other pass. -/
  | early
  /-- After every other pass. -/
  | last
deriving DecidableEq, Repr

/-- A pass and its slot. -/
structure Registration where
  pass : Pass
  slot : Slot

/-- Passes by name, in the order of registration. -/
abbrev Registry := List Registration

namespace Registry

/-- Register a pass, in place of one of the same name, as the latest. -/
def register (registry : Registry) (entry : Registration) : Registry :=
  registry.filter (fun other => other.pass.name != entry.pass.name) ++ [entry]

/-- The pass of a name. -/
def lookup? (registry : Registry) (name : String) : Option Registration :=
  registry.find? (·.pass.name == name)

/-- The registry of the passes of the library. -/
def standard (settings : Settings) : Registry :=
  register [] ⟨Pass.rangeCheck settings, .last⟩

end Registry

/-- Passes in the order in which they run. -/
abbrev Pipeline := List Pass

/-- How many functions a pipeline took through its passes, and how many each pass changed. -/
structure Summary where
  functions : Nat
  changed : Bindings Nat
deriving DecidableEq, Repr

namespace Summary

/-- Nothing done. -/
def zero : Summary := ⟨0, []⟩

/-- Count a function that a pass changed. -/
def countPass (summary : Summary) (pass : String) : Summary :=
  { summary with
    changed := summary.changed.insert pass ((summary.changed.get? pass).getD 0 + 1) }

/-- Count a function. -/
def countFunction (summary : Summary) : Summary :=
  { summary with functions := summary.functions + 1 }

end Summary

namespace Pipeline

/-- The passes of a registry in their slots. -/
def ofRegistry (registry : Registry) : Pipeline :=
  ((registry.filter (·.slot = .early)) ++ (registry.filter (·.slot = .last))).map (·.pass)

/-- The pipeline of the passes of the library. -/
def standard (settings : Settings) : Pipeline := ofRegistry (Registry.standard settings)

/-- The first analysis that a pass needs and is not given. -/
def missing? (pipeline : Pipeline) (analyses : Analyses) : Option Failure :=
  pipeline.findSome? fun pass =>
    (pass.requires.find? fun analysis => !analyses.provides analysis).map fun analysis =>
      .missingAnalysis pass.name analysis.name

/-- Let every pass prepare the program. -/
def prepare (pipeline : Pipeline) (p : Program) (session : Session) : Program × Session :=
  pipeline.foldl (fun state pass => pass.prepare state.1 state.2) (p, session)

/-- Take a function through all passes. -/
def runFunction (analyses : Analyses) (f : Function) (session : Session) (summary : Summary) :
    Pipeline → Attempt Function Summary
  | [] => ⟨f, session, .ok summary.countFunction⟩
  | pass :: rest =>
    let done := pass.run analyses f session
    match done.result with
    | .error failure => ⟨done.subject, done.session, .error failure⟩
    | .ok changed =>
      let summary := if changed then summary.countPass pass.name else summary
      runFunction analyses done.subject done.session summary rest

/-- Take functions through all passes, one after another. -/
def runFunctions (pipeline : Pipeline) (analyses : Analyses) (session : Session)
    (summary : Summary) : List Function → Attempt (List Function) Summary
  | [] => ⟨[], session, .ok summary⟩
  | f :: rest =>
    let first := runFunction analyses f session summary pipeline
    match first.result with
    | .error failure => ⟨first.subject :: rest, first.session, .error failure⟩
    | .ok summary =>
      let later := pipeline.runFunctions analyses first.session summary rest
      ⟨first.subject :: later.subject, later.session, later.result⟩

/-- Run the pipeline on a program. -/
def run (pipeline : Pipeline) (analyses : Analyses) (p : Program) (session : Session) :
    Attempt Program Summary :=
  match pipeline.missing? analyses with
  | some failure => ⟨p, session, .error failure⟩
  | none =>
    let prepared := pipeline.prepare p session
    let done := pipeline.runFunctions analyses prepared.2 Summary.zero prepared.1.functions
    ⟨{ prepared.1 with functions := done.subject }, done.session, done.result⟩

end Pipeline

end FactGuard
