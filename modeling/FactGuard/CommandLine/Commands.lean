import FactGuard.CommandLine.Arguments
import FactGuard.Pass.Pipeline
import FactGuard.Program.Codec
import FactGuard.Claim.Codec
import FactGuard.Settings.Reader
import FactGuard.Json.Writer

/-!
# Commands

What each command does, as a function of the files that it may read: the text that it writes, and
its status. Files are read in a fixed order, the program, the configuration and the claims, so with
several faults the first of these is reported.
-/

namespace FactGuard

/-- The texts of files that can be read, by path. -/
abbrev Files := String → Option String

/-- What a command writes, and its status: 0 if it succeeds, 1 if it fails, and 2 if the command
line is not understood. -/
structure Output where
  status : Nat
  stdout : String
  stderr : String
deriving DecidableEq, Repr

/-- Why a command fails. -/
inductive CommandError where
  | failure (cause : Failure)
  | eval (cause : EvalError)
  | invalidArgument (arg : String)
deriving DecidableEq, Repr

/-- The text of a command's error. -/
def CommandError.message : CommandError → String
  | failure cause => cause.message
  | eval cause => cause.message
  | invalidArgument arg => "invalid argument `" ++ arg ++ "`"

namespace Files

/-- The program in a file. -/
def program (files : Files) (path : String) : Except Failure Program :=
  match files path with
  | none => .error (.io path)
  | some text => Failure.ofJson (Program.ofText Json.library text)

/-- The settings in a file, or the defaults. -/
def settings (files : Files) : Option String → Except Failure Settings
  | none => .ok Settings.default
  | some path =>
    match files path with
    | none => .error (.config (path ++ ": cannot be read"))
    | some text => Settings.ofText text

/-- What can be inferred, under the claims in a file if one is given. -/
def source (files : Files) : Option String → Except Failure FactSource
  | none => .ok FactSource.inferred
  | some path =>
    match files path with
    | none => .error (.io path)
    | some text => do
      let table ← Failure.ofJson (FactTable.ofText text)
      return FactSource.override table FactSource.inferred

end Files

namespace Command

/-- The lines about the findings of a function. -/
def findingLines (f : Function) (findings : List Finding) : String :=
  String.join (findings.map fun finding =>
    f.name ++ " " ++ finding.location ++ ": " ++ finding.range.text ++ " " ++ finding.known.text
      ++ " " ++ finding.text ++ "\n")

/-- The findings of functions up to the first failure, and this failure. -/
def listFindings (source : FactSource) : List Function → String × Option Failure
  | [] => ("", none)
  | f :: rest =>
    match source f with
    | .error failure => ("", some failure)
    | .ok oracle =>
      let survey := f.survey oracle
      match survey.failure? with
      | some failure => ("", some failure)
      | none =>
        let later := listFindings source rest
        (findingLines f survey.findings ++ later.1, later.2)

/-- A program, with its guards, and what was counted. -/
def guarded (settings : Settings) (source : FactSource) (p : Program) :
    Except Failure (Program × Stats) :=
  let done := (Pipeline.standard settings).run (Analyses.ofSource source) p Session.start
  done.result.map fun _ => (done.subject, done.session.stats)

/-- The text of a program. -/
def emitted (p : Program) : Emit → String
  | .listing => p.text
  | .document => p.encode.pretty ++ "\n"

/-- The text of an outcome. -/
def outcomeText : Outcome → String
  | .returned (some value) => "returned " ++ toString value
  | .returned none => "returned"
  | .trapped block (some origin) => "trapped in " ++ block ++ " (from " ++ origin ++ ")"
  | .trapped block none => "trapped in " ++ block

/-- A failure of the library is one of the command. -/
def lift {α : Type} : Except Failure α → Except CommandError α := Except.mapError .failure

/-- Guard a program: what is written to either stream. -/
def instrumentFile (files : Files) (file : String) (facts config : Option String) (emit : Emit)
    (stats : Bool) : Except CommandError (String × String) := do
  let p ← lift (files.program file)
  let settings ← lift (files.settings config)
  let source ← lift (files.source facts)
  let done ← lift (guarded settings source p)
  return (emitted done.1 emit, if stats then done.2.text else "")

/-- Guard a program if asked to. -/
def prepared (files : Files) (instrument : Bool) (facts : Option String) (settings : Settings)
    (p : Program) : Except CommandError Program :=
  if instrument then do
    let source ← lift (files.source facts)
    let done ← lift (guarded settings source p)
    return done.1
  else return p

/-- The bit patterns that arguments write. -/
def patterns : List String → Except CommandError (List Nat)
  | [] => .ok []
  | arg :: rest =>
    match CommandLine.pattern? arg with
    | none => .error (.invalidArgument arg)
    | some value => do return value :: (← patterns rest)

/-- Run a function: what is written. -/
def runFunction (files : Files) (file function : String) (instrument : Bool)
    (facts config : Option String) (args : List String) : Except CommandError String := do
  let p ← lift (files.program file)
  let settings ← lift (files.settings config)
  let p ← prepared files instrument facts settings p
  match p.function? function with
  | none => throw (.failure (.unknownFunction function))
  | some f =>
    let args ← patterns args
    let interpreter := (Interpreter.forProgram p).withStepLimit settings.stepLimit
    let outcome ← (interpreter.run f args).mapError .eval
    return outcomeText outcome ++ "\n"

/-- List what guards would check: what is written, and the error that ends it early. -/
def listFacts (files : Files) (file : String) (facts : Option String) :
    String × Option CommandError :=
  match lift (files.program file) with
  | .error e => ("", some e)
  | .ok p =>
    match lift (files.source facts) with
    | .error e => ("", some e)
    | .ok source =>
      let listed := listFindings source p.functions
      (listed.1, listed.2.map .failure)

end Command

namespace Output

/-- The output of a command that wrote `stdout` and may have failed then. -/
def ended (stdout : String) : Option CommandError → Output
  | none => ⟨0, stdout, ""⟩
  | some e => ⟨1, stdout, "Error: " ++ e.message ++ "\n"⟩

/-- The output of a command line that is not understood. -/
def usage : Output :=
  ⟨2, "", "usage: factguard [-v] instrument|facts|run FILE [OPTIONS] [-- ARGS]\n"⟩

end Output

/-- Carry out a command. -/
def Command.output (files : Files) : Command → Output
  | .instrument file claims config emit stats =>
    match instrumentFile files file claims config emit stats with
    | .ok (stdout, stderr) => ⟨0, stdout, stderr⟩
    | .error e => Output.ended "" (some e)
  | .facts file claims =>
    let listed := listFacts files file claims
    Output.ended listed.1 listed.2
  | .run file function guards claims config args =>
    match runFunction files file function guards claims config args with
    | .ok stdout => ⟨0, stdout, ""⟩
    | .error e => Output.ended "" (some e)

/-- Carry out a command line. -/
def CommandLine.output (files : Files) (args : List String) : Output :=
  match command? args with
  | some command => command.output files
  | none => Output.usage

end FactGuard
