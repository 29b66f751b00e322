import FactGuard.Machine.Basic

/-!
# Running functions

`Interpreter.run` starts the machine on arguments and lets it make a limited number of steps. Every
instruction that is not a phi at the start of its block counts as a step, and so does every
terminator.
-/

namespace FactGuard

/-- Let the machine make `budget` steps; `limit` is what the error says if they are not enough. -/
def State.run (code : Code) (limit : Nat) : Nat → State → Except EvalError Outcome
  | 0, _ => .error (.stepLimit limit)
  | budget + 1, s =>
    match s.next code with
    | .error e => .error e
    | .ok (.finished outcome) => .ok outcome
    | .ok (.running s) => State.run code limit budget s

/-- The callees that trap, and the number of steps that a run may take. -/
structure Interpreter where
  traps : List String
  stepLimit : Nat
deriving DecidableEq, Repr

/-- The number of steps that a run may take unless it is set. -/
def defaultStepLimit : Nat := 1000000

namespace Interpreter

/-- No callee traps. -/
def plain : Interpreter := ⟨[], defaultStepLimit⟩

/-- The callees that a program declares as never returning trap. -/
def forProgram (p : Program) : Interpreter :=
  ⟨(p.externs.filter (·.noReturn)).map (·.name), defaultStepLimit⟩

/-- The interpreter with another step limit. -/
def withStepLimit (i : Interpreter) (limit : Nat) : Interpreter := { i with stepLimit := limit }

/-- What the machine needs to know of a function. -/
def code (i : Interpreter) (f : Function) : Code := ⟨f.declarations, f.blocks, f.result, i.traps⟩

/-- The values held at the start: the arguments, cut to the widths of their parameters. -/
def arguments (f : Function) (args : List Nat) : Store :=
  Store.insertAll [] (List.zipWith (fun param arg => (param.1, param.2.wrap arg)) f.params args)

/-- The machine at the entry of a function. -/
def start (i : Interpreter) (f : Function) (args : List Nat) : Except EvalError State :=
  if f.params.length ≠ args.length then .error (.arityMismatch f.params.length args.length)
  else
    match f.blocks with
    | [] => .error (.emptyFunction f.name)
    | entry :: _ => State.enter (i.code f) entry none (arguments f args)

/-- Run a function on arguments. -/
def run (i : Interpreter) (f : Function) (args : List Nat) : Except EvalError Outcome := do
  let s ← i.start f args
  s.run (i.code f) i.stepLimit i.stepLimit

end Interpreter

end FactGuard
