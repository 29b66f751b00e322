import FactGuard.Proofs.Machine.Steps

/-!
# Watched runs

A watched run ends at the first instruction that gives its name a value that is refused
(`State.watch`). Where nothing is refused it is the run itself, with the same result or out of steps
at the same point (`State.watch_cases`).
-/

namespace FactGuard

/-- How a watched run ends. -/
inductive Watched where
  /-- As the run itself, with nothing refused on the way. -/
  | ended (result : Except EvalError Outcome)
  /-- In a block, a name is given a value that is refused. -/
  | violated (block value : String)
  /-- Out of steps, with nothing refused so far. -/
  | unfinished

namespace State

/-- The name that the step from `s` to `t` gives a value that is refused. A step into a block gives
values to phis only, which are not watched. -/
def refused? (refuses : (value block : String) → Nat → Bool) (s t : State) : Option String :=
  (s.todo.head?.bind Instr.dest?).filter fun value =>
    (t.store.get? value).any (refuses value s.label)

/-- Let the machine make `budget` steps, but none behind one that gives a value that is refused. -/
def watch (code : Code) (refuses : (value block : String) → Nat → Bool) : Nat → State → Watched
  | 0, _ => .unfinished
  | budget + 1, s =>
    match s.next code with
    | .error e => .ended (.error e)
    | .ok (.finished outcome) => .ended (.ok outcome)
    | .ok (.running t) =>
      match s.refused? refuses t with
      | some value => .violated s.label value
      | none => t.watch code refuses budget

variable {code : Code} {refuses : (value block : String) → Nat → Bool} {s t : State}

/-- An instruction that is carried out gives its name a value that is refused, or not. -/
theorem refused?_define {instr : Instr} {rest : List Instr} {dest : String} {v : Nat}
    (htodo : s.todo = instr :: rest) (hdefine : code.define s.label s.store instr = .ok (dest, v))
    (hstore : t.store = s.store.insert dest v) :
    s.refused? refuses t = if refuses dest s.label v then some dest else none := by
  have hget : t.store.get? dest = some v := by
    rw [hstore]
    exact (Bindings.get?_insert ..).trans (if_pos rfl)
  unfold refused?
  rw [htodo, List.head?_cons, Option.bind_some, Code.dest?_of_define hdefine, Option.filter_some,
    hget, Option.any_some]

/-- Following a terminator gives no value that is watched. -/
theorem refused?_of_todo_eq_nil (htodo : s.todo = []) : s.refused? refuses t = none := by
  unfold refused?
  rw [htodo]
  rfl

/-- A watched run comes to a value that is refused, or it is the run: both are out of steps, or both
end with the same result. -/
theorem watch_cases (code : Code) (refuses : (value block : String) → Nat → Bool)
    (limit budget : Nat) (s : State) :
    (∃ block value, s.watch code refuses budget = .violated block value) ∨
      (s.watch code refuses budget = .unfinished ∧
        s.run code limit budget = .error (.stepLimit limit)) ∨
      s.watch code refuses budget = .ended (s.run code limit budget) := by
  -- By induction on the budget, over all states, because a step changes the state.
  induction budget generalizing s with
  | zero => exact .inr (.inl ⟨rfl, rfl⟩)
  | succ budget ih =>
    rw [watch, State.run]
    cases s.next code with
    | error e => exact .inr (.inr rfl)
    | ok progress =>
      cases progress with
      | finished outcome => exact .inr (.inr rfl)
      | running t =>
        dsimp only
        cases s.refused? refuses t with
        | some value => exact .inl ⟨s.label, value, rfl⟩
        | none => exact ih t

end State

/-- Run a function on arguments up to the first value that is refused. -/
def Interpreter.watch (i : Interpreter) (f : Function)
    (refuses : (value block : String) → Nat → Bool) (args : List Nat) : Watched :=
  match i.start f args with
  | .error e => .ended (.error e)
  | .ok s => s.watch (i.code f) refuses i.stepLimit

namespace Interpreter

variable {i : Interpreter} {f : Function} {refuses : (value block : String) → Nat → Bool}
  {args : List Nat}

/-- A watched run of a function comes to a value that is refused, or it is the run. -/
theorem watch_cases (i : Interpreter) (f : Function)
    (refuses : (value block : String) → Nat → Bool) (args : List Nat) :
    (∃ block value, i.watch f refuses args = .violated block value) ∨
      (i.watch f refuses args = .unfinished ∧
        i.run f args = .error (.stepLimit i.stepLimit)) ∨
      i.watch f refuses args = .ended (i.run f args) := by
  unfold watch run
  cases i.start f args with
  | error e => exact .inr (.inr rfl)
  | ok s => exact State.watch_cases (i.code f) refuses i.stepLimit i.stepLimit s

/-- A watched run in which nothing is refused has the result of the run. -/
theorem run_of_watch_eq_ended {result : Except EvalError Outcome}
    (h : i.watch f refuses args = .ended result) : i.run f args = result := by
  rcases i.watch_cases f refuses args with ⟨block, value, hviolated⟩ | ⟨hunfinished, -⟩ | hended
  · cases hviolated.symm.trans h
  · cases hunfinished.symm.trans h
  · cases hended.symm.trans h
    rfl

/-- A watched run that is out of steps is one that reaches its limit. -/
theorem run_of_watch_eq_unfinished (h : i.watch f refuses args = .unfinished) :
    i.run f args = .error (.stepLimit i.stepLimit) := by
  rcases i.watch_cases f refuses args with ⟨block, value, hviolated⟩ | ⟨-, hlimit⟩ | hended
  · cases hviolated.symm.trans h
  · exact hlimit
  · cases hended.symm.trans h

end Interpreter

end FactGuard
