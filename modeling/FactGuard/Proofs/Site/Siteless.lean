import FactGuard.Proofs.Machine.Extension
import FactGuard.Proofs.Machine.Results
import FactGuard.Proofs.Site.Report

/-!
# Functions without a guard

A function in which no guard was put has its trap block all the same
(`Session.subject_of_siteless`). The block is new, so a run comes to it only where the function as
it was has no block to go to: at the entry of a function without blocks, or after a jump to a label
of no block that happens to be the one the trap block got. All other runs are as they were
(`Session.instrument_siteless`), whether the function is well-formed or not.

A run that comes to a trap block ends there, as soon as its limit allows for one more step
(`Interpreter.endsAtTrap_of_steps`).
-/

namespace FactGuard

variable {f : Function} {settings : Settings}

/-! ## Nothing but a trap block -/

/-- The function with its trap block. -/
theorem Splicer.function_start (f : Function) :
    (start f).function = f.withBlock (trapBlock (f.freshLabel trapLabel)) := rfl

/-- Findings with nothing to check leave the splicer as it is. -/
theorem Splicer.guardAll_of_isVacuous (s : Splicer) {findings : List Finding}
    (h : ∀ finding ∈ findings, (settings.condition finding.range finding.known).isVacuous = true) :
    (s.guardAll settings findings).splicer = s := by
  induction findings with
  | nil => rfl
  | cons finding rest ih =>
    have hguard : s.guard finding (settings.condition finding.range finding.known)
        = .ok (s, .skipped) := by
      unfold guard
      rw [if_pos (h finding List.mem_cons_self)]
    unfold guardAll
    rw [hguard]
    exact ih fun other hother => h other (List.mem_cons_of_mem _ hother)

/-- Without a guard, every finding has nothing to check. -/
theorem Settings.isVacuous_of_sites {findings : List Finding}
    (h : (settings.report findings).sites = 0) :
    ∀ finding ∈ findings, (settings.condition finding.range finding.known).isVacuous = true := by
  intro finding hfinding
  by_contra hvacuous
  have hmem : (finding, settings.condition finding.range finding.known)
      ∈ settings.guards findings := mem_guards.2 ⟨hfinding, rfl, by simpa using hvacuous⟩
  rw [List.length_eq_zero_iff.1 h] at hmem
  cases hmem

/-- A function in which no guard was put is as it was, with a trap block at the end unless the
settings skip it. -/
theorem Session.subject_of_siteless {session : Session} {source : FactSource} {report : Report}
    (h : (session.instrument settings source f).result = .ok report) (hsites : report.sites = 0) :
    (session.instrument settings source f).subject
      = if settings.skips f.name then f
        else f.withBlock (trapBlock (f.freshLabel trapLabel)) := by
  rcases Session.instrument_report h with ⟨hskip, -⟩ | ⟨hskip, oracle, hsource, hsurvey, rfl⟩
  · unfold instrument
    rw [if_pos hskip, if_pos hskip]
  · have hvacuous := Settings.isVacuous_of_sites hsites
    rw [if_neg (by rw [hskip]; decide), ← Splicer.function_start]
    unfold instrument
    rw [if_neg (by rw [hskip]; decide), hsource]
    dsimp only
    rw [hsurvey]
    dsimp only
    unfold splice
    dsimp only
    -- Whether all findings are gone through or not, the splicer is the one at the start.
    split <;> exact congrArg Splicer.function (Splicer.guardAll_of_isVacuous _ hvacuous)

/-! ## Runs that come to a trap block -/

/-- What the call of a trap block gives: a trap if the callee is one that traps, and an error if
not. -/
def Interpreter.atTrap (i : Interpreter) (s : State) : Except EvalError Outcome :=
  if i.traps.contains trapCallee then .ok (.trapped s.label s.origin)
  else .error (.unsupportedCall trapCallee)

/-- The function comes to a state in a number of steps and ends there with the call of a trap block:
under every limit above this number, and under no other. -/
def Interpreter.EndsAtTrap (i : Interpreter) (g : Function) (args : List Nat) (steps : Nat)
    (s : State) : Prop :=
  (∃ start, i.start g args = .ok start ∧ State.Steps (i.code g) steps start s) ∧
    ∀ limit, (i.withStepLimit limit).run g args
      = if limit ≤ steps then .error (.stepLimit limit) else i.atTrap s

/-- In a trap block the next step is the last one. -/
theorem Interpreter.ends_atTrap (i : Interpreter) (g : Function) {s : State}
    (htodo : s.todo = (trapBlock s.label).instrs) : s.Ends (i.code g) (i.atTrap s) := by
  have hcall : (i.code g).traps? (.call none trapCallee [] false) = i.traps.contains trapCallee :=
    rfl
  unfold State.Ends atTrap
  cases htraps : i.traps.contains trapCallee with
  | true =>
    rw [State.next_of_traps htodo (hcall.trans htraps), if_pos rfl]
    rfl
  | false =>
    rw [State.next_of_todo_cons htodo (hcall.trans htraps), if_neg (by decide)]
    rfl

/-- A function that comes to a trap block ends there. -/
theorem Interpreter.endsAtTrap_of_steps {i : Interpreter} {g : Function} {args : List Nat}
    {steps : Nat} {start s : State} (hstart : i.start g args = .ok start)
    (hsteps : State.Steps (i.code g) steps start s)
    (htodo : s.todo = (trapBlock s.label).instrs) : i.EndsAtTrap g args steps s :=
  ⟨⟨start, hstart, hsteps⟩, run_of_ends hstart hsteps (i.ends_atTrap g htodo)⟩

/-! ## Main result -/

/-- A function in which no guard was put runs as before, whatever its shape, on every interpreter
and all arguments, except in two cases: it has no blocks, or the run jumps to a label of no block
and the trap block got this label. Both are errors of the function as it was. If it is not skipped,
such a run comes to the trap block instead, within its limit, and ends there. -/
theorem Session.instrument_siteless {session : Session} {source : FactSource} {report : Report}
    (h : (session.instrument settings source f).result = .ok report) (hsites : report.sites = 0)
    (i : Interpreter) (args : List Nat) :
    let g := (session.instrument settings source f).subject
    let trap := f.freshLabel trapLabel
    (settings.skips f.name = true ∨ ¬ i.Misses f args trap → i.run g args = i.run f args) ∧
    (settings.skips f.name = false → i.Misses f args trap →
      (i.run f args = .error (.emptyFunction f.name) ∨
        i.run f args = .error (.unknownBlock trap)) ∧
      ∃ steps ≤ i.stepLimit, ∃ s, s.label = trap ∧ i.EndsAtTrap g args steps s) := by
  intro g trap
  -- Without sites the function gains at most its trap block.
  have hg : g = if settings.skips f.name then f else f.withBlock (trapBlock trap) :=
    subject_of_siteless h hsites
  constructor
  · intro hcases
    cases hskip : settings.skips f.name with
    | true => rw [hg, hskip, if_pos rfl]
    | false =>
      have hmisses := hcases.resolve_left (by rw [hskip]; decide)
      rw [hg, hskip, if_neg (by decide)]
      exact Interpreter.run_withBlock (f.freshLabel_not_mem trapLabel) hmisses
  · intro hskip hmisses
    refine ⟨hmisses.run_eq, ?_⟩
    have hphis : ∀ instr ∈ (trapBlock trap).instrs, instr.isPhi = false := by
      simp [trapBlock, Instr.isPhi]
    obtain ⟨start, origin, store, steps, hle, hstart, hsteps⟩ :=
      Interpreter.Misses.exists_steps hphis hmisses
    rw [hg, hskip, if_neg (by decide)]
    exact ⟨steps, hle, _, rfl, Interpreter.endsAtTrap_of_steps hstart hsteps rfl⟩

/-- A function whose entry jumps to a label of no block, and to the one that its trap block gets. -/
def astray : Function := ⟨"astray", [], .unit, [], [⟨"entry", [], .goto trapLabel⟩]⟩

/-- A function without blocks. -/
def hollow : Function := ⟨"hollow", [], .unit, [], []⟩

/-- Without its checks, the countdown runs as before, and the function that goes astray comes to its
trap block. -/
theorem Session.instrument_siteless_countdown :
    let settings : Settings := ⟨false, false, [], 100⟩
    let i : Interpreter := ⟨[trapCallee], 100⟩
    i.run (Session.start.instrument settings .inferred countdown).subject [3]
      = i.run countdown [3] ∧
    ∃ steps ≤ 100, ∃ s, s.label = trapLabel ∧
      i.EndsAtTrap (Session.start.instrument settings .inferred astray).subject [] steps s := by
  intro settings i
  have hcountdown : (Session.start.instrument settings .inferred countdown).result = .ok _ := rfl
  have hastray : (Session.start.instrument settings .inferred astray).result = .ok _ := rfl
  refine ⟨(instrument_siteless hcountdown rfl i [3]).1 (.inr ?_),
    ((instrument_siteless hastray rfl i []).2 rfl (.inr rfl)).2⟩
  rintro (⟨hblocks, -⟩ | hrun)
  · cases hblocks
  · cases hrun

/-- Two functions in which no guard was put run in another way than before: they fail for want of a
block, and then trap. -/
theorem Session.instrument_siteless_differs :
    let i : Interpreter := ⟨[trapCallee], 100⟩
    let first := Session.start.instrument Settings.default .inferred hollow
    let second := Session.start.instrument Settings.default .inferred astray
    (∃ report, first.result = .ok report ∧ report.sites = 0) ∧
    i.run hollow [] = .error (.emptyFunction "hollow") ∧
    i.run first.subject [] = .ok (.trapped "trap" none) ∧
    (∃ report, second.result = .ok report ∧ report.sites = 0) ∧
    i.run astray [] = .error (.unknownBlock "trap") ∧
    i.run second.subject [] = .ok (.trapped "trap" (some "entry")) :=
  ⟨⟨_, rfl, rfl⟩, rfl, rfl, ⟨_, rfl, rfl⟩, rfl, rfl⟩

end FactGuard
