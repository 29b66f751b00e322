import FactGuard.Proofs.Machine.Faults
import FactGuard.Proofs.Machine.Locality
import FactGuard.Proofs.Machine.Steps

/-!
# Functions with one block more

A block with a new label is appended to a function. A step reads types and values, and only a jump
looks for a block: it finds what it found before, unless it asks for the new label. So runs of the
longer function are those of the shorter one up to a jump to the new label, at which the shorter
function fails and the longer one goes on (`State.run_withBlock`).

A jump is also the only step that fails for want of a block (`State.next_eq_unknownBlock_iff`), so
the error of the shorter function tells that its run has come to such a jump.
-/

namespace FactGuard

/-! ## Jumps to no block -/

/-- The error is not a jump to a label of no block. -/
def EvalError.FindsBlock : EvalError → Prop
  | unknownBlock _ => False
  | _ => True

section FindsBlock

open EvalError (FindsBlock)

variable {code : Code} {store : Store}

/-- A computation whose errors stay the same when labels change does not miss a block. -/
theorem FailsOnly.findsBlock {α : Type} {x : Except EvalError α}
    (h : ∀ home, x.mapError (EvalError.relabel home) = x) : FailsOnly FindsBlock x := by
  rintro e rfl
  cases e with
  | unknownBlock label =>
    -- Every label can be changed, if only by a character more.
    have hlabel : label ++ "'" = label :=
      EvalError.unknownBlock.inj (Except.error.inj (h fun label => label ++ "'"))
    exact absurd (congrArg String.length hlabel) (by simp)
  | _ => trivial

theorem Code.define_findsBlock (label : String) (instr : Instr) :
    FailsOnly FindsBlock (code.define label store instr) := by
  cases hphi : instr.isPhi with
  | false => exact .findsBlock fun home => EvalError.mapError_define home code store label hphi
  | true =>
    cases instr with
    | phi dest values => exact .error trivial
    | _ => cases hphi

end FindsBlock

namespace State

variable {code : Code} {s : State} {label : String}

/-- A block is missed by a jump to a label of no block only. -/
theorem leave_eq_unknownBlock_iff :
    s.leave code = .error (.unknownBlock label) ↔
      s.exit code = .ok (.jump label) ∧ code.block? label = none := by
  refine ⟨fun h => ?_, fun ⟨hexit, hblock⟩ => leave_of_missing hexit hblock⟩
  rcases leave_cases code s with ⟨e, hexit, hleave⟩ | ⟨outcome, -, hleave⟩ |
    ⟨target, hexit, ⟨hblock, hleave⟩ | ⟨block, -, hleave⟩⟩
  · cases hleave.symm.trans h
    exact (exit_local s _ hexit).elim
  · cases hleave.symm.trans h
  · cases hleave.symm.trans h
    exact ⟨hexit, hblock⟩
  · exact (enter_local block _ _ (map_eq_error.1 (hleave.symm.trans h))).elim

/-- Of all steps, only a jump can miss a block. -/
theorem next_eq_unknownBlock_iff :
    s.next code = .error (.unknownBlock label) ↔
      s.todo = [] ∧ s.exit code = .ok (.jump label) ∧ code.block? label = none := by
  rcases next_cases code s with
    ⟨htodo, hnext⟩ | ⟨instr, rest, htodo, ⟨-, hnext⟩ | ⟨-, hnext⟩⟩
  · rw [hnext, leave_eq_unknownBlock_iff]
    exact (and_iff_right htodo).symm
  · rw [hnext, htodo]
    exact ⟨fun h => (nomatch h), fun h => nomatch h.1⟩
  · rw [hnext, htodo, map_eq_error]
    exact ⟨fun h => (Code.define_findsBlock s.label instr _ h).elim, fun h => nomatch h.1⟩

end State

/-! ## One block more -/

/-- The code with one block more, at the end. -/
def Code.withBlock (code : Code) (block : Block) : Code :=
  { code with blocks := code.blocks ++ [block] }

namespace Code

variable {code : Code} {block : Block}

/-- The new block is found by its label, and nothing else is found in another way. -/
theorem block?_withBlock (code : Code) (block : Block) (label : String) :
    (code.withBlock block).block? label
      = if block.label = label then some block else code.block? label := by
  unfold block? withBlock
  rw [List.foldl_append]
  rfl

theorem phiValues_withBlock (pred : String) (store : Store) (instrs : List Instr) :
    (code.withBlock block).phiValues pred store instrs = code.phiValues pred store instrs := by
  induction instrs with
  | nil => rfl
  | cons instr rest ih =>
    cases instr with
    | phi dest values =>
      unfold phiValues
      rw [ih]
      rfl
    | _ => rfl

end Code

namespace State

variable {code : Code} {block : Block} {s : State} {limit budget : Nat}

theorem enter_withBlock (target : Block) (origin : Option String) (store : Store) :
    enter (code.withBlock block) target origin store = enter code target origin store := by
  unfold enter
  rw [Code.phiValues_withBlock]

/-- The block ends in a jump to the label, and control is there. -/
def JumpsTo (s : State) (code : Code) (label : String) : Prop :=
  s.todo = [] ∧ s.exit code = .ok (.jump label)

/-- With one block more, a step is the same unless it jumps there. -/
theorem next_withBlock (hjump : ¬ s.JumpsTo code block.label) :
    s.next (code.withBlock block) = s.next code := by
  cases htodo : s.todo with
  | cons instr rest =>
    unfold next
    rw [htodo]
    rfl
  | nil =>
    have hexit : s.exit (code.withBlock block) = s.exit code := rfl
    rw [next_of_todo_nil htodo, next_of_todo_nil htodo]
    unfold leave
    rw [hexit]
    cases hcase : s.exit code with
    | error e => rfl
    | ok exit =>
      cases exit with
      | leave outcome => rfl
      | jump target =>
        have hne : block.label ≠ target := fun h => hjump ⟨htodo, by rw [hcase, h]⟩
        simp only [bind, Except.bind, Code.block?_withBlock, if_neg hne, enter_withBlock]

/-- A jump to the new block enters it. -/
theorem JumpsTo.next_withBlock (h : s.JumpsTo code block.label) :
    s.next (code.withBlock block)
      = (enter code block (some s.label) s.store).map .running := by
  have hexit : s.exit (code.withBlock block) = .ok (.jump block.label) := h.2
  have hblock : (code.withBlock block).block? block.label = some block := by
    rw [Code.block?_withBlock, if_pos rfl]
  rw [next_of_todo_nil h.1, leave_of_jump hexit hblock, enter_withBlock]

/-- A run that does not fail for want of the new block is the same with the block. -/
theorem run_withBlock (hnew : code.block? block.label = none)
    (h : s.run code limit budget ≠ .error (.unknownBlock block.label)) :
    s.run (code.withBlock block) limit budget = s.run code limit budget := by
  induction budget generalizing s with
  | zero => rfl
  | succ budget ih =>
    unfold State.run at h ⊢
    -- A jump to the new block would be the failure that is excluded.
    have hjump : ¬ s.JumpsTo code block.label := by
      rintro ⟨htodo, hexit⟩
      rw [next_eq_unknownBlock_iff.2 ⟨htodo, hexit, hnew⟩] at h
      exact h rfl
    rw [next_withBlock hjump]
    cases hnext : s.next code with
    | error e => rfl
    | ok progress =>
      cases progress with
      | finished outcome => rfl
      | running t =>
        rw [hnext] at h
        exact ih h

/-- A run that fails for want of the new block comes to a jump there with steps left to make. -/
theorem exists_steps_withBlock
    (h : s.run code limit budget = .error (.unknownBlock block.label)) :
    ∃ n < budget, ∃ t, Steps (code.withBlock block) n s t ∧ t.JumpsTo code block.label := by
  induction budget generalizing s with
  | zero => cases h
  | succ budget ih =>
    by_cases hjump : s.JumpsTo code block.label
    · exact ⟨0, Nat.succ_pos budget, s, .refl s, hjump⟩
    · -- The step is the same with the block, and it does not fail for want of it.
      unfold State.run at h
      cases hnext : s.next code with
      | error e =>
        rw [hnext] at h
        cases h
        obtain ⟨htodo, hexit, -⟩ := next_eq_unknownBlock_iff.1 hnext
        exact absurd ⟨htodo, hexit⟩ hjump
      | ok progress =>
        rw [hnext] at h
        cases progress with
        | finished outcome => cases h
        | running t =>
          obtain ⟨n, hn, u, hsteps, hu⟩ := ih h
          rw [← next_withBlock hjump] at hnext
          exact ⟨n + 1, Nat.succ_lt_succ hn, u, .step hnext hsteps, hu⟩

end State

/-- The function with one block more, at the end. -/
def Function.withBlock (f : Function) (block : Block) : Function :=
  { f with blocks := f.blocks ++ [block] }

namespace Interpreter

variable {i : Interpreter} {f : Function} {args : List Nat} {block : Block}

/-- A run of the function misses a block with the label: it jumps there, or it looks for an entry
and there is none. -/
def Misses (i : Interpreter) (f : Function) (args : List Nat) (label : String) : Prop :=
  (f.blocks = [] ∧ f.params.length = args.length) ∨
    i.run f args = .error (.unknownBlock label)

/-- What a run fails with that misses a block. -/
theorem Misses.run_eq {label : String} (h : i.Misses f args label) :
    i.run f args = .error (.emptyFunction f.name) ∨
      i.run f args = .error (.unknownBlock label) := by
  refine h.imp_left fun ⟨hblocks, hargs⟩ => ?_
  unfold run start
  rw [if_neg (not_not_intro hargs), hblocks]
  rfl

theorem code_withBlock (i : Interpreter) (f : Function) (block : Block) :
    i.code (f.withBlock block) = (i.code f).withBlock block := rfl

/-- A label of no block finds none. -/
theorem block?_eq_none (i : Interpreter) {label : String} (h : label ∉ f.labels) :
    (i.code f).block? label = none := by
  rw [Code.block?_eq_last?, Bindings.last?_eq_none_iff]
  simpa [Bindings.names, code, Function.labels] using h

/-- With as many arguments as parameters, a run starts by entering the first block. -/
theorem start_of_entry (hargs : f.params.length = args.length) {entry : Block} {rest : List Block}
    (hblocks : f.blocks = entry :: rest) :
    i.start f args = State.enter (i.code f) entry none (arguments f args) := by
  unfold start
  rw [if_neg (not_not_intro hargs), hblocks]

/-- A run starts in the same way if there is an entry. -/
theorem start_withBlock (h : f.blocks = [] → f.params.length ≠ args.length) :
    i.start (f.withBlock block) args = i.start f args := by
  by_cases hargs : f.params.length = args.length
  · cases hblocks : f.blocks with
    | nil => exact absurd hargs (h hblocks)
    | cons entry rest =>
      have hlonger : (f.withBlock block).blocks = entry :: (rest ++ [block]) := by
        rw [Function.withBlock, hblocks, List.cons_append]
      rw [start_of_entry hargs hblocks, start_of_entry (f := f.withBlock block) hargs hlonger,
        code_withBlock]
      exact State.enter_withBlock entry none _
  · unfold start
    rw [if_pos hargs]
    exact if_pos hargs

/-- A run that does not miss the new block is the same with the block. -/
theorem run_withBlock (hnew : block.label ∉ f.labels) (h : ¬ i.Misses f args block.label) :
    i.run (f.withBlock block) args = i.run f args := by
  have hstart : i.start (f.withBlock block) args = i.start f args :=
    start_withBlock fun hblocks hargs => h (.inl ⟨hblocks, hargs⟩)
  have hrun : i.run f args ≠ .error (.unknownBlock block.label) := fun hrun => h (.inr hrun)
  unfold run at hrun ⊢
  rw [hstart]
  cases hcase : i.start f args with
  | error e => rfl
  | ok s =>
    rw [hcase] at hrun
    exact State.run_withBlock (i.block?_eq_none hnew) hrun

/-- A run that misses the new block comes to it within its limit if it is there. -/
theorem Misses.exists_steps (hphis : ∀ instr ∈ block.instrs, instr.isPhi = false)
    (h : i.Misses f args block.label) :
    ∃ start origin store, ∃ steps ≤ i.stepLimit, i.start (f.withBlock block) args = .ok start ∧
      State.Steps (i.code (f.withBlock block)) steps start
        ⟨block.label, origin, block.instrs, block.terminator, store⟩ := by
  rcases h with ⟨hblocks, hargs⟩ | hrun
  · -- The new block is the entry.
    have hentry : (f.withBlock block).blocks = [block] := by
      rw [Function.withBlock, hblocks, List.nil_append]
    refine ⟨_, none, arguments f args, 0, Nat.zero_le _, ?_, .refl _⟩
    rw [start_of_entry (f := f.withBlock block) hargs hentry]
    exact State.enter_of_not_phi hphis none _
  · unfold run at hrun
    cases hstart : i.start f args with
    | error e =>
      rw [hstart] at hrun
      cases hrun
      exact (i.start_local f args _ hstart).elim
    | ok start =>
      rw [hstart] at hrun
      -- The run comes to the jump with a step left, which enters the block.
      obtain ⟨n, hn, s, hsteps, hjump⟩ := State.exists_steps_withBlock hrun
      have hlonger : i.start (f.withBlock block) args = .ok start := by
        rw [start_withBlock fun hblocks => ?_, hstart]
        obtain ⟨entry, hentry, -⟩ := exists_of_start_eq_ok hstart
        rw [hblocks] at hentry
        cases hentry
      have hnext := hjump.next_withBlock
      rw [State.enter_of_not_phi hphis] at hnext
      exact ⟨start, some s.label, s.store, n + 1, hn, hlonger, hsteps.trans (.one hnext)⟩

end Interpreter

end FactGuard
