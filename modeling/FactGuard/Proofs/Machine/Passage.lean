import FactGuard.Proofs.Machine.Values
import FactGuard.Proofs.Program.Lookup

/-!
# What a run passes through

The states of a run are those that the machine reaches from the start (`Interpreter.Visits`), and
each of them stands in a block of the function (`State.Within`). A property of the values held is an
invariant if it holds of the arguments, and if the phis of a block and the other instructions
preserve it (`Interpreter.Visits.invariant`).
-/

namespace FactGuard

/-! ## Steps -/

namespace State

variable {code : Code} {s t : State}

/-- A block is entered with the values of its phis. -/
theorem enter_eq_ok_iff {block : Block} {origin : Option String} {store : Store} :
    enter code block origin store = .ok t ↔
      ∃ values, code.phiValues (origin.getD "") store block.phis = .ok values ∧
        t = ⟨block.label, origin, block.body, block.terminator, store.insertAll values⟩ := by
  unfold enter
  rw [bind_eq_ok]
  exact exists_congr fun values => and_congr_right fun _ =>
    ⟨fun h => by cases h; rfl, fun h => by rw [h]; rfl⟩

/-- Only its phis can keep a block from being entered. -/
theorem enter_eq_error_iff {block : Block} {origin : Option String} {store : Store}
    {e : EvalError} :
    enter code block origin store = .error e ↔
      code.phiValues (origin.getD "") store block.phis = .error e := by
  unfold enter
  cases code.phiValues (origin.getD "") store block.phis <;>
    simp [bind, Except.bind, pure, Except.pure]

/-- A call of a callee that traps ends the run. -/
theorem next_of_traps {instr : Instr} {rest : List Instr} (htodo : s.todo = instr :: rest)
    (htraps : code.traps? instr = true) :
    s.next code = .ok (.finished (.trapped s.label s.origin)) := by
  unfold next
  rw [htodo]
  exact if_pos htraps

/-- Any other instruction is carried out. -/
theorem next_of_todo_cons {instr : Instr} {rest : List Instr} (htodo : s.todo = instr :: rest)
    (htraps : code.traps? instr = false) :
    s.next code = (code.define s.label s.store instr).map fun entry =>
      .running { s with todo := rest, store := s.store.insert entry.1 entry.2 } := by
  unfold next
  rw [htodo]
  dsimp only
  rw [htraps, if_neg (by decide)]
  cases code.define s.label s.store instr <;> rfl

/-- At its end, a block is left. -/
theorem next_of_todo_nil (htodo : s.todo = []) : s.next code = s.leave code := by
  unfold next
  rw [htodo]

/-- A block whose terminator fails is not left. -/
theorem leave_of_error {e : EvalError} (hexit : s.exit code = .error e) :
    s.leave code = .error e := by
  unfold leave
  rw [hexit]
  rfl

/-- A terminator that leaves the function ends the run. -/
theorem leave_of_leave {outcome : Outcome} (hexit : s.exit code = .ok (.leave outcome)) :
    s.leave code = .ok (.finished outcome) := by
  unfold leave
  rw [hexit]
  rfl

/-- A jump leads into the block of its label. -/
theorem leave_of_jump {target : String} {block : Block} (hexit : s.exit code = .ok (.jump target))
    (hblock : code.block? target = some block) :
    s.leave code = (enter code block (some s.label) s.store).map .running := by
  unfold leave
  rw [hexit]
  simp only [bind, Except.bind, hblock]
  cases enter code block (some s.label) s.store <;> rfl

/-- A jump to a label of no block fails. -/
theorem leave_of_missing {target : String} (hexit : s.exit code = .ok (.jump target))
    (hblock : code.block? target = none) : s.leave code = .error (.unknownBlock target) := by
  unfold leave
  rw [hexit]
  simp only [bind, Except.bind, hblock]
  rfl

/-- The ways to leave a block: the terminator fails, or it leaves the function, or it jumps, to a
block or to none. -/
theorem leave_cases (code : Code) (s : State) :
    (∃ e, s.exit code = .error e ∧ s.leave code = .error e) ∨
    (∃ outcome, s.exit code = .ok (.leave outcome) ∧ s.leave code = .ok (.finished outcome)) ∨
    ∃ target, s.exit code = .ok (.jump target) ∧
      (code.block? target = none ∧ s.leave code = .error (.unknownBlock target) ∨
        ∃ block, code.block? target = some block ∧
          s.leave code = (enter code block (some s.label) s.store).map .running) := by
  cases hexit : s.exit code with
  | error e => exact .inl ⟨e, rfl, leave_of_error hexit⟩
  | ok exit =>
    cases exit with
    | leave outcome => exact .inr (.inl ⟨outcome, rfl, leave_of_leave hexit⟩)
    | jump target =>
      refine .inr (.inr ⟨target, rfl, ?_⟩)
      cases hblock : code.block? target with
      | none => exact .inl ⟨rfl, leave_of_missing hexit hblock⟩
      | some block => exact .inr ⟨block, rfl, leave_of_jump hexit hblock⟩

/-- What a step does: leave the block at its end, or trap, or carry out an instruction. -/
theorem next_cases (code : Code) (s : State) :
    (s.todo = [] ∧ s.next code = s.leave code) ∨
    ∃ instr rest, s.todo = instr :: rest ∧
      (code.traps? instr = true ∧ s.next code = .ok (.finished (.trapped s.label s.origin)) ∨
        code.traps? instr = false ∧
          s.next code = (code.define s.label s.store instr).map fun entry =>
            .running { s with todo := rest, store := s.store.insert entry.1 entry.2 }) := by
  cases htodo : s.todo with
  | nil => exact .inl ⟨rfl, next_of_todo_nil htodo⟩
  | cons instr rest =>
    refine .inr ⟨instr, rest, rfl, ?_⟩
    cases htraps : code.traps? instr with
    | true => exact .inl ⟨rfl, next_of_traps htodo htraps⟩
    | false => exact .inr ⟨rfl, next_of_todo_cons htodo htraps⟩

/-- A step that goes on carries out an instruction, or enters the block to which the terminator
leads. -/
theorem next_eq_running (h : s.next code = .ok (.running t)) :
    (∃ instr rest dest v, s.todo = instr :: rest ∧ code.traps? instr = false ∧
      code.define s.label s.store instr = .ok (dest, v) ∧
      t = { s with todo := rest, store := s.store.insert dest v }) ∨
    (s.todo = [] ∧ ∃ target block, s.exit code = .ok (.jump target) ∧
      code.block? target = some block ∧ enter code block (some s.label) s.store = .ok t) := by
  rcases next_cases code s with
    ⟨htodo, hnext⟩ | ⟨instr, rest, htodo, ⟨-, hnext⟩ | ⟨htraps, hnext⟩⟩
  · rcases leave_cases code s with ⟨e, -, hleave⟩ | ⟨outcome, -, hleave⟩ |
      ⟨target, hexit, ⟨-, hleave⟩ | ⟨block, hblock, hleave⟩⟩
    · cases hleave.symm.trans (hnext.symm.trans h)
    · cases hleave.symm.trans (hnext.symm.trans h)
    · cases hleave.symm.trans (hnext.symm.trans h)
    · obtain ⟨t', henter, ht⟩ := map_eq_ok.1 (hleave.symm.trans (hnext.symm.trans h))
      cases ht
      exact .inr ⟨htodo, target, block, hexit, hblock, henter⟩
  · cases hnext.symm.trans h
  · obtain ⟨⟨dest, v⟩, hdefine, ht⟩ := map_eq_ok.1 (hnext.symm.trans h)
    cases ht
    exact .inl ⟨instr, rest, dest, v, htodo, htraps, hdefine, rfl⟩

/-- A step that ends the run is a call that traps, or follows a terminator that leaves the function.
-/
theorem next_eq_finished {outcome : Outcome} (h : s.next code = .ok (.finished outcome)) :
    (∃ instr rest, s.todo = instr :: rest ∧ code.traps? instr = true ∧
      outcome = .trapped s.label s.origin) ∨
    (s.todo = [] ∧ s.exit code = .ok (.leave outcome)) := by
  rcases next_cases code s with
    ⟨htodo, hnext⟩ | ⟨instr, rest, htodo, ⟨htraps, hnext⟩ | ⟨-, hnext⟩⟩
  · rcases leave_cases code s with ⟨e, -, hleave⟩ | ⟨outcome', hexit, hleave⟩ |
      ⟨target, -, ⟨-, hleave⟩ | ⟨block, -, hleave⟩⟩
    · cases hleave.symm.trans (hnext.symm.trans h)
    · cases hleave.symm.trans (hnext.symm.trans h)
      exact .inr ⟨htodo, hexit⟩
    · cases hleave.symm.trans (hnext.symm.trans h)
    · obtain ⟨t, -, ht⟩ := map_eq_ok.1 (hleave.symm.trans (hnext.symm.trans h))
      cases ht
  · cases hnext.symm.trans h
    exact .inl ⟨instr, rest, htodo, htraps, rfl⟩
  · obtain ⟨entry, -, ht⟩ := map_eq_ok.1 (hnext.symm.trans h)
    cases ht

/-- A terminator that leaves the function is a return. -/
theorem exit_eq_leave {outcome : Outcome} (h : s.exit code = .ok (.leave outcome)) :
    (s.terminator = .ret none ∧ outcome = .returned none) ∨
    ∃ operand v, s.terminator = .ret (some operand) ∧
      s.store.operand code.result operand = .ok v ∧ outcome = .returned (some v) := by
  unfold exit at h
  cases hterminator : s.terminator with
  | ret value =>
    rw [hterminator] at h
    cases value with
    | none =>
      cases h
      exact .inl ⟨rfl, rfl⟩
    | some operand =>
      obtain ⟨v, hv, h⟩ := bind_eq_ok.1 h
      cases h
      exact .inr ⟨operand, v, rfl, hv, rfl⟩
  | goto target | unreachable =>
    rw [hterminator] at h
    cases h
  | branch cond ifTrue ifFalse =>
    rw [hterminator] at h
    obtain ⟨_, -, h⟩ := bind_eq_ok.1 h
    cases h
  | switch operand cases default =>
    rw [hterminator] at h
    obtain ⟨_, -, h⟩ := bind_eq_ok.1 h
    obtain ⟨_, -, h⟩ := bind_eq_ok.1 h
    cases h

/-- The machine stands in a block of the function. -/
def Within (s : State) (f : Function) : Prop :=
  ∃ block ∈ f.blocks, s.label = block.label ∧ s.terminator = block.terminator ∧
    s.todo <:+ block.body

/-- What is left of a block are instructions of the block. -/
theorem Within.exists_mem {f : Function} (h : s.Within f) {instr : Instr}
    (hinstr : instr ∈ s.todo) :
    ∃ block ∈ f.blocks, instr ∈ block.instrs := by
  obtain ⟨block, hblock, -, -, hsuffix⟩ := h
  exact ⟨block, hblock, (List.dropWhile_suffix _).subset (hsuffix.subset hinstr)⟩

theorem enter_within {f : Function} {block : Block} (hblock : block ∈ f.blocks)
    {origin : Option String} {store : Store} (h : enter code block origin store = .ok t) :
    t.Within f := by
  obtain ⟨values, -, rfl⟩ := enter_eq_ok_iff.1 h
  exact ⟨block, hblock, rfl, rfl, List.suffix_refl _⟩

end State

/-- The block that a label finds is one of the blocks. -/
theorem Code.mem_of_block? {code : Code} {label : String} {block : Block}
    (h : code.block? label = some block) : block ∈ code.blocks := by
  rw [Code.block?_eq_last?] at h
  obtain ⟨b, hb, heq⟩ := List.mem_map.1 (Bindings.mem_of_last?_eq_some h)
  cases heq
  exact hb

/-! ## Runs -/

namespace Interpreter

/-- The states that a run passes through, whatever number of steps it may take. -/
inductive Visits (i : Interpreter) (f : Function) (args : List Nat) : State → Prop
  | start {s : State} : i.start f args = .ok s → i.Visits f args s
  | next {s t : State} :
    i.Visits f args s → s.next (i.code f) = .ok (.running t) → i.Visits f args t

variable {i : Interpreter} {f : Function} {args : List Nat} {s : State}

/-- A run starts by entering the first block with the arguments. -/
theorem exists_of_start_eq_ok (h : i.start f args = .ok s) :
    ∃ entry ∈ f.blocks, State.enter (i.code f) entry none (arguments f args) = .ok s := by
  unfold start at h
  split_ifs at h
  cases hblocks : f.blocks with
  | nil =>
    rw [hblocks] at h
    cases h
  | cons entry rest =>
    rw [hblocks] at h
    exact ⟨entry, List.mem_cons_self, h⟩

/-- A run stays in the blocks of the function. -/
theorem Visits.within (h : i.Visits f args s) : s.Within f := by
  induction h with
  | start h =>
    obtain ⟨entry, hentry, h⟩ := exists_of_start_eq_ok h
    exact State.enter_within hentry h
  | next _ h ih =>
    rcases State.next_eq_running h with
      ⟨instr, rest, dest, v, htodo, -, -, rfl⟩ | ⟨-, target, block, -, hblock, h⟩
    · obtain ⟨block, hblock, hlabel, hterminator, hsuffix⟩ := ih
      rw [htodo] at hsuffix
      exact ⟨block, hblock, hlabel, hterminator, (List.suffix_cons _ _).trans hsuffix⟩
    · exact State.enter_within (Code.mem_of_block? hblock) h

/-- A property of the values held is kept through a run if the arguments have it, and if what the
phis of a block and the other instructions bind preserves it. -/
theorem Visits.invariant {P : Store → Prop} (harguments : P (arguments f args))
    (hphis : ∀ block ∈ f.blocks, ∀ pred store values, P store →
      (i.code f).phiValues pred store block.phis = .ok values → P (store.insertAll values))
    (hdefine : ∀ s, i.Visits f args s → P s.store → ∀ instr rest dest v, s.todo = instr :: rest →
      (∃ block ∈ f.blocks, instr ∈ block.instrs) →
      (i.code f).define s.label s.store instr = .ok (dest, v) → P (s.store.insert dest v))
    (h : i.Visits f args s) : P s.store := by
  have henter : ∀ {block : Block} {origin store s}, block ∈ f.blocks → P store →
      State.enter (i.code f) block origin store = .ok s → P s.store := fun hblock hstore h => by
    obtain ⟨values, hvalues, rfl⟩ := State.enter_eq_ok_iff.1 h
    exact hphis _ hblock _ _ _ hstore hvalues
  -- By induction on the run. Blocks are entered with their phis, and instructions are carried out.
  induction h with
  | start h =>
    obtain ⟨entry, hentry, h⟩ := exists_of_start_eq_ok h
    exact henter hentry harguments h
  | next hvisits h ih =>
    rcases State.next_eq_running h with
      ⟨instr, rest, dest, v, htodo, -, hv, rfl⟩ | ⟨-, target, block, -, hblock, h⟩
    · refine hdefine _ hvisits ih instr rest dest v htodo ?_ hv
      exact hvisits.within.exists_mem (by rw [htodo]; exact List.mem_cons_self)
    · exact henter (Code.mem_of_block? hblock) ih h

/-- The arguments are bound to parameters, each cut to its width. -/
theorem exists_of_arguments {name : String} {v : Nat}
    (h : (arguments f args).get? name = some v) :
    ∃ ty, (name, ty) ∈ f.params ∧ v < modulus ty.bits := by
  rcases Store.get?_insertAll h with hmem | hnil
  · rw [List.mem_iff_getElem?] at hmem
    obtain ⟨k, hk⟩ := hmem
    obtain ⟨param, arg, hparam, -, heq⟩ := List.getElem?_zipWith_eq_some.1 hk
    cases heq
    exact ⟨param.2, List.mem_of_getElem? hparam, param.2.wrap_lt arg⟩
  · cases hnil

/-- The arguments are words of the types of their parameters. -/
theorem arguments_typed (hf : f.Typed) : (arguments f args).Typed f.valueType? := by
  intro name v hget
  obtain ⟨ty, hparam, hlt⟩ := exists_of_arguments hget
  exact ⟨ty, Bindings.get?_eq_some_of_mem hf.names_nodup (List.mem_append_left _ hparam), hlt⟩

/-- Every value that a run of a typed function holds is a word of its type. -/
theorem Visits.typed (hf : f.Typed) (h : i.Visits f args s) : s.store.Typed f.valueType? := by
  refine h.invariant (P := fun store => store.Typed f.valueType?) (arguments_typed hf) ?_ ?_
  · intro block hblock pred store values hstore hvalues
    refine hstore.insertAll (hf.phiValues_lt hstore (fun instr hinstr => ?_) hvalues)
    exact hf.fitsTypes block hblock instr ((List.takeWhile_prefix _).subset hinstr)
  · rintro s - hstore instr rest dest v - ⟨block, hblock, hinstr⟩ hv
    exact hstore.insert (hf.define_lt hstore (hf.fitsTypes block hblock instr hinstr) hv)

end Interpreter

end FactGuard
