import FactGuard.Proofs.Machine.Passage

/-!
# Counting steps

A number of steps after each of which the machine goes on (`State.Steps`), and what it means for
runs with a limit. A run with fewer steps ends at its limit (`Steps.run_of_le`), and one with more
goes on from the state that is reached (`Steps.run_add`). A run that ends before its limit ends in
the same way under every greater limit (`State.run_of_le`, `Interpreter.run_withStepLimit`).
-/

namespace FactGuard

/-- The machine makes `n` steps from one state to another. -/
inductive State.Steps (code : Code) : Nat → State → State → Prop
  | refl (s : State) : Steps code 0 s s
  | step {n : Nat} {s t u : State} : s.next code = .ok (.running t) → Steps code n t u →
      Steps code (n + 1) s u

namespace State

variable {code : Code} {limit n m : Nat} {s t u : State}

theorem Steps.one (h : s.next code = .ok (.running t)) : Steps code 1 s t := .step h (.refl t)

theorem Steps.trans (h : Steps code n s t) (h' : Steps code m t u) : Steps code (n + m) s u := by
  induction h with
  | refl => rwa [Nat.zero_add]
  | @step n s t _ hstep _ ih =>
    rw [Nat.add_right_comm]
    exact .step hstep (ih h')

/-- A run goes on from a state that it reaches. -/
theorem Steps.run_add (h : Steps code n s t) (limit budget : Nat) :
    s.run code limit (n + budget) = t.run code limit budget := by
  induction h with
  | refl => rw [Nat.zero_add]
  | step hstep _ ih =>
    rw [Nat.add_right_comm, State.run, hstep]
    exact ih

/-- A run that does not get beyond a state on its way ends at its limit. -/
theorem Steps.run_of_le (h : Steps code n s t) (limit : Nat) {budget : Nat} (hle : budget ≤ n) :
    s.run code limit budget = .error (.stepLimit limit) := by
  induction h generalizing budget with
  | refl =>
    rw [Nat.le_zero.1 hle]
    rfl
  | step hstep _ ih =>
    cases budget with
    | zero => rfl
    | succ budget =>
      rw [State.run, hstep]
      exact ih (Nat.le_of_succ_le_succ hle)

/-- A run that ends before its limit ends in the same way if it may take more steps. -/
theorem run_of_le {budget more : Nat} (hle : budget ≤ more)
    (h : s.run code limit budget ≠ .error (.stepLimit limit)) (limit' : Nat) :
    s.run code limit' more = s.run code limit budget := by
  -- By induction on the smaller budget, over all states.
  induction budget generalizing s more with
  | zero => exact absurd rfl h
  | succ budget ih =>
    obtain ⟨more, rfl⟩ : ∃ k, more = k + 1 := ⟨more - 1, by omega⟩
    rw [State.run] at h ⊢
    rw [State.run]
    cases hnext : s.next code with
    | error e => rfl
    | ok progress =>
      cases progress with
      | finished outcome => rfl
      | running t =>
        rw [hnext] at h
        exact ih (Nat.le_of_succ_le_succ hle) h

/-- A block without phis is entered with the values held. -/
theorem enter_of_not_phi {block : Block} (h : ∀ instr ∈ block.instrs, instr.isPhi = false)
    (origin : Option String) (store : Store) :
    enter code block origin store
      = .ok ⟨block.label, origin, block.instrs, block.terminator, store⟩ := by
  have hphis : block.phis = [] := by
    refine List.eq_nil_iff_forall_not_mem.2 fun instr hinstr => ?_
    have hphi := List.all_eq_true.1 List.all_takeWhile instr hinstr
    rw [h instr ((List.takeWhile_prefix _).subset hinstr)] at hphi
    cases hphi
  have hbody : block.body = block.instrs := by
    have hinstrs : block.phis ++ block.body = block.instrs := List.takeWhile_append_dropWhile
    rw [← hinstrs, hphis, List.nil_append]
  refine enter_eq_ok_iff.2 ⟨[], by rw [hphis]; rfl, ?_⟩
  rw [hbody]
  rfl

/-- An instruction that is carried out is one step. -/
theorem steps_define {label dest : String} {origin : Option String} {instr : Instr}
    {rest : List Instr} {terminator : Terminator} {store : Store} {v : Nat}
    (htraps : code.traps? instr = false) (h : code.define label store instr = .ok (dest, v)) :
    Steps code 1 ⟨label, origin, instr :: rest, terminator, store⟩
      ⟨label, origin, rest, terminator, store.insert dest v⟩ := by
  refine .one ?_
  rw [next_of_todo_cons rfl htraps, h]
  rfl

end State

/-- A run that ends before its limit ends in the same way under every greater limit. -/
theorem Interpreter.run_withStepLimit {i : Interpreter} {limit : Nat} (hle : i.stepLimit ≤ limit)
    {f : Function} {args : List Nat} (h : i.run f args ≠ .error (.stepLimit i.stepLimit)) :
    (i.withStepLimit limit).run f args = i.run f args := by
  have hstart : (i.withStepLimit limit).start f args = i.start f args := rfl
  unfold Interpreter.run at h ⊢
  rw [hstart]
  cases hcase : i.start f args with
  | error e => rfl
  | ok s =>
    rw [hcase] at h
    exact State.run_of_le hle h limit

end FactGuard
