import FactGuard.Proofs.Machine.Faults
import FactGuard.Proofs.Machine.Steps

/-!
# Results of runs

A function and its arguments determine one run, which goes on for ever or comes to a state that ends
it (`State.Ends`). A limit cuts this run: above the number of steps to that state it has the result
of the state, and otherwise it is out of steps (`State.run_cases`, `Interpreter.run_of_ends`). So
whatever holds of the states that a run passes through holds of its result, under every limit
(`Interpreter.exists_run_eq_iff`), and a result other than the limit does not change when the limit
is raised (`Interpreter.run_stable`).

Of a typed function the values held are words of their types, and so is what it returns
(`Interpreter.values_below`).
-/

namespace FactGuard

namespace State

variable {code : Code} {limit n : Nat} {s t : State} {result : Except EvalError Outcome}

/-- A step from the state ends the run with a result. -/
def Ends (code : Code) (s : State) (result : Except EvalError Outcome) : Prop :=
  s.next code = result.map .finished

/-- A run that may take one more step from a state that ends it has the result of that state. -/
theorem Ends.run_succ (h : s.Ends code result) (limit budget : Nat) :
    s.run code limit (budget + 1) = result := by
  rw [State.run, h]
  cases result <;> rfl

/-- A run that is on its way to a state that ends it has the result of that state if it may take one
more step there, and is out of steps if not. -/
theorem Steps.run_of_ends (hsteps : Steps code n s t) (hends : t.Ends code result)
    (limit budget : Nat) :
    s.run code limit budget = if budget ≤ n then .error (.stepLimit limit) else result := by
  split_ifs with hle
  · exact hsteps.run_of_le limit hle
  · obtain ⟨left, rfl⟩ : ∃ left, budget = n + (left + 1) := ⟨budget - n - 1, by omega⟩
    rw [hsteps.run_add, hends.run_succ]

/-- A run with a limit is out of steps, or it comes within its limit to a state that ends it. -/
theorem run_cases (code : Code) (limit budget : Nat) (s : State) :
    s.run code limit budget = .error (.stepLimit limit) ∨
      ∃ n t, n < budget ∧ Steps code n s t ∧ t.Ends code (s.run code limit budget) := by
  -- By induction on the budget, over all states, because a step changes the state.
  induction budget generalizing s with
  | zero => exact .inl rfl
  | succ budget ih =>
    cases hnext : s.next code with
    | error e =>
      have hends : s.Ends code (.error e) := hnext
      exact .inr ⟨0, s, Nat.succ_pos _, .refl s, by rwa [hends.run_succ]⟩
    | ok progress =>
      cases progress with
      | finished outcome =>
        have hends : s.Ends code (.ok outcome) := hnext
        exact .inr ⟨0, s, Nat.succ_pos _, .refl s, by rwa [hends.run_succ]⟩
      | running t =>
        have hrun : s.run code limit (budget + 1) = t.run code limit budget := by
          rw [State.run, hnext]
        rw [hrun]
        refine (ih t).imp_right ?_
        rintro ⟨n, u, hlt, hsteps, hends⟩
        exact ⟨n + 1, u, Nat.succ_lt_succ hlt, .step hnext hsteps, hends⟩

/-- No state ends a run for want of steps. -/
theorem Ends.ne_stepLimit (h : s.Ends code result) (limit : Nat) :
    result ≠ .error (.stepLimit limit) := by
  rintro rfl
  exact s.next_ne_stepLimit limit h

/-- A run that is out of steps says what its limit is. -/
theorem eq_of_run_eq_stepLimit {budget limit' : Nat}
    (h : s.run code limit budget = .error (.stepLimit limit')) : limit' = limit := by
  rcases run_cases code limit budget s with hlimit | ⟨n, t, -, -, hends⟩
  · cases hlimit.symm.trans h
    rfl
  · exact absurd h (hends.ne_stepLimit limit')

/-- A state that ends a run by a return stands at the end of a block that returns. -/
theorem Ends.exists_ret {v : Nat} (h : s.Ends code (.ok (.returned (some v)))) :
    ∃ operand, s.terminator = .ret (some operand) ∧
      s.store.operand code.result operand = .ok v := by
  have hnext : s.next code = .ok (.finished (.returned (some v))) := h
  rcases next_eq_finished hnext with ⟨instr, rest, -, -, htrapped⟩ | ⟨-, hexit⟩
  · cases htrapped
  · rcases exit_eq_leave hexit with ⟨-, hnone⟩ | ⟨operand, v', hterminator, hvalue, hsome⟩
    · cases hnone
    · cases hsome
      exact ⟨operand, hterminator, hvalue⟩

end State

namespace Interpreter

variable {i : Interpreter} {f : Function} {args : List Nat} {s : State}

/-- The states that a run passes through are those that steps from its start lead to. -/
theorem visits_iff : i.Visits f args s ↔
    ∃ start n, i.start f args = .ok start ∧ State.Steps (i.code f) n start s := by
  -- `Visits` grows at its end and `Steps` at its start, so each induction adds a step of the other.
  constructor
  · intro h
    induction h with
    | @start s h => exact ⟨s, 0, h, .refl s⟩
    | next _ hnext ih =>
      obtain ⟨start, n, hstart, hsteps⟩ := ih
      exact ⟨start, n + 1, hstart, hsteps.trans (.one hnext)⟩
  · rintro ⟨start, n, hstart, hsteps⟩
    have hvisits : i.Visits f args start := .start hstart
    clear hstart
    induction hsteps with
    | refl => exact hvisits
    | step hnext _ ih => exact ih (.next hvisits hnext)

/-- A run that comes to a state which ends it has the result of that state under every limit above
the number of steps that lead there, and is out of steps under every other. -/
theorem run_of_ends {start : State} {steps : Nat} {result : Except EvalError Outcome}
    (hstart : i.start f args = .ok start) (hsteps : State.Steps (i.code f) steps start s)
    (hends : s.Ends (i.code f) result) (limit : Nat) :
    (i.withStepLimit limit).run f args
      = if limit ≤ steps then .error (.stepLimit limit) else result := by
  have hrun : (i.withStepLimit limit).run f args
      = i.start f args >>= fun s => s.run (i.code f) limit limit := rfl
  rw [hrun, hstart]
  exact hsteps.run_of_ends hends limit limit

/-- What a run with some limit results in, other than the limit, is what the run fails to start with
or what a state that it passes through ends it with. -/
theorem exists_run_eq_iff (i : Interpreter) (f : Function) (args : List Nat)
    {result : Except EvalError Outcome} (hresult : ∀ limit, result ≠ .error (.stepLimit limit)) :
    (∃ limit, (i.withStepLimit limit).run f args = result) ↔
      (∃ e, i.start f args = .error e ∧ result = .error e) ∨
        ∃ s, i.Visits f args s ∧ s.Ends (i.code f) result := by
  have hrun : ∀ limit, (i.withStepLimit limit).run f args
      = i.start f args >>= fun s => s.run (i.code f) limit limit := fun _ => rfl
  constructor
  · rintro ⟨limit, rfl⟩
    rw [hrun] at hresult ⊢
    cases hstart : i.start f args with
    | error e => exact .inl ⟨e, rfl, rfl⟩
    | ok s =>
      rw [hstart] at hresult
      rcases State.run_cases (i.code f) limit limit s with hlimit | ⟨n, t, -, hsteps, hends⟩
      · exact absurd hlimit (hresult limit)
      · exact .inr ⟨t, visits_iff.2 ⟨s, n, hstart, hsteps⟩, hends⟩
  · rintro (⟨e, hstart, rfl⟩ | ⟨t, hvisits, hends⟩)
    · exact ⟨0, by rw [hrun, hstart]; rfl⟩
    · -- The limit allows for the steps to the state and for the step that ends the run.
      obtain ⟨s, n, hstart, hsteps⟩ := visits_iff.1 hvisits
      refine ⟨n + 1, ?_⟩
      rw [run_of_ends hstart hsteps hends, if_neg (by omega)]

/-- A run that is out of steps says what its limit is. -/
theorem eq_of_run_eq_stepLimit {limit : Nat} (h : i.run f args = .error (.stepLimit limit)) :
    limit = i.stepLimit := by
  unfold run at h
  cases hstart : i.start f args with
  | error e =>
    rw [hstart] at h
    cases h
    exact (i.start_ordinary f args _ hstart).elim
  | ok s =>
    rw [hstart] at h
    exact State.eq_of_run_eq_stepLimit h

/-- A run that ends before its limit, by a return, by a trap or by an error, ends in the same way
under every greater limit, whatever callees trap. So a run that is out of steps is out of steps
under every smaller limit. -/
theorem run_stable {limit limit' : Nat} (hle : limit ≤ limit') (i : Interpreter) (f : Function)
    (args : List Nat) :
    ((∀ n, (i.withStepLimit limit).run f args ≠ .error (.stepLimit n)) →
      (i.withStepLimit limit').run f args = (i.withStepLimit limit).run f args) ∧
    ∀ n, (i.withStepLimit limit').run f args = .error (.stepLimit n) →
      (i.withStepLimit limit).run f args = .error (.stepLimit limit) := by
  have hstable : (i.withStepLimit limit).run f args ≠ .error (.stepLimit limit) →
      (i.withStepLimit limit').run f args = (i.withStepLimit limit).run f args :=
    run_withStepLimit (i := i.withStepLimit limit) hle
  refine ⟨fun h => hstable (h limit), fun n hlimit' => ?_⟩
  by_contra hended
  -- The run has ended, so with the greater limit it ends alike, and no run ends for want of steps.
  have hlimit : (i.withStepLimit limit).run f args = .error (.stepLimit n) :=
    (hstable hended).symm.trans hlimit'
  obtain rfl : n = limit := eq_of_run_eq_stepLimit hlimit
  exact hended hlimit

/-- The countdown from three takes eleven steps. -/
theorem run_stable_countdown :
    let counts := fun limit => (plain.withStepLimit limit).run countdown [3]
    counts 11 = .ok (.returned (some 0)) ∧ 11 ≤ 5000 ∧ counts 5000 = counts 11 ∧
      counts 10 = .error (.stepLimit 10) ∧ 4 ≤ 10 ∧ counts 4 = .error (.stepLimit 4) := by
  intro counts
  have hreturns : counts 11 = .ok (.returned (some 0)) := rfl
  have hlimit : counts 10 = .error (.stepLimit 10) := rfl
  refine ⟨hreturns, by decide, ?_, hlimit, by decide, ?_⟩
  · refine (run_stable (by decide) plain countdown [3]).1 fun n h => ?_
    cases hreturns.symm.trans h
  · exact (run_stable (by decide) plain countdown [3]).2 10 hlimit

/-- In a typed function every value of integer type that a run holds is a word of its type, at every
point of the run, whatever patterns the arguments are. If what the function returns has the declared
type, and this is an integer type, then the value returned is a word of it, under every limit. -/
theorem values_below (hf : f.Typed) (i : Interpreter) (args : List Nat) :
    (∀ s, i.Visits f args s → ∀ name ty w v, f.valueType? name = some ty →
      ty.intWidth? = some w → s.store.get? name = some v → v < 2 ^ w) ∧
    ((∀ block ∈ f.blocks, ∀ operand, block.terminator = .ret (some operand) →
        operand.HasType f.valueType? f.result) →
      ∀ w v, f.result.intWidth? = some w → i.run f args = .ok (.returned (some v)) →
        v < 2 ^ w) := by
  have hmodulus : ∀ {ty : Ty} {w : Nat}, ty.intWidth? = some w → modulus ty.bits = 2 ^ w :=
    fun hw => by rw [Ty.bits_of_intWidth? hw, (Ty.isWidth_of_intWidth? hw).modulus_eq]
  constructor
  · intro s hs name ty w v hty hw hv
    obtain ⟨ty', hty', hlt⟩ := hs.typed hf name v hv
    cases hty.symm.trans hty'
    rwa [hmodulus hw] at hlt
  · intro hreturns w v hw hrun
    have hlimits : ∀ limit, (.ok (.returned (some v)) : Except EvalError Outcome)
        ≠ .error (.stepLimit limit) := fun _ h => nomatch h
    rcases (exists_run_eq_iff i f args hlimits).1 ⟨i.stepLimit, hrun⟩ with
      ⟨e, -, he⟩ | ⟨s, hs, hends⟩
    · cases he
    -- The run ends in a block that returns an operand of the declared type.
    obtain ⟨operand, hterminator, hvalue⟩ := hends.exists_ret
    obtain ⟨block, hblock, -, hblockTerminator, -⟩ := hs.within
    have hty := hreturns block hblock operand (hblockTerminator.symm.trans hterminator)
    have hlt := (hs.typed hf).operand_lt hty hvalue
    rwa [hmodulus hw] at hlt

/-- The countdown cuts its argument 259 to the byte 3 and returns the byte 0. -/
theorem values_below_countdown :
    countdown.Typed ∧ (∃ s, plain.Visits countdown [259] s ∧ s.store.get? "n" = some 3) ∧
      3 < 2 ^ 8 ∧ plain.run countdown [259] = .ok (.returned (some 0)) ∧ 0 < 2 ^ 8 := by
  have hstart : plain.start countdown [259] = .ok ⟨"entry", none, [], .goto "loop", [("n", 3)]⟩ :=
    rfl
  have hvisits : plain.Visits countdown [259] ⟨"entry", none, [], .goto "loop", [("n", 3)]⟩ :=
    .start hstart
  have hrun : plain.run countdown [259] = .ok (.returned (some 0)) := rfl
  obtain ⟨hheld, hreturned⟩ := values_below countdown_valid.toTyped plain [259]
  refine ⟨countdown_valid.toTyped, ⟨_, hvisits, rfl⟩, ?_, hrun, ?_⟩
  · exact hheld _ hvisits "n" .u8 8 3 rfl rfl rfl
  · refine hreturned (fun block hblock operand hret => ?_) 8 0 rfl hrun
    simp only [countdown, List.mem_cons, List.not_mem_nil, or_false] at hblock
    rcases hblock with rfl | rfl | rfl
    · cases hret
    · cases hret
    · cases hret
      rfl

end Interpreter

end FactGuard
