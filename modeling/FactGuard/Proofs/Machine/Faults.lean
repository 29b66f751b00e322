import FactGuard.Proofs.Machine.Steps

/-!
# What a step fails with

A step never fails for want of steps, and it divides by zero unawares in one situation only. The
divisor is compared with zero as a pattern of 64 bits, and a signed division then reads the bits
within the width of its type. So the division goes wrong exactly where the pattern is not zero but
a multiple of the number of words of the type (`Code.MissesDivisor`), and `State.next_eq_missed_iff`
finds the one instruction that is to blame.

The other errors are ordinary (`EvalError.IsOrdinary`), and local if they are not jumps to no block
(`EvalError.IsLocal`). `FailsOnly` carries this through the computations that a step is made of: a
computation in two parts fails only in ways in which either part may fail (`FailsOnly.bind`).
-/

namespace FactGuard

/-! ## Ordinary errors -/

/-- The error is neither a limit that is reached nor a divisor that reads zero. -/
def EvalError.IsOrdinary : EvalError → Prop
  | stepLimit _ | divisorReadsZero _ => False
  | _ => True

/-- The error is ordinary, and it is not that of a jump to no block. -/
def EvalError.IsLocal : EvalError → Prop
  | stepLimit _ | divisorReadsZero _ | unknownBlock _ => False
  | _ => True

theorem EvalError.IsLocal.isOrdinary {e : EvalError} (he : e.IsLocal) : e.IsOrdinary := by
  cases e with
  | stepLimit _ | divisorReadsZero _ => exact he
  | _ => trivial

/-- A computation fails only with errors of a kind. -/
def FailsOnly {α : Type} (kind : EvalError → Prop) (x : Except EvalError α) : Prop :=
  ∀ e, x = .error e → kind e

namespace FailsOnly

variable {α β : Type} {kind : EvalError → Prop}

theorem ok (a : α) : FailsOnly kind (.ok a : Except EvalError α) := fun _ h => nomatch h

theorem error {e : EvalError} (he : kind e) : FailsOnly kind (.error e : Except EvalError α) :=
  fun _ h => by cases h; exact he

theorem imp {kind' : EvalError → Prop} {x : Except EvalError α} (h : FailsOnly kind x)
    (himp : ∀ e, kind e → kind' e) : FailsOnly kind' x := fun e he => himp e (h e he)

theorem map {x : Except EvalError α} (h : FailsOnly kind x) (change : α → β) :
    FailsOnly kind (x.map change) := by
  cases x with
  | error e => exact error (h e rfl)
  | ok a => exact ok (change a)

/-- A computation in two parts fails as either part does. -/
theorem bind {x : Except EvalError α} {next : α → Except EvalError β} (hx : FailsOnly kind x)
    (hnext : ∀ a, x = .ok a → FailsOnly kind (next a)) : FailsOnly kind (x >>= next) := by
  cases x with
  | error e => exact error (hx e rfl)
  | ok a => exact hnext a rfl

end FailsOnly

section Local

open EvalError (IsLocal IsOrdinary)

variable {code : Code} {store : Store}

theorem Code.typeOf_local (name : String) : FailsOnly IsLocal (code.typeOf name) := by
  unfold Code.typeOf
  cases code.types.last? name with
  | none => exact .error trivial
  | some ty => exact .ok ty

theorem Store.read_local (name : String) : FailsOnly IsLocal (store.read name) := by
  unfold Store.read
  cases store.get? name with
  | none => exact .error trivial
  | some v => exact .ok v

theorem Store.operand_local (ty : Ty) (operand : Operand) :
    FailsOnly IsLocal (store.operand ty operand) := by
  cases operand with
  | place name => exact Store.read_local name
  | constant value => exact .ok _

theorem Code.operandType_local (default : Ty) (operand : Operand) :
    FailsOnly IsLocal (code.operandType default operand) := by
  cases operand with
  | place name => exact Code.typeOf_local name
  | constant value => exact .ok default

theorem Code.binaryType_local (dest : String) (op : BinOp) (lhs rhs : Operand) :
    FailsOnly IsLocal (code.binaryType dest op lhs rhs) := by
  cases lhs with
  | place name => exact Code.typeOf_local name
  | constant value =>
    cases rhs with
    | place name => exact Code.typeOf_local name
    | constant value' =>
      unfold Code.binaryType
      dsimp only
      split_ifs
      · exact .ok _
      · exact Code.typeOf_local dest

theorem Code.phiValue_local (pred dest : String) (values : List (Operand × String)) :
    FailsOnly IsLocal (code.phiValue pred store dest values) := by
  unfold Code.phiValue
  cases values.find? (·.2 == pred) with
  | none => exact .error trivial
  | some entry =>
    exact (Code.typeOf_local dest).bind fun ty _ =>
      (Store.operand_local ty entry.1).bind fun v _ => .ok _

theorem Code.phiValues_local (pred : String) (instrs : List Instr) :
    FailsOnly IsLocal (code.phiValues pred store instrs) := by
  induction instrs with
  | nil => exact .ok _
  | cons instr rest ih =>
    cases instr with
    | phi dest values =>
      exact (Code.phiValue_local pred dest values).bind fun entry _ =>
        ih.bind fun entries _ => .ok _
    | _ => exact .ok _

theorem State.enter_local (block : Block) (origin : Option String) :
    FailsOnly IsLocal (State.enter code block origin store) :=
  (Code.phiValues_local _ block.phis).bind fun _ _ => .ok _

theorem State.exit_local (s : State) : FailsOnly IsLocal (s.exit code) := by
  unfold State.exit
  cases s.terminator with
  | ret value =>
    cases value with
    | none => exact .ok _
    | some operand => exact (Store.operand_local code.result operand).bind fun _ _ => .ok _
  | goto target => exact .ok _
  | branch cond ifTrue ifFalse =>
    exact (Store.operand_local .bool cond).bind fun _ _ => .ok _
  | unreachable => exact .error trivial
  | switch operand cases default =>
    exact (Code.operandType_local .i64 operand).bind fun ty _ =>
      (Store.operand_local ty operand).bind fun _ _ => .ok _

/-- A block is left in the same way, or by a jump to no block. -/
theorem State.leave_ordinary (s : State) : FailsOnly IsOrdinary (s.leave code) := by
  rcases leave_cases code s with ⟨e, hexit, hleave⟩ | ⟨outcome, -, hleave⟩ |
    ⟨target, -, ⟨-, hleave⟩ | ⟨block, -, hleave⟩⟩
  · rw [hleave]
    exact .error (s.exit_local e hexit).isOrdinary
  · rw [hleave]
    exact .ok _
  · rw [hleave]
    exact .error trivial
  · rw [hleave]
    exact ((State.enter_local block _).imp fun _ he => he.isOrdinary).map _

/-- A run fails to start with local errors only. -/
theorem Interpreter.start_local (i : Interpreter) (f : Function) (args : List Nat) :
    FailsOnly IsLocal (i.start f args) := by
  unfold Interpreter.start
  split_ifs
  · exact .error trivial
  · cases f.blocks with
    | nil => exact .error trivial
    | cons entry rest => exact State.enter_local entry none

theorem Interpreter.start_ordinary (i : Interpreter) (f : Function) (args : List Nat) :
    FailsOnly IsOrdinary (i.start f args) :=
  (i.start_local f args).imp fun _ he => he.isOrdinary

end Local

/-! ## Divisors that read zero -/

/-- The operation divides. -/
def BinOp.IsDivision (op : BinOp) : Prop := op = .div ∨ op = .mod

/-- A division fails on a divisor that is zero. -/
theorem BinOp.apply_eq_byZero_iff {op : BinOp} {ty : Ty} {a b : Nat} :
    op.apply ty a b = .error .byZero ↔ op.IsDivision ∧ b = 0 := by
  have hdivide : ∀ remainder, divide ty remainder a b = .error .byZero ↔ b = 0 := by
    intro remainder
    unfold divide
    dsimp only
    split_ifs <;> simp_all
  cases op <;> simp [apply, IsDivision, hdivide]

/-- A division misses a divisor of which it reads zeros only. -/
theorem BinOp.apply_eq_lowBitsZero_iff {op : BinOp} {ty : Ty} {a b : Nat} :
    op.apply ty a b = .error .lowBitsZero ↔
      op.IsDivision ∧ ty.isSigned = true ∧ b ≠ 0 ∧ modulus ty.bits ∣ b := by
  have hdivide : ∀ remainder, divide ty remainder a b = .error .lowBitsZero ↔
      ty.isSigned = true ∧ b ≠ 0 ∧ modulus ty.bits ∣ b := by
    intro remainder
    rw [← toSigned_eq_zero_iff]
    unfold divide
    dsimp only
    split_ifs <;> simp_all
  cases op <;> simp [apply, IsDivision, hdivide]

/-- An operation divides at a signed type, and the pattern of its divisor is not zero but a multiple
of the number of words of the type. -/
def Code.MissesDivisor (code : Code) (store : Store) (dest : String) (op : BinOp)
    (lhs rhs : Operand) : Prop :=
  op.IsDivision ∧ ∃ ty a b, code.binaryType dest op lhs rhs = .ok ty ∧ ty.isSigned = true ∧
    store.operand ty lhs = .ok a ∧ store.operand ty rhs = .ok b ∧ b ≠ 0 ∧ 2 ^ ty.bits ∣ b

/-- The operation that an instruction does on two operands, with the name that it defines. That of a
select is its condition. -/
def Instr.operation? : Instr → Option (String × BinOp × Operand × Operand)
  | binary dest op lhs rhs | select dest op lhs rhs _ _ => some (dest, op, lhs, rhs)
  | _ => none

/-- The instruction does an operation that misses its divisor. -/
def Instr.MissesDivisor (instr : Instr) (code : Code) (store : Store) (dest : String) : Prop :=
  ∃ op lhs rhs, instr.operation? = some (dest, op, lhs, rhs) ∧
    code.MissesDivisor store dest op lhs rhs

/-- The error is ordinary, or the instruction misses its divisor and the error says so. -/
def Instr.Faults (instr : Instr) (code : Code) (store : Store) (e : EvalError) : Prop :=
  e.IsOrdinary ∨ ∃ dest, e = .divisorReadsZero dest ∧ instr.MissesDivisor code store dest

section Missed

variable {code : Code} {store : Store} {dest label : String} {op : BinOp} {lhs rhs : Operand}

theorem FailsOnly.faults {α : Type} {x : Except EvalError α} {instr : Instr}
    (h : FailsOnly EvalError.IsLocal x) : FailsOnly (instr.Faults code store) x :=
  h.imp fun _ he => .inl he.isOrdinary

/-- The operation of an instruction fails with ordinary errors, or because it misses its divisor. -/
theorem Code.binary_fails {instr : Instr} (hop : instr.operation? = some (dest, op, lhs, rhs)) :
    FailsOnly (instr.Faults code store) (code.binary store dest op lhs rhs) := by
  refine (FailsOnly.faults (Code.binaryType_local dest op lhs rhs)).bind fun ty hty =>
    (FailsOnly.faults (Store.operand_local ty lhs)).bind fun a ha =>
      (FailsOnly.faults (Store.operand_local ty rhs)).bind fun b hb => ?_
  cases happly : op.apply ty a b with
  | ok v => exact .ok v
  | error fault =>
    cases fault with
    | byZero => exact .error (.inl trivial)
    | lowBitsZero =>
      obtain ⟨hdivision, hsigned, hne, hdvd⟩ := BinOp.apply_eq_lowBitsZero_iff.1 happly
      rw [ty.isWidth_bits.modulus_eq] at hdvd
      have hmisses : code.MissesDivisor store dest op lhs rhs :=
        ⟨hdivision, ty, a, b, hty, hsigned, ha, hb, hne, hdvd⟩
      exact .error (.inr ⟨dest, rfl, op, lhs, rhs, hop, hmisses⟩)

/-- An operation that misses its divisor fails. -/
theorem Code.MissesDivisor.binary_eq (h : code.MissesDivisor store dest op lhs rhs) :
    code.binary store dest op lhs rhs = .error (.divisorReadsZero dest) := by
  obtain ⟨hop, ty, a, b, hty, hsigned, ha, hb, hne, hdvd⟩ := h
  rw [← ty.isWidth_bits.modulus_eq] at hdvd
  have happly : op.apply ty a b = .error .lowBitsZero :=
    BinOp.apply_eq_lowBitsZero_iff.2 ⟨hop, hsigned, hne, hdvd⟩
  unfold Code.binary
  simp only [bind, Except.bind, hty, ha, hb, happly]
  rfl

/-- An instruction fails with ordinary errors, or because it misses its divisor. -/
theorem Code.define_fails (instr : Instr) :
    FailsOnly (instr.Faults code store) (code.define label store instr) := by
  cases instr with
  | const dest value => exact .faults ((Code.typeOf_local dest).bind fun _ _ => .ok _)
  | copy dest src => exact .faults ((Store.read_local src).bind fun _ _ => .ok _)
  | binary dest op lhs rhs => exact (Code.binary_fails rfl).bind fun _ _ => .ok _
  | unary dest op src =>
    exact .faults ((Code.typeOf_local dest).bind fun ty _ =>
      (Code.operandType_local ty src).bind fun source _ =>
        (Store.operand_local source src).bind fun _ _ => .ok _)
  | call dest callee args tail => exact .error (.inl trivial)
  | phi dest values => exact .error (.inl trivial)
  | cast dest src source target =>
    exact .faults ((Store.operand_local source src).bind fun _ _ => .ok _)
  | select dest op lhs rhs ifTrue ifFalse =>
    exact (Code.binary_fails rfl).bind fun cond _ =>
      .faults ((Code.typeOf_local dest).bind fun ty _ =>
        (Store.operand_local ty _).bind fun _ _ => .ok _)

/-- An instruction that misses its divisor is no call and fails. -/
theorem Instr.MissesDivisor.define_eq {instr : Instr} (h : instr.MissesDivisor code store dest)
    (label : String) : code.traps? instr = false ∧
      code.define label store instr = .error (.divisorReadsZero dest) := by
  obtain ⟨op, lhs, rhs, hop, hmisses⟩ := h
  cases instr with
  | binary dest' op' lhs' rhs' | select dest' op' lhs' rhs' ifTrue ifFalse =>
    cases hop
    refine ⟨rfl, ?_⟩
    simp only [Code.define, hmisses.binary_eq]
    rfl
  | _ => cases hop

/-- A step fails with ordinary errors, or because its instruction misses its divisor. -/
theorem State.next_fails (s : State) : FailsOnly (fun e => e.IsOrdinary ∨ ∃ instr rest dest,
    s.todo = instr :: rest ∧ e = .divisorReadsZero dest ∧ instr.MissesDivisor code s.store dest)
    (s.next code) := by
  rcases next_cases code s with ⟨-, hnext⟩ | ⟨instr, rest, htodo, ⟨-, hnext⟩ | ⟨-, hnext⟩⟩
  · rw [hnext]
    exact (State.leave_ordinary s).imp fun _ => .inl
  · rw [hnext]
    exact .ok _
  · rw [hnext]
    refine (FailsOnly.imp (Code.define_fails instr) fun e he => ?_).map _
    exact he.imp_right fun ⟨dest, he, hmisses⟩ => ⟨instr, rest, dest, htodo, he, hmisses⟩

/-- Running out of steps is not a step's concern. -/
theorem State.next_ne_stepLimit (s : State) (limit : Nat) :
    s.next code ≠ .error (.stepLimit limit) := by
  intro h
  rcases s.next_fails _ h with hordinary | ⟨instr, rest, dest, -, hmissed, -⟩
  · exact hordinary
  · cases hmissed

/-- A step divides by zero unawares exactly if it comes to an instruction that misses its divisor.
-/
theorem State.next_eq_missed_iff (s : State) :
    s.next code = .error (.divisorReadsZero dest) ↔
      ∃ instr rest, s.todo = instr :: rest ∧ instr.MissesDivisor code s.store dest := by
  constructor
  · intro h
    rcases s.next_fails _ h with hordinary | ⟨instr, rest, dest', htodo, hmissed, hmisses⟩
    · exact hordinary.elim
    · cases hmissed
      exact ⟨instr, rest, htodo, hmisses⟩
  · rintro ⟨instr, rest, htodo, hmisses⟩
    obtain ⟨htraps, hdefine⟩ := hmisses.define_eq s.label
    rw [next_of_todo_cons htodo htraps, hdefine]
    rfl

end Missed

end FactGuard
