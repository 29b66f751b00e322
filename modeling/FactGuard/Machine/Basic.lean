import FactGuard.Machine.Arith

/-!
# The machine

A function runs on bit patterns, one instruction or terminator at a time. `State.next` makes one
step: it carries out the next instruction of the block, or follows the terminator into another block
and reads that block's phis, all against the values held before. A call ends the run if its callee
is one of those that trap; no other call is supported.

Each step is pure, and what can go wrong is an `EvalError`. Running out of steps is not a step's
concern but that of `Machine/Run.lean`.
-/

namespace FactGuard

/-- How a run ends. -/
inductive Outcome where
  /-- A return, with the pattern returned if any. -/
  | returned (value : Option Nat)
  /-- A trap in a block, entered from another unless it is the entry. -/
  | trapped (block : String) (origin : Option String)
deriving DecidableEq, Repr

/-- Why a run fails. -/
inductive EvalError where
  | emptyFunction (name : String)
  | arityMismatch (expected found : Nat)
  | unknownBlock (label : String)
  | undefinedValue (name : String)
  | untypedValue (name : String)
  | missingPhiEdge (value pred : String)
  | divisionByZero (value : String)
  /-- A signed division reads zero from a divisor whose high bits are not zero. -/
  | divisorReadsZero (value : String)
  | unsupportedCall (callee : String)
  | unreachableExecuted (block : String)
  | stepLimit (limit : Nat)
deriving DecidableEq, Repr

/-- The text of an error. -/
def EvalError.message : EvalError → String
  | .emptyFunction name => "function `" ++ name ++ "` has no blocks"
  | .arityMismatch expected found => s!"expected {expected} arguments, got {found}"
  | .unknownBlock label => "jump to unknown block `" ++ label ++ "`"
  | .undefinedValue name => "use of undefined value %" ++ name
  | .untypedValue name => "value %" ++ name ++ " has no declared type"
  | .missingPhiEdge value pred =>
    "phi %" ++ value ++ " has no incoming value from `" ++ pred ++ "`"
  | .divisionByZero value => "division by zero defining %" ++ value
  | .divisorReadsZero value => "the divisor reads as zero defining %" ++ value
  | .unsupportedCall callee => "call to unsupported function `" ++ callee ++ "`"
  | .unreachableExecuted block => "reached `unreachable` in block `" ++ block ++ "`"
  | .stepLimit limit => s!"step limit of {limit} exceeded"

/-- The values held while a function runs. -/
abbrev Store := Bindings Nat

/-- What the machine needs to know of a function, and the callees that trap. -/
structure Code where
  types : Bindings Ty
  blocks : List Block
  result : Ty
  traps : List String

namespace Code

/-- The type of a name, by its last declaration. -/
def typeOf (code : Code) (name : String) : Except EvalError Ty :=
  match code.types.last? name with
  | some ty => .ok ty
  | none => .error (.untypedValue name)

/-- The last block with a label. -/
def block? (code : Code) (label : String) : Option Block :=
  code.blocks.foldl (fun found block => if block.label = label then some block else found) none

end Code

/-- The value held for a name. -/
def Store.read (store : Store) (name : String) : Except EvalError Nat :=
  match store.get? name with
  | some value => .ok value
  | none => .error (.undefinedValue name)

/-- The value of an operand; `ty` is the type at which a constant is used. -/
def Store.operand (store : Store) (ty : Ty) : Operand → Except EvalError Nat
  | .place name => store.read name
  | .constant value => .ok (value.pattern ty)

namespace Code

/-- The type of a place, or `default` for a constant. -/
def operandType (code : Code) (default : Ty) : Operand → Except EvalError Ty
  | .place name => code.typeOf name
  | .constant _ => .ok default

/-- The type at which an operation on two operands is computed: that of the first place among them.
Between two constants it is `i64` for a comparison and the type of the result otherwise. -/
def binaryType (code : Code) (dest : String) (op : BinOp) (lhs rhs : Operand) :
    Except EvalError Ty :=
  match lhs, rhs with
  | .place name, _ => code.typeOf name
  | _, .place name => code.typeOf name
  | _, _ => if op.isComparison then .ok .i64 else code.typeOf dest

/-- The result of an operation on two operands. -/
def binary (code : Code) (store : Store) (dest : String) (op : BinOp) (lhs rhs : Operand) :
    Except EvalError Nat := do
  let ty ← code.binaryType dest op lhs rhs
  let a ← store.operand ty lhs
  let b ← store.operand ty rhs
  match op.apply ty a b with
  | .ok value => return value
  | .error .byZero => throw (.divisionByZero dest)
  | .error .lowBitsZero => throw (.divisorReadsZero dest)

/-- The name that an instruction of block `label` defines, and its value. A phi after another
instruction has no value, and neither has a call. -/
def define (code : Code) (label : String) (store : Store) :
    Instr → Except EvalError (String × Nat)
  | .const dest value => do return (dest, value.pattern (← code.typeOf dest))
  | .copy dest src => do return (dest, ← store.read src)
  | .binary dest op lhs rhs => do return (dest, ← code.binary store dest op lhs rhs)
  | .unary dest op src => do
    let ty ← code.typeOf dest
    let sourceTy ← code.operandType ty src
    return (dest, op.apply ty (← store.operand sourceTy src))
  | .call _ callee _ _ => .error (.unsupportedCall callee)
  | .phi dest _ => .error (.missingPhiEdge dest label)
  | .cast dest src source target => do
    return (dest, convert source target (← store.operand source src))
  | .select dest op lhs rhs ifTrue ifFalse => do
    let cond ← code.binary store dest op lhs rhs
    let ty ← code.typeOf dest
    return (dest, ← store.operand ty (if cond ≠ 0 then ifTrue else ifFalse))

/-- The instruction is a call that ends the run. -/
def traps? (code : Code) : Instr → Bool
  | .call _ callee _ _ => code.traps.contains callee
  | _ => false

/-- The value of a phi on entry from the block `pred`. -/
def phiValue (code : Code) (pred : String) (store : Store) (dest : String)
    (values : List (Operand × String)) : Except EvalError (String × Nat) :=
  match values.find? (·.2 == pred) with
  | none => .error (.missingPhiEdge dest pred)
  | some (operand, _) => do
    let ty ← code.typeOf dest
    return (dest, ← store.operand ty operand)

/-- The values of a block's phis on entry from the block `pred`. -/
def phiValues (code : Code) (pred : String) (store : Store) :
    List Instr → Except EvalError (List (String × Nat))
  | .phi dest values :: rest => do
    let value ← code.phiValue pred store dest values
    return value :: (← code.phiValues pred store rest)
  | _ => .ok []

end Code

/-- Bind several names, one after another. -/
def Store.insertAll (store : Store) (values : List (String × Nat)) : Store :=
  values.foldl (fun store entry => store.insert entry.1 entry.2) store

/-- A function between two steps: the block that runs, the block that control came from, what is
left of the block, and the values held. -/
structure State where
  label : String
  origin : Option String
  todo : List Instr
  terminator : Terminator
  store : Store

/-- Where a terminator leads. -/
inductive Exit where
  | leave (outcome : Outcome)
  | jump (label : String)

/-- What a step leads to. -/
inductive Progress where
  | running (state : State)
  | finished (outcome : Outcome)

namespace State

/-- Enter a block: its phis are read against the values held, and bound together. -/
def enter (code : Code) (block : Block) (origin : Option String) (store : Store) :
    Except EvalError State := do
  let values ← code.phiValues (origin.getD "") store block.phis
  return ⟨block.label, origin, block.body, block.terminator, store.insertAll values⟩

/-- Where the terminator of the block leads. -/
def exit (code : Code) (s : State) : Except EvalError Exit :=
  match s.terminator with
  | .ret none => .ok (.leave (.returned none))
  | .ret (some value) => do return .leave (.returned (some (← s.store.operand code.result value)))
  | .unreachable => .error (.unreachableExecuted s.label)
  | .goto target => .ok (.jump target)
  | .branch cond ifTrue ifFalse => do
    let value ← s.store.operand .bool cond
    return .jump (if value ≠ 0 then ifTrue else ifFalse)
  | .switch operand cases default => do
    let ty ← code.operandType .i64 operand
    let value ← s.store.operand ty operand
    return .jump ((cases.find? fun c => ty.wrapInt c.1 == value).elim default (·.2))

/-- Follow the terminator of the block. -/
def leave (code : Code) (s : State) : Except EvalError Progress := do
  match ← s.exit code with
  | .leave outcome => return .finished outcome
  | .jump target =>
    match code.block? target with
    | none => throw (.unknownBlock target)
    | some block => return .running (← enter code block (some s.label) s.store)

/-- Make one step. -/
def next (code : Code) (s : State) : Except EvalError Progress :=
  match s.todo with
  | [] => s.leave code
  | instr :: rest =>
    if code.traps? instr then .ok (.finished (.trapped s.label s.origin))
    else do
      let (dest, value) ← code.define s.label s.store instr
      return .running { s with todo := rest, store := s.store.insert dest value }

end State

end FactGuard
