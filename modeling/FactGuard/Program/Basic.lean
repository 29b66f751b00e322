import FactGuard.Program.Ty
import FactGuard.Bindings

/-!
# Programs

A program is a list of functions and of declarations of outside functions. A function is a control
flow graph: its blocks hold instructions and end in a terminator, and the first block is the entry.
Instructions define named values, whose types the function declares in two tables, the parameters
and the locals.

Names that are declared twice are allowed. `Function.valueType?` answers with the first declaration
and `Function.latestType?` with the last.
-/

namespace FactGuard

/-- An integer, a float, a truth value or the one value of type `unit`. -/
inductive Constant where
  | int (value : Int)
  | float (value : Float)
  | bool (value : Bool)
  | unit
deriving DecidableEq, Inhabited

/-- What an instruction reads: a named value or a constant. -/
inductive Operand where
  | place (name : String)
  | constant (value : Constant)
deriving DecidableEq, Inhabited

/-- The operand that holds a bit pattern, as an integer in 64-bit two's complement. -/
def Operand.ofBits (v : Nat) : Operand := .constant (.int (toSigned 64 v))

/-- The operations on two operands. -/
inductive BinOp where
  | add | sub | mul | div | mod
  | fadd | fsub | fmul | fdiv
  | eq | ne | lt | gt | le | ge
  | ult | ugt | ule | uge
  | and | or
  | shl | shr
  | band | bor | bxor
deriving DecidableEq, Repr, Inhabited

namespace BinOp

/-- All operations on two operands. -/
def all : List BinOp :=
  [add, sub, mul, div, mod, fadd, fsub, fmul, fdiv, eq, ne, lt, gt, le, ge, ult, ugt, ule, uge,
    and, or, shl, shr, band, bor, bxor]

/-- The operation compares integers. -/
def isComparison : BinOp → Bool
  | eq | ne | lt | gt | le | ge | ult | ugt | ule | uge => true
  | _ => false

/-- The type of the result for operands of type `ty`. -/
def resultType (ty : Ty) : BinOp → Ty
  | add | sub | mul | div | mod => ty
  | fadd | fsub | fmul | fdiv => .f64
  | eq | ne | lt | gt | le | ge | ult | ugt | ule | uge => .bool
  | and | or => .bool
  | shl | shr => ty
  | band | bor | bxor => ty

end BinOp

/-- The operations on one operand. -/
inductive UnOp where
  | neg | fneg | not | bnot
deriving DecidableEq, Repr, Inhabited

namespace UnOp

/-- All operations on one operand. -/
def all : List UnOp := [neg, fneg, not, bnot]

/-- The type of the result for an operand of type `ty`. -/
def resultType (ty : Ty) : UnOp → Ty
  | neg => ty
  | fneg => .f64
  | not => .bool
  | bnot => ty

end UnOp

/-- An instruction. All but a call define a value. -/
inductive Instr where
  | const (dest : String) (value : Constant)
  | copy (dest src : String)
  | binary (dest : String) (op : BinOp) (lhs rhs : Operand)
  | unary (dest : String) (op : UnOp) (src : Operand)
  | call (dest : Option String) (callee : String) (args : List Operand) (tail : Bool)
  /-- The operand listed with the label of the block that control comes from. -/
  | phi (dest : String) (values : List (Operand × String))
  | cast (dest : String) (src : Operand) (source target : Ty)
  /-- One of two operands, by an operation on two others. -/
  | select (dest : String) (op : BinOp) (lhs rhs ifTrue ifFalse : Operand)
deriving DecidableEq, Inhabited

namespace Instr

/-- The value that the instruction defines. -/
def dest? : Instr → Option String
  | const dest _ | copy dest _ | binary dest .. | unary dest .. | phi dest _ | cast dest ..
  | select dest .. => some dest
  | call dest .. => dest

/-- The instruction chooses by the block that control comes from. -/
def isPhi : Instr → Bool
  | phi .. => true
  | _ => false

end Instr

/-- How a block ends. -/
inductive Terminator where
  | ret (value : Option Operand)
  | goto (target : String)
  | branch (cond : Operand) (ifTrue ifFalse : String)
  | unreachable
  | switch (value : Operand) (cases : List (Int × String)) (default : String)
deriving DecidableEq, Inhabited

/-- The labels that control may go to, one for each edge. -/
def Terminator.successors : Terminator → List String
  | .ret _ | .unreachable => []
  | .goto target => [target]
  | .branch _ ifTrue ifFalse => [ifTrue, ifFalse]
  | .switch _ cases default => cases.map (·.2) ++ [default]

/-- A labelled sequence of instructions and its terminator. -/
structure Block where
  label : String
  instrs : List Instr
  terminator : Terminator
deriving DecidableEq, Inhabited

namespace Block

/-- The instructions that run on entry, all at once. -/
def phis (block : Block) : List Instr := block.instrs.takeWhile Instr.isPhi

/-- The instructions that run one after another. -/
def body (block : Block) : List Instr := block.instrs.dropWhile Instr.isPhi

end Block

/-- The declaration of an outside function. -/
structure Extern where
  moduleName : String
  name : String
  params : List Ty
  result : Ty
  /-- Control never comes back from a call. -/
  noReturn : Bool
  /-- A call never unwinds. -/
  noUnwind : Bool
deriving DecidableEq, Repr, Inhabited

/-- A control flow graph with the types of its values. -/
structure Function where
  name : String
  params : List (String × Ty)
  result : Ty
  locals : List (String × Ty)
  blocks : List Block
deriving DecidableEq, Inhabited

namespace Function

/-- The declared names with their types, the parameters first. -/
def declarations (f : Function) : Bindings Ty := f.params ++ f.locals

/-- The type in the first declaration of a name. -/
def valueType? (f : Function) (name : String) : Option Ty := f.declarations.get? name

/-- The type in the last declaration of a name. -/
def latestType? (f : Function) (name : String) : Option Ty := f.declarations.last? name

/-- The first block with a label. -/
def block? (f : Function) (label : String) : Option Block := f.blocks.find? (·.label == label)

/-- The labels of the blocks, in order. -/
def labels (f : Function) : List String := f.blocks.map (·.label)

/-- The index of the last block with a label. -/
def position? (f : Function) (label : String) : Option Nat :=
  f.labels.zipIdx.foldl (fun found entry => if entry.1 = label then some entry.2 else found) none

/-- The first of `stem0`, `stem1`, … from `number` on that is not declared. As many names as there
are declarations are tried, which is enough: one of the names after them is free. -/
def unusedName (f : Function) (stem : String) (number : Nat) : Nat → String
  | 0 => stem ++ toString number
  | tries + 1 =>
    let candidate := stem ++ toString number
    if (f.valueType? candidate).isNone then candidate
    else f.unusedName stem (number + 1) tries

/-- Declare a local of type `ty` under a name that starts with `stem` and is not in use; the number
after it counts on from the number of locals. -/
def freshLocal (f : Function) (stem : String) (ty : Ty) : String × Function :=
  let name := f.unusedName stem f.locals.length f.declarations.length
  (name, { f with locals := f.locals ++ [(name, ty)] })

end Function

/-- Functions, and the outside functions that they may call. -/
structure Program where
  functions : List Function
  externs : List Extern
deriving DecidableEq, Inhabited

namespace Program

/-- The first function with a name. -/
def function? (p : Program) (name : String) : Option Function :=
  p.functions.find? (·.name == name)

/-- The first declaration of an outside function with a name. -/
def extern? (p : Program) (name : String) : Option Extern := p.externs.find? (·.name == name)

/-- Declare an outside function, unless one of its name is declared. -/
def declareExtern (p : Program) (decl : Extern) : Program :=
  if (p.extern? decl.name).isNone then { p with externs := p.externs ++ [decl] } else p

end Program

end FactGuard
