import FactGuard.Program.Basic
import FactGuard.Decimal.Layout

/-!
# Program listings

A program in readable form: the declarations of outside functions, a line each, and then the
functions with their blocks. Names of values are marked with `%`, and constants with a letter for
their kind.
-/

namespace FactGuard

/-- Floats are written in full, without an exponent and without a point if they are whole; ties go
to the greater digit. -/
def listingLayout : Decimal.Layout where
  tie := .up
  positional := fun _ => true
  afterWhole := ""
  notNumber := "NaN"
  infinite := "inf"
  negativeInfinite := "-inf"

/-- The items, separated by a comma and a blank. -/
def commaList (items : List String) : String := String.intercalate ", " items

/-- The listing of a constant. -/
def Constant.text : Constant → String
  | .int value => "I:" ++ toString value
  | .float value => "F:" ++ listingLayout.text value
  | .bool value => if value then "B:1" else "B:0"
  | .unit => "U"

/-- The listing of an operand. -/
def Operand.text : Operand → String
  | .place name => "%" ++ name
  | .constant value => value.text

/-- The listing of an operation. -/
def BinOp.text : BinOp → String
  | add => "+"
  | sub => "-"
  | mul => "*"
  | div => "/"
  | mod => "%"
  | fadd => "+."
  | fsub => "-."
  | fmul => "*."
  | fdiv => "/."
  | eq => "=="
  | ne => "!="
  | lt => "<"
  | gt => ">"
  | le => "<="
  | ge => ">="
  | ult => "<u"
  | ugt => ">u"
  | ule => "<=u"
  | uge => ">=u"
  | and => "and"
  | or => "or"
  | shl => "<<"
  | shr => ">>"
  | band => "band"
  | bor => "bor"
  | bxor => "bxor"

/-- The listing of an operation. -/
def UnOp.text : UnOp → String
  | neg => "neg"
  | fneg => "fneg"
  | not => "not"
  | bnot => "bnot"

/-- The listing of an instruction. -/
def Instr.text : Instr → String
  | const dest value => "%" ++ dest ++ " = const " ++ value.text
  | copy dest src => "%" ++ dest ++ " = copy %" ++ src
  | binary dest op lhs rhs =>
    "%" ++ dest ++ " = " ++ op.text ++ " " ++ lhs.text ++ ", " ++ rhs.text
  | unary dest op src => "%" ++ dest ++ " = " ++ op.text ++ " " ++ src.text
  | call dest callee args tail =>
    (match dest with
      | some dest => "%" ++ dest ++ " = "
      | none => "")
      ++ (if tail then "tail call " else "call ") ++ callee
      ++ "(" ++ commaList (args.map Operand.text) ++ ")"
  | phi dest values =>
    "%" ++ dest ++ " = phi "
      ++ commaList (values.map fun v => "[" ++ v.1.text ++ ", " ++ v.2 ++ "]")
  | cast dest src source target =>
    "%" ++ dest ++ " = cast " ++ src.text ++ " " ++ source.text ++ " to " ++ target.text
  | select dest op lhs rhs ifTrue ifFalse =>
    "%" ++ dest ++ " = select " ++ lhs.text ++ " " ++ op.text ++ " " ++ rhs.text
      ++ " ? " ++ ifTrue.text ++ " : " ++ ifFalse.text

/-- The listing of a terminator. -/
def Terminator.text : Terminator → String
  | ret none => "return"
  | ret (some value) => "return " ++ value.text
  | goto target => "goto " ++ target
  | branch cond ifTrue ifFalse => "branch " ++ cond.text ++ ", " ++ ifTrue ++ ", " ++ ifFalse
  | unreachable => "unreachable"
  | switch value cases default =>
    "switch " ++ value.text ++ ", ["
      ++ commaList (cases.map fun c => toString c.1 ++ " -> " ++ c.2) ++ "], " ++ default

/-- The listing of a block: its label, and a line for each instruction and the terminator. -/
def Block.text (block : Block) : String :=
  block.label ++ ":\n"
    ++ String.join (block.instrs.map fun instr => "  " ++ instr.text ++ "\n")
    ++ "  " ++ block.terminator.text ++ "\n"

/-- The listing of a function. -/
def Function.text (f : Function) : String :=
  "fn " ++ f.name ++ "(" ++ commaList (f.params.map fun p => p.1 ++ ": " ++ p.2.text) ++ ") -> "
    ++ f.result.text ++ " \x7b\n" ++ String.join (f.blocks.map Block.text) ++ "\x7d\n"

/-- The listing of a declaration. -/
def Extern.text (decl : Extern) : String :=
  "declare " ++ decl.moduleName ++ "::" ++ decl.name
    ++ "(" ++ commaList (decl.params.map Ty.text) ++ ") -> " ++ decl.result.text
    ++ (if decl.noReturn then " noreturn" else "") ++ (if decl.noUnwind then " nounwind" else "")

/-- The listing of a program. Two functions are separated by two empty lines, the declarations from
the functions by one. -/
def Program.text (p : Program) : String :=
  String.join (p.externs.map fun decl => decl.text ++ "\n")
    ++ (if p.externs.isEmpty || p.functions.isEmpty then "" else "\n")
    ++ String.intercalate "\n\n" (p.functions.map Function.text)

end FactGuard
