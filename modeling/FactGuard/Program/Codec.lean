import FactGuard.Program.Basic
import FactGuard.Json.Library

/-!
# Programs as documents

Each part of a program has an `encode`, which writes every field, and a `decode`, which reads it
with a library for documents. What a part has for fields and variants, how they are named and which
fields may be missing is said here; how they are found in a document is the library's.
-/

namespace FactGuard

open Json (Decoder Fault Library)

variable (lib : Library)

/-- The operation's name in documents. -/
def BinOp.name : BinOp → String
  | add => "add" | sub => "sub" | mul => "mul" | div => "div" | mod => "mod"
  | fadd => "f_add" | fsub => "f_sub" | fmul => "f_mul" | fdiv => "f_div"
  | eq => "eq" | ne => "ne" | lt => "lt" | gt => "gt" | le => "le" | ge => "ge"
  | ult => "u_lt" | ugt => "u_gt" | ule => "u_le" | uge => "u_ge"
  | and => "and" | or => "or"
  | shl => "shl" | shr => "shr"
  | band => "band" | bor => "bor" | bxor => "bxor"

/-- The operation's name in documents. -/
def UnOp.name : UnOp → String
  | neg => "neg" | fneg => "f_neg" | not => "not" | bnot => "bnot"

/-- One of finitely many values, by its name. -/
def decodeNamed {α : Type} (all : List α) (name : α → String) (wanted : String) : Decoder α :=
  fun value => do
    let given ← lib.plainVariant value
    match all.find? (name · == given) with
    | some found => return found
    | none => throw (.unfit wanted)

/-- The type of a document. -/
def Ty.decode : Decoder Ty := decodeNamed lib Ty.all Ty.name "a type"

/-- The document of a type. -/
def Ty.encode (ty : Ty) : Json := .str ty.name

/-- The operation of a document. -/
def BinOp.decode : Decoder BinOp :=
  decodeNamed lib BinOp.all BinOp.name "an operation on two operands"

/-- The document of an operation. -/
def BinOp.encode (op : BinOp) : Json := .str op.name

/-- The operation of a document. -/
def UnOp.decode : Decoder UnOp :=
  decodeNamed lib UnOp.all UnOp.name "an operation on one operand"

/-- The document of an operation. -/
def UnOp.encode (op : UnOp) : Json := .str op.name

/-- The document of a constant. -/
def Constant.encode : Constant → Json
  | .int value => .obj [("int", .int value)]
  | .float value => .obj [("float", .float value)]
  | .bool value => .obj [("bool", .bool value)]
  | .unit => .str "unit"

/-- The constant of a document. -/
def Constant.decode : Decoder Constant := fun value => do
  match ← lib.variant value with
  | ("int", some data) => return .int (← lib.signed data)
  | ("float", some data) => return .float (← lib.number data)
  | ("bool", some data) => return .bool (← lib.boolean data)
  | ("unit", none) | ("unit", some .null) => return .unit
  | _ => throw (.unfit "a constant")

/-- The document of an operand. -/
def Operand.encode : Operand → Json
  | .place name => .obj [("place", .str name)]
  | .constant value => .obj [("constant", value.encode)]

/-- The operand of a document. -/
def Operand.decode : Decoder Operand := fun value => do
  match ← lib.variant value with
  | ("place", some data) => return .place (← lib.text data)
  | ("constant", some data) => return .constant (← Constant.decode lib data)
  | _ => throw (.unfit "an operand")

/-- The document of an instruction. -/
def Instr.encode : Instr → Json
  | .const dest value => .obj [("const", .obj [("dest", .str dest), ("value", value.encode)])]
  | .copy dest src => .obj [("copy", .obj [("dest", .str dest), ("src", .str src)])]
  | .binary dest op lhs rhs =>
    .obj [("bin_op", .obj [("dest", .str dest), ("op", op.encode), ("lhs", lhs.encode),
      ("rhs", rhs.encode)])]
  | .unary dest op src =>
    .obj [("unary_op", .obj [("dest", .str dest), ("op", op.encode), ("src", src.encode)])]
  | .call dest callee args tail =>
    .obj [("call", .obj [("dest", .ofOption (dest.map .str)), ("func", .str callee),
      ("args", .array (args.map Operand.encode)), ("is_tail", .bool tail)])]
  | .phi dest values =>
    .obj [("phi", .obj [("dest", .str dest),
      ("values", .array (values.map fun v => .array [v.1.encode, .str v.2]))])]
  | .cast dest src source target =>
    .obj [("cast", .obj [("dest", .str dest), ("src", src.encode), ("from_ty", source.encode),
      ("to_ty", target.encode)])]
  | .select dest op lhs rhs ifTrue ifFalse =>
    .obj [("select", .obj [("dest", .str dest), ("cond_op", op.encode), ("cond_lhs", lhs.encode),
      ("cond_rhs", rhs.encode), ("true_val", ifTrue.encode), ("false_val", ifFalse.encode)])]

namespace Instr

/-- The fields of a `const` instruction. -/
def decodeConst : Decoder Instr := fun data => do
  let fields ← lib.record ["dest", "value"] data
  return .const (← lib.required fields "dest" lib.text)
    (← lib.required fields "value" (Constant.decode lib))

/-- The fields of a `copy` instruction. -/
def decodeCopy : Decoder Instr := fun data => do
  let fields ← lib.record ["dest", "src"] data
  return .copy (← lib.required fields "dest" lib.text) (← lib.required fields "src" lib.text)

/-- The fields of an operation on two operands. -/
def decodeBinary : Decoder Instr := fun data => do
  let fields ← lib.record ["dest", "op", "lhs", "rhs"] data
  return .binary (← lib.required fields "dest" lib.text)
    (← lib.required fields "op" (BinOp.decode lib))
    (← lib.required fields "lhs" (Operand.decode lib))
    (← lib.required fields "rhs" (Operand.decode lib))

/-- The fields of an operation on one operand. -/
def decodeUnary : Decoder Instr := fun data => do
  let fields ← lib.record ["dest", "op", "src"] data
  return .unary (← lib.required fields "dest" lib.text)
    (← lib.required fields "op" (UnOp.decode lib))
    (← lib.required fields "src" (Operand.decode lib))

/-- The fields of a call. -/
def decodeCall : Decoder Instr := fun data => do
  let fields ← lib.record ["dest", "func", "args", "is_tail"] data
  return .call (← lib.defaulted fields "dest" none (lib.optional lib.text))
    (← lib.required fields "func" lib.text)
    (← lib.required fields "args" (lib.listOf (Operand.decode lib)))
    (← lib.defaulted fields "is_tail" false lib.boolean)

/-- The fields of a phi. -/
def decodePhi : Decoder Instr := fun data => do
  let fields ← lib.record ["dest", "values"] data
  return .phi (← lib.required fields "dest" lib.text)
    (← lib.required fields "values" (lib.listOf (lib.pairOf (Operand.decode lib) lib.text)))

/-- The fields of a cast. -/
def decodeCast : Decoder Instr := fun data => do
  let fields ← lib.record ["dest", "src", "from_ty", "to_ty"] data
  return .cast (← lib.required fields "dest" lib.text)
    (← lib.required fields "src" (Operand.decode lib))
    (← lib.required fields "from_ty" (Ty.decode lib))
    (← lib.required fields "to_ty" (Ty.decode lib))

/-- The fields of a selection. -/
def decodeSelect : Decoder Instr := fun data => do
  let fields ← lib.record
    ["dest", "cond_op", "cond_lhs", "cond_rhs", "true_val", "false_val"] data
  return .select (← lib.required fields "dest" lib.text)
    (← lib.required fields "cond_op" (BinOp.decode lib))
    (← lib.required fields "cond_lhs" (Operand.decode lib))
    (← lib.required fields "cond_rhs" (Operand.decode lib))
    (← lib.required fields "true_val" (Operand.decode lib))
    (← lib.required fields "false_val" (Operand.decode lib))

/-- The instruction of a document. -/
def decode : Decoder Instr := fun value => do
  match ← lib.variant value with
  | ("const", some data) => decodeConst lib data
  | ("copy", some data) => decodeCopy lib data
  | ("bin_op", some data) => decodeBinary lib data
  | ("unary_op", some data) => decodeUnary lib data
  | ("call", some data) => decodeCall lib data
  | ("phi", some data) => decodePhi lib data
  | ("cast", some data) => decodeCast lib data
  | ("select", some data) => decodeSelect lib data
  | _ => throw (.unfit "an instruction")

end Instr

/-- The document of a terminator. -/
def Terminator.encode : Terminator → Json
  | .ret value => .obj [("return", .ofOption (value.map Operand.encode))]
  | .goto target => .obj [("goto", .str target)]
  | .branch cond ifTrue ifFalse =>
    .obj [("branch", .obj [("cond", cond.encode), ("then_label", .str ifTrue),
      ("else_label", .str ifFalse)])]
  | .unreachable => .str "unreachable"
  | .switch value cases default =>
    .obj [("switch", .obj [("discriminant", value.encode),
      ("cases", .array (cases.map fun c => .array [.int c.1, .str c.2])),
      ("default", .str default)])]

namespace Terminator

/-- The fields of a branch. -/
def decodeBranch : Decoder Terminator := fun data => do
  let fields ← lib.record ["cond", "then_label", "else_label"] data
  return .branch (← lib.required fields "cond" (Operand.decode lib))
    (← lib.required fields "then_label" lib.text)
    (← lib.required fields "else_label" lib.text)

/-- The fields of a switch. -/
def decodeSwitch : Decoder Terminator := fun data => do
  let fields ← lib.record ["discriminant", "cases", "default"] data
  return .switch (← lib.required fields "discriminant" (Operand.decode lib))
    (← lib.required fields "cases" (lib.listOf (lib.pairOf lib.signed lib.text)))
    (← lib.required fields "default" lib.text)

/-- The terminator of a document. -/
def decode : Decoder Terminator := fun value => do
  match ← lib.variant value with
  | ("return", some data) => return .ret (← lib.optional (Operand.decode lib) data)
  | ("goto", some data) => return .goto (← lib.text data)
  | ("branch", some data) => decodeBranch lib data
  | ("unreachable", none) | ("unreachable", some .null) => return .unreachable
  | ("switch", some data) => decodeSwitch lib data
  | _ => throw (.unfit "a terminator")

end Terminator

/-- The document of a block. -/
def Block.encode (block : Block) : Json :=
  .obj [("label", .str block.label), ("instructions", .array (block.instrs.map Instr.encode)),
    ("terminator", block.terminator.encode)]

/-- The block of a document. -/
def Block.decode : Decoder Block := fun value => do
  let fields ← lib.record ["label", "instructions", "terminator"] value
  return { label := ← lib.required fields "label" lib.text
           instrs := ← lib.required fields "instructions" (lib.listOf (Instr.decode lib))
           terminator := ← lib.required fields "terminator" (Terminator.decode lib) }

/-- The document of a table of types. -/
def encodeTypes (types : List (String × Ty)) : Json :=
  .array (types.map fun t => .array [.str t.1, t.2.encode])

/-- The table of types of a document. -/
def decodeTypes : Decoder (List (String × Ty)) := lib.listOf (lib.pairOf lib.text (Ty.decode lib))

/-- The document of a function. -/
def Function.encode (f : Function) : Json :=
  .obj [("name", .str f.name), ("params", encodeTypes f.params), ("ret_ty", f.result.encode),
    ("locals", encodeTypes f.locals), ("blocks", .array (f.blocks.map Block.encode))]

/-- The function of a document. -/
def Function.decode : Decoder Function := fun value => do
  let fields ← lib.record ["name", "params", "ret_ty", "locals", "blocks"] value
  return { name := ← lib.required fields "name" lib.text
           params := ← lib.required fields "params" (decodeTypes lib)
           result := ← lib.required fields "ret_ty" (Ty.decode lib)
           locals := ← lib.defaulted fields "locals" [] (decodeTypes lib)
           blocks := ← lib.required fields "blocks" (lib.listOf (Block.decode lib)) }

/-- The document of a declaration. -/
def Extern.encode (decl : Extern) : Json :=
  .obj [("module", .str decl.moduleName), ("name", .str decl.name),
    ("params", .array (decl.params.map Ty.encode)), ("ret_ty", decl.result.encode),
    ("no_return", .bool decl.noReturn), ("no_unwind", .bool decl.noUnwind)]

/-- The declaration of a document. -/
def Extern.decode : Decoder Extern := fun value => do
  let fields ← lib.record ["module", "name", "params", "ret_ty", "no_return", "no_unwind"] value
  return { moduleName := ← lib.required fields "module" lib.text
           name := ← lib.required fields "name" lib.text
           params := ← lib.required fields "params" (lib.listOf (Ty.decode lib))
           result := ← lib.required fields "ret_ty" (Ty.decode lib)
           noReturn := ← lib.defaulted fields "no_return" false lib.boolean
           noUnwind := ← lib.defaulted fields "no_unwind" false lib.boolean }

/-- The document of a program. -/
def Program.encode (p : Program) : Json :=
  .obj [("functions", .array (p.functions.map Function.encode)),
    ("extern_fns", .array (p.externs.map Extern.encode))]

/-- The program of a document. -/
def Program.decode : Decoder Program := fun value => do
  let fields ← lib.record ["functions", "extern_fns"] value
  return { functions := ← lib.required fields "functions" (lib.listOf (Function.decode lib))
           externs := ← lib.defaulted fields "extern_fns" [] (lib.listOf (Extern.decode lib)) }

/-- The program that a text writes. -/
def Program.ofText (text : String) : Except Fault Program := lib.parse text >>= Program.decode lib

end FactGuard
