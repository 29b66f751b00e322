import FactGuard.Fact.Basic
import FactGuard.Fact.Order

/-!
# Inferring facts

One sweep over a function gives every integer value that an instruction defines a fact that holds
wherever the value is used. Blocks are visited in the order of `Function.visitOrder`, so operands
have their facts before their users, except those that reach a phi around a loop. Such operands, and
parameters, are unknown.
-/

namespace FactGuard

/-- The types of a function's names, and what has been inferred so far. -/
structure FactMap where
  types : Bindings Ty
  facts : Bindings ValueFact

namespace FactMap

/-- The type of a name, by its last declaration. -/
def type? (m : FactMap) (name : String) : Option Ty := m.types.last? name

/-- The width of a name that has an integer type. -/
def width? (m : FactMap) (name : String) : Option Nat := (m.type? name).bind Ty.intWidth?

/-- The fact inferred for a name. -/
def get? (m : FactMap) (name : String) : Option ValueFact := m.facts.get? name

/-- The fact of a name; nothing is known of a value without one. -/
def lookup (m : FactMap) (name : String) : ValueFact :=
  (m.get? name).getD (ValueFact.unknown ((m.width? name).getD maxWidth))

/-- The fact of an operand used at a width. A fact of another width says nothing. -/
def operand (m : FactMap) (width : Nat) : Operand → ValueFact
  | .place name =>
    match m.get? name with
    | some fact => if fact.width = width then fact else ValueFact.unknown width
    | none => ValueFact.unknown width
  | .constant (.int value) => ValueFact.constant width (truncateInt 64 value)
  | .constant (.bool value) => ValueFact.constant width value.toNat
  | .constant _ => ValueFact.unknown width

/-- The value of an operand if its range holds only one. -/
def constantOperand? (m : FactMap) (width : Nat) (operand : Operand) : Option Nat :=
  (m.operand width operand).range.singleElement?

/-- The type at which an operation on two operands is computed. -/
def operandType? (m : FactMap) (dest : String) (lhs rhs : Operand) : Option Ty :=
  match lhs, rhs with
  | .place name, _ => m.type? name
  | _, .place name => m.type? name
  | _, _ => m.type? dest

/-- The fact of a bitwise and. A bound on either operand bounds the result. -/
def bitAnd (width : Nat) (a b : ValueFact) : ValueFact :=
  let fact := ValueFact.ofKnownBits (a.known.and b.known)
  match a.range.max?, b.range.max? with
  | some x, some y =>
    if min x y < fact.known.maxValue then
      ValueFact.refined ⟨ValueRange.between width fact.known.minValue (min x y), fact.known⟩
    else fact
  | _, _ => fact

/-- The fact of a shift by a known amount. -/
def shift (op : BinOp) (isSigned : Bool) (a : ValueFact) (amount : Nat) : ValueFact :=
  let known := match op, isSigned with
    | .shl, _ => a.known.shl amount
    | _, true => a.known.ashr amount
    | _, false => a.known.lshr amount
  (ValueFact.ofKnownBits known).refined

/-- The number is a power of two. -/
def isPowerOfTwo (n : Nat) : Bool := n != 0 && n &&& (n - 1) == 0

/-- The fact of a remainder without sign by a known divisor. -/
def remainder (width : Nat) (a : ValueFact) (divisor : Nat) : ValueFact :=
  let known :=
    if isPowerOfTwo divisor then a.known.and (KnownBits.constant width (divisor - 1))
    else KnownBits.unknown width
  ValueFact.refined ⟨a.range.uremConstant divisor, known⟩

/-- The fact of a quotient without sign by a known divisor. -/
def quotient (width : Nat) (a : ValueFact) (divisor : Nat) : ValueFact :=
  match a.range.min?, a.range.max? with
  | some least, some greatest =>
    ValueFact.refined
      ⟨ValueRange.between width (least / divisor) (greatest / divisor), KnownBits.unknown width⟩
  | _, _ => ValueFact.unknown width

/-- The fact of an operation between operands of the result's width; `amount?` is the value of the
second operand if it is known. -/
def combine (op : BinOp) (isSigned : Bool) (width : Nat) (a b : ValueFact)
    (amount? : Option Nat) : ValueFact :=
  match op with
  | .add => ValueFact.refined ⟨a.range.add b.range, a.known.add b.known⟩
  | .sub => ValueFact.refined ⟨a.range.sub b.range, a.known.sub b.known⟩
  | .band | .and => bitAnd width a b
  | .bor | .or => ValueFact.ofKnownBits (a.known.or b.known)
  | .bxor => ValueFact.ofKnownBits (a.known.xor b.known)
  | .shl | .shr =>
    match amount? with
    | some amount => shift op isSigned a amount
    | none => ValueFact.unknown width
  | .mod =>
    match isSigned, amount? with
    | false, some divisor =>
      if 0 < divisor then remainder width a divisor else ValueFact.unknown width
    | _, _ => ValueFact.unknown width
  | .div =>
    match isSigned, amount? with
    | false, some divisor =>
      if 0 < divisor then quotient width a divisor else ValueFact.unknown width
    | _, _ => ValueFact.unknown width
  | _ => ValueFact.unknown width

/-- The fact of an operation on two operands. -/
def binary (m : FactMap) (width : Nat) (dest : String) (op : BinOp) (lhs rhs : Operand) :
    ValueFact :=
  let ty? := m.operandType? dest lhs rhs
  if op.isComparison || (ty?.bind Ty.intWidth?).getD width != width then ValueFact.unknown width
  else
    combine op (ty?.any Ty.isSigned) width (m.operand width lhs) (m.operand width rhs)
      (m.constantOperand? width rhs)

/-- The fact of an operation on one operand. -/
def unary (m : FactMap) (width : Nat) (op : UnOp) (src : Operand) : ValueFact :=
  let sourceWidth := match src with
    | .place name => (m.width? name).getD width
    | .constant _ => width
  if sourceWidth ≠ width then ValueFact.unknown width
  else
    let a := m.operand width src
    match op with
    | .neg =>
      let zero := ValueFact.constant width 0
      ValueFact.refined ⟨zero.range.sub a.range, zero.known.sub a.known⟩
    | .bnot => ValueFact.ofKnownBits a.known.not
    | .not => if width = 1 then ValueFact.ofKnownBits a.known.not else ValueFact.unknown width
    | .fneg => ValueFact.unknown width

/-- The fact of a converted value. -/
def cast (m : FactMap) (width : Nat) (src : Operand) (source target : Ty) : ValueFact :=
  match source.intWidth? with
  | none => ValueFact.unknown width
  | some sourceWidth =>
    if target.intWidth? ≠ some width then ValueFact.unknown width
    else
      let a := m.operand sourceWidth src
      ValueFact.refined <|
        if sourceWidth < width then
          if source.isSigned then ⟨a.range.signExtend width, a.known.signExtend width⟩
          else ⟨a.range.zeroExtend width, a.known.zeroExtend width⟩
        else ⟨a.range.truncate width, a.known.truncate width⟩

/-- The fact of a value that is one of several. -/
def joinAll (width : Nat) : List ValueFact → ValueFact
  | [] => ValueFact.unknown width
  | fact :: rest => rest.foldl ValueFact.join fact

/-- The fact of an instruction's result of the given width. -/
def transfer (m : FactMap) (width : Nat) : Instr → ValueFact
  | .const _ value => m.operand width (.constant value)
  | .copy _ src => m.operand width (.place src)
  | .binary dest op lhs rhs => m.binary width dest op lhs rhs
  | .unary _ op src => m.unary width op src
  | .cast _ src source target => m.cast width src source target
  | .select _ _ _ _ ifTrue ifFalse => (m.operand width ifTrue).join (m.operand width ifFalse)
  | .phi _ values => joinAll width (values.map fun v => m.operand width v.1)
  | .call .. => ValueFact.unknown width

/-- Infer the fact of an instruction's result, if it has an integer type. -/
def visitInstr (m : FactMap) (instr : Instr) : FactMap :=
  match instr.dest? with
  | none => m
  | some dest =>
    match m.width? dest with
    | none => m
    | some width => { m with facts := m.facts.insert dest (m.transfer width instr) }

/-- Infer the facts of a block. -/
def visitBlock (m : FactMap) (block : Block) : FactMap := block.instrs.foldl visitInstr m

end FactMap

/-- What can be inferred about the values of a function. -/
def Function.facts (f : Function) : FactMap :=
  (f.visitOrder.filterMap (f.blocks[·]?)).foldl FactMap.visitBlock ⟨f.declarations, []⟩

end FactGuard
