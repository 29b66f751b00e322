import FactGuard.Program.Basic

/-!
# Arithmetic on bit patterns

What the operations compute. Integer operations work modulo `2^w` at the width `w` of a type, and a
type without width counts as 64 bits without sign. Operands are patterns of 64 bits, not always
below `2^w`: signed operations read their low `w` bits, the others all of them. Floats are operated
on through their bit patterns, and integers become floats by `patternOfInt`.
-/

namespace FactGuard

/-- The float of a bit pattern. -/
def floatOfPattern (v : Nat) : Float := Float.ofBits (UInt64.ofNat v)

/-- The bit pattern of a float. -/
def patternOfFloat (x : Float) : Nat := x.toBits.toNat

/-- The bit pattern of the float next to an integer below `2^64` in size; of two that are equally
near, the one with an even pattern. The integer is shifted until its highest one is bit 52, which
counts toward the exponent, so a mantissa that is rounded up to `2^53` counts on into the exponent.
-/
def patternOfInt (i : Int) : Nat :=
  let size := i.natAbs
  let top := size.log2
  let mantissa :=
    if top ≤ 52 then size <<< (52 - top)
    else
      let excess := top - 52
      let low := size % 2 ^ excess
      let half := 2 ^ (excess - 1)
      let cut := size >>> excess
      if half < low ∨ (low = half ∧ cut % 2 = 1) then cut + 1 else cut
  if size = 0 then 0
  else (if i < 0 then 2 ^ 63 else 0) + (top + 1022) * 2 ^ 52 + mantissa

/-- The pattern of the constant where it is used at type `ty`. An integer used as a float is
converted, and a float used as an integer is rounded toward zero and kept in range. -/
def Constant.pattern (ty : Ty) : Constant → Nat
  | .int value =>
    if ty.isFloat then patternOfInt (toSigned 64 (truncateInt 64 value)) else ty.wrapInt value
  | .float value => if ty.isInteger then ty.wrapInt value.toInt64.toInt else patternOfFloat value
  | .bool value => value.toNat
  | .unit => 0

/-- Why an operation has no result. -/
inductive DivisionFault where
  /-- The divisor is zero. -/
  | byZero
  /-- The divisor is not zero, but its low bits are, and the division reads no others. -/
  | lowBitsZero
deriving DecidableEq, Repr

/-- The quotient, toward zero, or the remainder, with the sign of the dividend. -/
def divide (ty : Ty) (remainder : Bool) (a b : Nat) : Except DivisionFault Nat :=
  if b = 0 then .error .byZero
  else if ty.isSigned then
    let x := toSigned ty.bits a
    let y := toSigned ty.bits b
    if y = 0 then .error .lowBitsZero
    else .ok (ty.wrapInt (if remainder then x.tmod y else x.tdiv y))
  else .ok (ty.wrap (if remainder then a % b else a / b))

/-- The pattern shifted to the left; all bits are lost from the type's width on. -/
def shiftLeft (ty : Ty) (a b : Nat) : Nat := if ty.bits ≤ b then 0 else ty.wrap (a <<< b)

/-- The pattern shifted to the right, with copies of the sign bit coming in if the type is signed.-/
def shiftRight (ty : Ty) (a b : Nat) : Nat :=
  if ty.isSigned then ty.wrapInt (toSigned ty.bits a >>> min b (ty.bits - 1))
  else if ty.bits ≤ b then 0
  else a >>> b

/-- Compare two patterns at a type, with sign if it is signed. -/
def lessThan (ty : Ty) (a b : Nat) : Bool :=
  if ty.isSigned then decide (toSigned ty.bits a < toSigned ty.bits b) else decide (a < b)

/-- The result of an operation on two patterns at type `ty`. -/
def BinOp.apply (ty : Ty) (a b : Nat) : BinOp → Except DivisionFault Nat
  | add => .ok (ty.wrap (a + b))
  | sub => .ok (ty.wrapInt ((a : Int) - b))
  | mul => .ok (ty.wrap (a * b))
  | div => divide ty false a b
  | mod => divide ty true a b
  | fadd => .ok (patternOfFloat (floatOfPattern a + floatOfPattern b))
  | fsub => .ok (patternOfFloat (floatOfPattern a - floatOfPattern b))
  | fmul => .ok (patternOfFloat (floatOfPattern a * floatOfPattern b))
  | fdiv => .ok (patternOfFloat (floatOfPattern a / floatOfPattern b))
  | eq => .ok (a == b).toNat
  | ne => .ok (a != b).toNat
  | lt => .ok (lessThan ty a b).toNat
  | gt => .ok (lessThan ty b a).toNat
  | le => .ok (!lessThan ty b a).toNat
  | ge => .ok (!lessThan ty a b).toNat
  | ult => .ok (decide (a < b)).toNat
  | ugt => .ok (decide (b < a)).toNat
  | ule => .ok (decide (a ≤ b)).toNat
  | uge => .ok (decide (b ≤ a)).toNat
  | and => .ok (a != 0 && b != 0).toNat
  | or => .ok (a != 0 || b != 0).toNat
  | shl => .ok (shiftLeft ty a b)
  | shr => .ok (shiftRight ty a b)
  | band => .ok (a &&& b)
  | bor => .ok (a ||| b)
  | bxor => .ok (a ^^^ b)

/-- The result of an operation on one pattern, with result type `ty`. -/
def UnOp.apply (ty : Ty) (a : Nat) : UnOp → Nat
  | neg => ty.wrapInt (-(a : Int))
  | fneg => a ^^^ 2 ^ 63
  | not => (a == 0).toNat
  | bnot => invert ty.bits a

/-- The pattern of a value converted from one type to another: widened by its sign or with zeros,
cut to the width, or converted between integer and float. A float becomes the integer next to it
toward zero, kept in the range of 64 bits. -/
def convert (source target : Ty) (v : Nat) : Nat :=
  match source.intWidth?, target.intWidth? with
  | some _, some _ =>
    if source.isSigned then target.wrapInt (toSigned source.bits v)
    else target.wrap (source.wrap v)
  | some _, none =>
    if target.isFloat then
      if source.isSigned then patternOfInt (toSigned source.bits v)
      else patternOfInt (truncate 64 v)
    else v
  | none, some _ =>
    if source.isFloat then
      if target.isSigned then target.wrapInt (floatOfPattern v).toInt64.toInt
      else target.wrap (floatOfPattern v).toUInt64.toNat
    else v
  | none, none => v

end FactGuard
