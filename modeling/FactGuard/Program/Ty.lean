import FactGuard.Word

/-!
# Types

The types of values. The integer types have a width, and `bool` is an integer type of one bit; a
64-bit float is kept as its bit pattern and has no width. Signedness matters only to the operations
that ask for it.
-/

namespace FactGuard

/-- The type of a value. -/
inductive Ty where
  | i8 | i16 | i32 | i64
  | u8 | u16 | u32 | u64
  | bool
  | f64
  | unit
deriving DecidableEq, Repr, Inhabited

namespace Ty

/-- All types. -/
def all : List Ty := [i8, i16, i32, i64, u8, u16, u32, u64, bool, f64, unit]

/-- The width of an integer type. -/
def intWidth? : Ty → Option Nat
  | bool => some 1
  | i8 | u8 => some 8
  | i16 | u16 => some 16
  | i32 | u32 => some 32
  | i64 | u64 => some 64
  | f64 | unit => none

/-- The type has a width. -/
def isInteger (ty : Ty) : Bool := ty.intWidth?.isSome

/-- The type is an integer type whose values have a sign. -/
def isSigned : Ty → Bool
  | i8 | i16 | i32 | i64 => true
  | _ => false

/-- The type is the float type. -/
def isFloat : Ty → Bool
  | f64 => true
  | _ => false

/-- The number of bits in which values of the type are computed: its width, or 64. -/
def bits (ty : Ty) : Nat := ty.intWidth?.getD 64

/-- The pattern cut to the type's width; a type without width keeps all 64 bits. -/
def wrap (ty : Ty) (v : Nat) : Nat := truncate ty.bits v

/-- The two's complement pattern of an integer at the type's width. -/
def wrapInt (ty : Ty) (i : Int) : Nat := truncateInt ty.bits i

/-- The name that programs use for the type. -/
def name : Ty → String
  | i8 => "i8" | i16 => "i16" | i32 => "i32" | i64 => "i64"
  | u8 => "u8" | u16 => "u16" | u32 => "u32" | u64 => "u64"
  | bool => "bool"
  | f64 => "f64"
  | unit => "unit"

/-- The type in a listing, where `unit` is a pair of brackets. -/
def text : Ty → String
  | unit => "()"
  | ty => ty.name

end Ty

end FactGuard
