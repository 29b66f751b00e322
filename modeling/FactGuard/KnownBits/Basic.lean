import FactGuard.Word

/-!
# Known bits

What is known about each bit of a value: a mask of the bits that are zero in it and a mask of the
bits that are one. A bit in neither mask is unknown. `KnownBits.ofMasks` refuses masks of different
widths and masks that share a bit; no operation of `KnownBits/Transfer.lean` produces either.
-/

namespace FactGuard

/-- A vector of `width` bits. -/
structure BitMask where
  width : Nat
  bits : Nat
deriving DecidableEq, Repr, Inhabited

namespace BitMask

/-- The low `width` bits of a pattern. -/
def ofBits (width bits : Nat) : BitMask := ⟨width, truncate width bits⟩

/-- No bit set. -/
def zeros (width : Nat) : BitMask := ⟨width, 0⟩

end BitMask

/-- Why two masks do not make known bits. -/
inductive MaskError where
  /-- The masks have different widths. -/
  | widthMismatch (zeroWidth oneWidth : Nat)
  /-- The bits of `overlap` stand in both masks. -/
  | conflict (overlap : Nat)
deriving DecidableEq, Repr

/-- The text of a mask error. -/
def MaskError.message : MaskError → String
  | .widthMismatch zeroWidth oneWidth => s!"mask widths differ ({zeroWidth} vs {oneWidth})"
  | .conflict overlap => s!"bits {hexText overlap} are both forced zero and forced one"

/-- The bits that are zero and the bits that are one in every value described. -/
structure KnownBits where
  zero : BitMask
  one : BitMask
deriving DecidableEq, Repr, Inhabited

namespace KnownBits

/-- Known bits from two masks, which must agree in width and share no bit. -/
def ofMasks (zero one : BitMask) : Except MaskError KnownBits :=
  if zero.width ≠ one.width then .error (.widthMismatch zero.width one.width)
  else if zero.bits &&& one.bits ≠ 0 then .error (.conflict (zero.bits &&& one.bits))
  else .ok ⟨zero, one⟩

/-- Known bits from two patterns, cut to `width`. -/
def ofBits (width zeros ones : Nat) : KnownBits :=
  ⟨BitMask.ofBits width zeros, BitMask.ofBits width ones⟩

/-- Nothing known. -/
def unknown (width : Nat) : KnownBits := ⟨BitMask.zeros width, BitMask.zeros width⟩

/-- Every bit known, as in `value`. -/
def constant (width value : Nat) : KnownBits := ofBits width (invert width value) value

/-- The width of the values described. -/
def width (k : KnownBits) : Nat := k.zero.width

/-- The number of bits that are known. -/
def knownCount (k : KnownBits) : Nat := countOnes k.zero.bits + countOnes k.one.bits

/-- No bit is known. -/
def isUnknown (k : KnownBits) : Bool := k.zero.bits == 0 && k.one.bits == 0

/-- Every bit is known. -/
def isConstant (k : KnownBits) : Bool := (k.zero.bits ||| k.one.bits) == widthMask k.width

/-- The least value described: the unknown bits are zero. -/
def minValue (k : KnownBits) : Nat := k.one.bits

/-- The greatest value described: the unknown bits are one. -/
def maxValue (k : KnownBits) : Nat := invert k.width k.zero.bits

/-- The low bits of `v` agree with every known bit. -/
def contains (k : KnownBits) (v : Nat) : Bool :=
  let low := truncate k.width v
  low &&& k.zero.bits == 0 && low &&& k.one.bits == k.one.bits

/-- What is known of the bit at `index`, as a digit or `x`. -/
def bitChar (k : KnownBits) (index : Nat) : Char :=
  if k.zero.bits.testBit index then '0' else if k.one.bits.testBit index then '1' else 'x'

/-- What is known of each bit, the most significant one first. -/
def text (k : KnownBits) : String :=
  String.ofList ((List.range k.width).reverse.map k.bitChar)

end KnownBits

end FactGuard
