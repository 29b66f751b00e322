import FactGuard.KnownBits.Basic

/-!
# Arithmetic on known bits

Each operation takes what is known of its operands to what is known of its result. A result bit is
marked only if it has that value for all values that the operands describe.

Addition reads the carries off two sums of extreme values: a carry out of a position is known to be
absent if the sum of the greatest values has none, and known to be present if the sum of the least
values has one. Subtraction adds the complement with a carry in.
-/

namespace FactGuard.KnownBits

/-- Known bits of the bitwise and. -/
def and (a b : KnownBits) : KnownBits :=
  ofBits a.width (a.zero.bits ||| b.zero.bits) (a.one.bits &&& b.one.bits)

/-- Known bits of the bitwise or. -/
def or (a b : KnownBits) : KnownBits :=
  ofBits a.width (a.zero.bits &&& b.zero.bits) (a.one.bits ||| b.one.bits)

/-- Known bits of the bitwise exclusive or. -/
def xor (a b : KnownBits) : KnownBits :=
  ofBits a.width
    ((a.zero.bits &&& b.zero.bits) ||| (a.one.bits &&& b.one.bits))
    ((a.zero.bits &&& b.one.bits) ||| (a.one.bits &&& b.zero.bits))

/-- Known bits of the complement. -/
def not (a : KnownBits) : KnownBits := ofBits a.width a.one.bits a.zero.bits

/-- What both sides know alike. -/
def common (a b : KnownBits) : KnownBits :=
  ofBits a.width (a.zero.bits &&& b.zero.bits) (a.one.bits &&& b.one.bits)

/-- Known bits after a shift to the left, which brings in zeros. -/
def shl (a : KnownBits) (amount : Nat) : KnownBits :=
  if amount ≥ a.width then constant a.width 0
  else ofBits a.width ((a.zero.bits <<< amount) ||| (2 ^ amount - 1)) (a.one.bits <<< amount)

/-- The `amount` highest bits of a word of the given width. -/
def highMask (width amount : Nat) : Nat := widthMask width - (widthMask width >>> amount)

/-- Known bits after a shift to the right that brings in zeros. -/
def lshr (a : KnownBits) (amount : Nat) : KnownBits :=
  if amount ≥ a.width then constant a.width 0
  else ofBits a.width ((a.zero.bits >>> amount) ||| highMask a.width amount) (a.one.bits >>> amount)

/-- Put what `a` knows of its sign bit into the bits of `high`. -/
def spreadSign (a : KnownBits) (zeros ones high : Nat) : Nat × Nat :=
  if a.zero.bits &&& signBit a.width ≠ 0 then (zeros ||| high, ones)
  else if a.one.bits &&& signBit a.width ≠ 0 then (zeros, ones ||| high)
  else (zeros, ones)

/-- Known bits after a shift to the right that copies the sign bit. -/
def ashr (a : KnownBits) (amount : Nat) : KnownBits :=
  let amount := min amount (a.width - 1)
  let masks := a.spreadSign (a.zero.bits >>> amount) (a.one.bits >>> amount)
    (highMask a.width amount)
  ofBits a.width masks.1 masks.2

/-- Known bits of `a + b + carry`, where the carry into bit 0 is between `least` and `most`. -/
def addCarry (a b : KnownBits) (least most : Nat) : KnownBits :=
  let width := a.width
  let greatest := FactGuard.truncate width (a.maxValue + b.maxValue + most)
  let smallest := FactGuard.truncate width (a.minValue + b.minValue + least)
  let noCarry := invert width (greatest ^^^ a.zero.bits ^^^ b.zero.bits)
  let carry := smallest ^^^ a.one.bits ^^^ b.one.bits
  let known := (a.zero.bits ||| a.one.bits) &&& (b.zero.bits ||| b.one.bits) &&& (noCarry ||| carry)
  ofBits width (invert width greatest &&& known) (smallest &&& known)

/-- Known bits of the sum. -/
def add (a b : KnownBits) : KnownBits := a.addCarry b 0 0

/-- Known bits of the difference: `a - b` is `a` plus the complement of `b` plus one. -/
def sub (a b : KnownBits) : KnownBits := a.addCarry b.not 1 1

/-- Known bits of the low `width` bits. -/
def truncate (a : KnownBits) (width : Nat) : KnownBits := ofBits width a.zero.bits a.one.bits

/-- The bits that a word of width `wide` has above one of width `narrow`. -/
def extensionMask (narrow wide : Nat) : Nat := widthMask wide - widthMask narrow

/-- Known bits after zeros are put in front, or after truncation if `width` is not wider. -/
def zeroExtend (a : KnownBits) (width : Nat) : KnownBits :=
  if width ≤ a.width then a.truncate width
  else ofBits width (a.zero.bits ||| extensionMask a.width width) a.one.bits

/-- Known bits after copies of the sign bit are put in front, or after truncation if `width` is not
wider. -/
def signExtend (a : KnownBits) (width : Nat) : KnownBits :=
  if width ≤ a.width then a.truncate width
  else
    let masks := a.spreadSign a.zero.bits a.one.bits (extensionMask a.width width)
    ofBits width masks.1 masks.2

end FactGuard.KnownBits
