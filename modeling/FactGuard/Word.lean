/-!
# Words

Every value is a bit pattern, carried as a natural number below `2^64`. A fact or a type of width
`w` reads its low `w` bits, and widths above 64 count as 64. This module has the reductions that the
rest of the library computes with: the low bits of a pattern, of an integer, and their reading as a
two's complement integer.
-/

namespace FactGuard

-- Powers are those of the core library, also where more of them are in scope.
attribute [instance (high), default_instance (high + 1)] instPowNat

/-- The largest width that a range may have. -/
def maxWidth : Nat := 64

/-- The number of patterns of width `w`, at most `2^64`. -/
def modulus (w : Nat) : Nat := 2 ^ min w 64

/-- The pattern of `w` ones. -/
def widthMask (w : Nat) : Nat := modulus w - 1

/-- The low `w` bits of a pattern. -/
def truncate (w v : Nat) : Nat := v % modulus w

/-- The low `w` bits of an integer in two's complement. -/
def truncateInt (w : Nat) (i : Int) : Nat := (i % (modulus w : Int)).toNat

/-- The pattern of width `w` with each of the low `w` bits of `v` inverted. -/
def invert (w v : Nat) : Nat := widthMask w - truncate w v

/-- The integer that the low `w` bits of `v` stand for in two's complement. -/
def toSigned (w v : Nat) : Int :=
  let low := truncate w v
  if 2 * low < modulus w then (low : Int) else (low : Int) - (modulus w : Int)

/-- The pattern of bit `w - 1`, the sign of a signed value of width `w`. -/
def signBit (w : Nat) : Nat := 2 ^ (w - 1)

/-- The number of ones in a 64-bit pattern. -/
def countOnes (v : Nat) : Nat := (List.range 64).countP v.testBit

/-- The number of binary digits of `v`. -/
def bitLength (v : Nat) : Nat := if v = 0 then 0 else Nat.log2 v + 1

/-- All ones at and below the highest one of `v`. -/
def fillBelow (v : Nat) : Nat := 2 ^ bitLength v - 1

/-- The lower-case hexadecimal text of `v`, marked with `0x`. -/
def hexText (v : Nat) : String := "0x" ++ String.ofList (Nat.toDigits 16 v)

theorem modulus_pos (w : Nat) : 0 < modulus w := Nat.two_pow_pos _

theorem truncate_lt (w v : Nat) : truncate w v < modulus w := Nat.mod_lt _ (modulus_pos w)

theorem truncate_of_lt {w v : Nat} (h : v < modulus w) : truncate w v = v := Nat.mod_eq_of_lt h

@[simp] theorem truncate_truncate (w v : Nat) : truncate w (truncate w v) = truncate w v :=
  Nat.mod_mod _ _

theorem truncateInt_lt (w : Nat) (i : Int) : truncateInt w i < modulus w := by
  have hpos : (0 : Int) < modulus w := by exact_mod_cast modulus_pos w
  have := Int.emod_lt_of_pos i hpos
  have := Int.emod_nonneg i (Int.ne_of_gt hpos)
  unfold truncateInt
  omega

theorem invert_lt (w v : Nat) : invert w v < modulus w :=
  Nat.lt_of_le_of_lt (Nat.sub_le _ _) (Nat.sub_one_lt_of_lt (modulus_pos w))

end FactGuard
