import FactGuard.Proofs.Word
import FactGuard.Machine.Arith

/-!
# Arithmetic stays in its types

The width of every type is one that values may have, and what the operations compute is a word of
the width of their result type, if the operands are words of the widths of theirs (`BinOp.apply_lt`,
`UnOp.apply_lt`, `convert_lt`). An integer other than zero becomes a float whose pattern is not
zero.
-/

namespace FactGuard

/-! ## Types -/

namespace Ty

theorem isWidth_of_intWidth? {ty : Ty} {w : Nat} (h : ty.intWidth? = some w) : IsWidth w := by
  cases ty <;> cases h <;> exact ⟨by decide, by decide⟩

theorem bits_of_intWidth? {ty : Ty} {w : Nat} (h : ty.intWidth? = some w) : ty.bits = w := by
  rw [bits, h, Option.getD_some]

/-- Values of every type are words. -/
theorem isWidth_bits (ty : Ty) : IsWidth ty.bits := by
  cases ty <;> exact ⟨by decide, by decide⟩

/-- Words of any type are words of 64 bits. -/
theorem modulus_bits_le (ty : Ty) : modulus ty.bits ≤ modulus 64 := by
  cases ty <;> decide

theorem wrap_lt (ty : Ty) (v : Nat) : ty.wrap v < modulus ty.bits := truncate_lt _ _

theorem wrapInt_lt (ty : Ty) (i : Int) : ty.wrapInt i < modulus ty.bits := truncateInt_lt _ _

/-- A truth value is a word of every type. -/
theorem toNat_lt (ty : Ty) (b : Bool) : b.toNat < modulus ty.bits := by
  cases ty <;> cases b <;> decide

end Ty

/-! ## Floats -/

theorem patternOfFloat_lt (x : Float) : patternOfFloat x < modulus 64 := x.toBits.toNat_lt

/-- The float next to an integer has a pattern of 64 bits: its mantissa is `2^53` at most, and its
exponent is far from the greatest one. -/
theorem patternOfInt_lt {i : Int} (h : i.natAbs < modulus 64) : patternOfInt i < modulus 64 := by
  have hmodulus : modulus 64 = 2 ^ 64 := rfl
  rw [hmodulus] at h ⊢
  unfold patternOfInt
  dsimp only
  have hlt : i.natAbs < 2 ^ (i.natAbs.log2 + 1) := Nat.lt_log2_self
  by_cases hzero : i.natAbs = 0
  · rw [if_pos hzero]
    decide
  rw [if_neg hzero]
  have htop : i.natAbs.log2 < 64 := (Nat.log2_lt hzero).2 h
  generalize i.natAbs.log2 = top at *
  have hsign : (if i < 0 then 2 ^ 63 else 0) ≤ 2 ^ 63 := by split_ifs <;> omega
  -- A mantissa that is cut may round up, but to the next power of two at most.
  have hmantissa : (if top ≤ 52 then i.natAbs <<< (52 - top)
      else if 2 ^ (top - 52 - 1) < i.natAbs % 2 ^ (top - 52) ∨
          i.natAbs % 2 ^ (top - 52) = 2 ^ (top - 52 - 1) ∧ i.natAbs >>> (top - 52) % 2 = 1 then
        i.natAbs >>> (top - 52) + 1
      else i.natAbs >>> (top - 52)) ≤ 2 ^ 53 := by
    by_cases hsmall : top ≤ 52
    · rw [if_pos hsmall, Nat.shiftLeft_eq]
      calc i.natAbs * 2 ^ (52 - top)
          ≤ 2 ^ (top + 1) * 2 ^ (52 - top) := Nat.mul_le_mul_right _ (Nat.le_of_lt hlt)
        _ = 2 ^ 53 := by rw [← Nat.pow_add, show top + 1 + (52 - top) = 53 by omega]
    · rw [if_neg hsmall]
      have hcut : i.natAbs >>> (top - 52) < 2 ^ 53 := by
        rw [Nat.shiftRight_eq_div_pow]
        apply Nat.div_lt_of_lt_mul
        rwa [← Nat.pow_add, show top - 52 + 53 = top + 1 by omega]
      split_ifs <;> omega
  omega

/-- A word read with sign is less than the modulus in size. -/
theorem natAbs_toSigned_lt {w : Nat} (hw : IsWidth w) (v : Nat) :
    (toSigned w v).natAbs < modulus 64 := by
  have hle : modulus w ≤ modulus 64 := by
    rw [hw.modulus_eq]
    exact Nat.pow_le_pow_right (by decide) hw.le
  have hlt := truncate_lt w v
  unfold toSigned
  dsimp only
  split_ifs <;> omega

/-- An integer other than zero becomes a float with another pattern than zero: its exponent is not
zero. -/
theorem patternOfInt_ne_zero {i : Int} (h : i ≠ 0) : patternOfInt i ≠ 0 := by
  have hexponent : 0 < (i.natAbs.log2 + 1022) * 2 ^ 52 := Nat.mul_pos (by omega) (by decide)
  unfold patternOfInt
  dsimp only
  rw [if_neg (by omega)]
  omega

/-! ## Operations -/

/-- A constant is a word of the type at which it is used. -/
theorem Constant.pattern_lt (ty : Ty) (c : Constant) : c.pattern ty < modulus ty.bits := by
  cases c with
  | int value =>
    rw [pattern]
    split_ifs with hfloat
    · have hty : ty = .f64 := by cases ty <;> first | rfl | cases hfloat
      rw [hty]
      exact patternOfInt_lt (natAbs_toSigned_lt ⟨by decide, by decide⟩ _)
    · exact ty.wrapInt_lt _
  | float value =>
    rw [pattern]
    split_ifs with hint
    · exact ty.wrapInt_lt _
    · have hbits : modulus ty.bits = modulus 64 := by
        cases ty <;> first | rfl | exact absurd rfl hint
      rw [hbits]
      exact patternOfFloat_lt value
  | bool value => exact ty.toNat_lt value
  | unit => exact modulus_pos _

theorem and_lt {ty : Ty} {a b : Nat} (ha : a < modulus ty.bits) : a &&& b < modulus ty.bits :=
  Nat.lt_of_le_of_lt Nat.and_le_left ha

theorem divide_lt {ty : Ty} {remainder : Bool} {a b v : Nat}
    (h : divide ty remainder a b = .ok v) : v < modulus ty.bits := by
  unfold divide at h
  dsimp only at h
  split_ifs at h <;> cases h
  · exact ty.wrapInt_lt _
  · exact ty.wrapInt_lt _
  · exact ty.wrap_lt _
  · exact ty.wrap_lt _

/-- Without sign, the quotient and the remainder are those of natural numbers. -/
theorem eq_of_divide {ty : Ty} (hsigned : ty.isSigned = false) {remainder : Bool} {a b v : Nat}
    (ha : a < modulus ty.bits) (h : divide ty remainder a b = .ok v) :
    v = if remainder then a % b else a / b := by
  have hquotient : a / b < modulus ty.bits := Nat.lt_of_le_of_lt (Nat.div_le_self _ _) ha
  have hmod : a % b < modulus ty.bits := Nat.lt_of_le_of_lt (Nat.mod_le _ _) ha
  unfold divide at h
  rw [hsigned] at h
  simp only [Bool.false_eq_true, if_false] at h
  split_ifs at h with hzero hremainder <;> cases h
  · rw [if_pos hremainder, Ty.wrap, truncate_of_lt hmod]
  · rw [if_neg hremainder, Ty.wrap, truncate_of_lt hquotient]

theorem shiftLeft_lt (ty : Ty) (a b : Nat) : shiftLeft ty a b < modulus ty.bits := by
  unfold shiftLeft
  split_ifs
  · exact modulus_pos _
  · exact ty.wrap_lt _

theorem shiftRight_lt {ty : Ty} {a : Nat} (ha : a < modulus ty.bits) (b : Nat) :
    shiftRight ty a b < modulus ty.bits := by
  unfold shiftRight
  split_ifs
  · exact ty.wrapInt_lt _
  · exact modulus_pos _
  · exact Nat.lt_of_le_of_lt (Nat.shiftRight_le a b) ha

/-- But for comparisons and logical operations, the result has the type of the operands or is a
float. -/
theorem BinOp.resultType_cases {op : BinOp} (h : op.isComparison = false) (ty : Ty) :
    op.resultType ty = ty ∨ op.resultType ty = .f64 ∨ op = .and ∨ op = .or := by
  cases op <;> simp [resultType, isComparison] at h ⊢

/-- What an operation on two words of a type computes is a word of its result type. -/
theorem BinOp.apply_lt {op : BinOp} {ty : Ty} {a b v : Nat} (ha : a < modulus ty.bits)
    (hb : b < modulus ty.bits) (h : op.apply ty a b = .ok v) :
    v < modulus (op.resultType ty).bits := by
  have hw := ty.isWidth_bits
  have ha' := ha
  have hb' := hb
  rw [hw.modulus_eq] at ha' hb'
  cases op with
  | div | mod => exact divide_lt h
  | add | mul => cases h; exact ty.wrap_lt _
  | sub => cases h; exact ty.wrapInt_lt _
  | fadd | fsub | fmul | fdiv => cases h; exact patternOfFloat_lt _
  | eq | ne | lt | gt | le | ge | ult | ugt | ule | uge | and | or =>
    cases h
    exact Ty.bool.toNat_lt _
  | shl => cases h; exact shiftLeft_lt ty a b
  | shr => cases h; exact shiftRight_lt ha b
  | band => cases h; exact and_lt ha
  | bor =>
    cases h
    rw [resultType, hw.modulus_eq]
    exact Nat.or_lt_two_pow ha' hb'
  | bxor =>
    cases h
    rw [resultType, hw.modulus_eq]
    exact Nat.xor_lt_two_pow ha' hb'

/-- What an operation on one word computes is a word of its result type. -/
theorem UnOp.apply_lt {op : UnOp} {source : Ty} {a : Nat} (ha : a < modulus 64) :
    op.apply (op.resultType source) a < modulus (op.resultType source).bits := by
  cases op with
  | neg => exact Ty.wrapInt_lt _ _
  | fneg => exact Nat.xor_lt_two_pow (n := 64) ha (by decide)
  | not => exact Ty.bool.toNat_lt _
  | bnot => exact invert_lt source.bits a

/-- A converted value is a word of its new type. -/
theorem convert_lt {source target : Ty} (hsource : source ≠ .unit) {v : Nat}
    (hv : v < modulus source.bits) : convert source target v < modulus target.bits := by
  unfold convert
  split
  · split_ifs
    · exact target.wrapInt_lt _
    · exact target.wrap_lt _
  · rename_i hint hnone
    have hbits : modulus target.bits = modulus 64 := by
      rw [Ty.bits, hnone, Option.getD_none]
    rw [hbits]
    split_ifs
    · exact patternOfInt_lt (natAbs_toSigned_lt source.isWidth_bits v)
    · exact patternOfInt_lt (truncate_lt 64 v)
    · exact Nat.lt_of_lt_of_le hv source.modulus_bits_le
  · rename_i hnone hint
    split_ifs with hfloat
    · exact target.wrapInt_lt _
    · exact target.wrap_lt _
    · exfalso
      cases source <;> simp [Ty.intWidth?, Ty.isFloat] at hnone hfloat hsource
  · rename_i hnone hnone'
    have hbits : modulus target.bits = modulus 64 := by
      rw [Ty.bits, hnone', Option.getD_none]
    rw [hbits]
    exact Nat.lt_of_lt_of_le hv source.modulus_bits_le

end FactGuard
