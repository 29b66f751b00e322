import Mathlib.Data.Int.ModEq
import Mathlib.Tactic.Positivity
import FactGuard.Proofs.Machine.Faults

/-!
# Integer operations are those of integers

The machine computes on patterns of 64 bits, with masks, sign extensions and amounts of shifts that
are cut. At an integer type a word stands for an integer (`Ty.value`), in two's complement if the
type is signed, and what an instruction computes at a type of width `w` is the integer result modulo
`2^w` (`Code.define_integer`): of sums, differences and products, of quotients toward zero and
remainders with the sign of the dividend, also where the quotient is no word of the type, of shifts
by any amount, of negations and complements, and of conversions to any other integer type.
Comparisons compare the integers.

A word and the integer that it stands for are congruent modulo `2^w` (`Ty.value_modEq`), which is
all that sums, differences and products need. Quotients, shifts to the right and comparisons read
the integer itself, and the machine reads it by extending the sign (`Ty.toSigned_eq_value`).
-/

namespace FactGuard

/-! ## The integers of a type -/

theorem natCast_two_pow (k : Nat) : ((2 ^ k : Nat) : Int) = 2 ^ k := by
  push_cast
  rfl

namespace Ty

variable {ty : Ty} {a b : Nat}

/-- The integer that a word of a type stands for: in two's complement if the type is signed, and
itself otherwise. -/
def value (ty : Ty) (v : Nat) : Int :=
  if ty.isSigned = true ∧ 2 ^ (ty.bits - 1) ≤ v then (v : Int) - 2 ^ ty.bits else v

theorem value_of_unsigned (h : ty.isSigned = false) (v : Nat) : ty.value v = v := by
  simp [value, h]

/-- A word and its integer are congruent. -/
theorem value_modEq (ty : Ty) (v : Nat) : ty.value v ≡ v [ZMOD 2 ^ ty.bits] := by
  unfold value
  split_ifs
  · exact Int.sub_emod_right (v : Int) (2 ^ ty.bits)
  · rfl

theorem two_pow_bits (ty : Ty) : 2 ^ ty.bits = 2 * 2 ^ (ty.bits - 1) := by
  rw [← Nat.pow_succ', Nat.succ_eq_add_one, Nat.sub_add_cancel ty.isWidth_bits.pos]

theorem truncate_word (ha : a < 2 ^ ty.bits) : truncate ty.bits a = a :=
  truncate_of_lt (by rwa [ty.isWidth_bits.modulus_eq])

/-- Half of the words of a signed type stand for negative integers. -/
theorem value_bounds (hsigned : ty.isSigned = true) (ha : a < 2 ^ ty.bits) :
    -2 ^ (ty.bits - 1) ≤ ty.value a ∧ ty.value a < 2 ^ (ty.bits - 1) := by
  have htwo := ty.two_pow_bits
  have hbits := natCast_two_pow ty.bits
  have hhalf := natCast_two_pow (ty.bits - 1)
  simp only [value, hsigned, true_and]
  split_ifs <;> omega

/-- The machine reads the integer of a word of a signed type. -/
theorem toSigned_eq_value (hsigned : ty.isSigned = true) (ha : a < 2 ^ ty.bits) :
    toSigned ty.bits a = ty.value a := by
  have htwo := ty.two_pow_bits
  have hbits := natCast_two_pow ty.bits
  simp only [toSigned, value, truncate_word ha, ty.isWidth_bits.modulus_eq, hsigned, true_and]
  split_ifs <;> omega

/-- Words that stand for one integer are equal. -/
theorem value_inj (ha : a < 2 ^ ty.bits) (hb : b < 2 ^ ty.bits) :
    ty.value a = ty.value b ↔ a = b := by
  constructor
  · intro h
    have hbits := natCast_two_pow ty.bits
    unfold value at h
    split_ifs at h <;> omega
  · exact congrArg ty.value

end Ty

/-! ## Words of integers -/

/-- The computation gives the word of a width that an integer is congruent to. -/
def Gives {ε : Type} (x : Except ε Nat) (w : Nat) (i : Int) : Prop :=
  ∃ v, x = .ok v ∧ (v : Int) = i % 2 ^ w

namespace Ty

variable {ty : Ty} {a b : Nat}

theorem natCast_wrap (ty : Ty) (n : Nat) : (ty.wrap n : Int) = (n : Int) % 2 ^ ty.bits := by
  rw [wrap, ty.isWidth_bits.truncate_eq, Int.natCast_mod, natCast_two_pow]

theorem natCast_wrapInt (ty : Ty) (i : Int) : (ty.wrapInt i : Int) = i % 2 ^ ty.bits := by
  have hpos : (0 : Int) < 2 ^ ty.bits := by positivity
  have hmodulus : (modulus ty.bits : Int) = 2 ^ ty.bits := by
    rw [ty.isWidth_bits.modulus_eq, natCast_two_pow]
  rw [wrapInt, truncateInt, hmodulus, Int.toNat_of_nonneg (Int.emod_nonneg i hpos.ne')]

end Ty

variable {ty : Ty} {a b : Nat}

theorem gives_wrap {ε : Type} {n : Nat} {i : Int} (h : (n : Int) ≡ i [ZMOD 2 ^ ty.bits]) :
    Gives (.ok (ty.wrap n) : Except ε Nat) ty.bits i :=
  ⟨_, rfl, (ty.natCast_wrap n).trans h⟩

theorem gives_wrapInt {ε : Type} {i j : Int} (h : i ≡ j [ZMOD 2 ^ ty.bits]) :
    Gives (.ok (ty.wrapInt i) : Except ε Nat) ty.bits j :=
  ⟨_, rfl, (ty.natCast_wrapInt i).trans h⟩

/-! ## Quotients and remainders -/

/-- The quotient of two words toward zero, or the remainder. -/
theorem gives_divide (ha : a < 2 ^ ty.bits) (hb : b < 2 ^ ty.bits) (hzero : b ≠ 0)
    (remainder : Bool) :
    Gives (divide ty remainder a b) ty.bits
      (if remainder then (ty.value a).tmod (ty.value b) else (ty.value a).tdiv (ty.value b)) := by
  unfold divide
  rw [if_neg hzero]
  cases hsigned : ty.isSigned with
  | true =>
    -- The divisor is a word, so it reads zero only if it is zero.
    have hread : toSigned ty.bits b ≠ 0 := by
      rw [ne_eq, toSigned_eq_zero_iff, ty.isWidth_bits.modulus_eq]
      exact fun hdvd => hzero (Nat.eq_zero_of_dvd_of_lt hdvd hb)
    rw [if_pos rfl]
    dsimp only
    rw [if_neg hread, Ty.toSigned_eq_value hsigned ha, Ty.toSigned_eq_value hsigned hb]
    exact gives_wrapInt (Int.ModEq.refl _)
  | false =>
    rw [if_neg (by decide), Ty.value_of_unsigned hsigned, Ty.value_of_unsigned hsigned]
    refine gives_wrap ?_
    cases remainder
    · exact congrArg (· % (2 : Int) ^ ty.bits) (Int.ofNat_tdiv a b)
    · exact congrArg (· % (2 : Int) ^ ty.bits) (Int.ofNat_tmod a b)

/-! ## Shifts -/

/-- All bits are lost where the amount of a shift is the width or more. -/
theorem gives_shiftLeft (ty : Ty) (a b : Nat) :
    Gives (.ok (shiftLeft ty a b) : Except DivisionFault Nat) ty.bits (a * 2 ^ b) := by
  unfold shiftLeft
  split_ifs with hle
  · have hdvd : (2 : Int) ^ ty.bits ∣ a * 2 ^ b := (pow_dvd_pow 2 hle).mul_left _
    exact ⟨0, rfl, (Int.emod_eq_zero_of_dvd hdvd).symm⟩
  · refine gives_wrap (Int.ModEq.symm ?_)
    rw [Nat.shiftLeft_eq, Int.natCast_mul, natCast_two_pow]

/-- An integer between `-2^k` and `2^k` is shifted to the right by `k` at most: further shifts leave
zero or minus one as they are. -/
theorem div_two_pow_min {x : Int} {k : Nat} (hlower : -2 ^ k ≤ x) (hupper : x < 2 ^ k) (b : Nat) :
    x / 2 ^ min b k = x / 2 ^ b := by
  rcases Nat.le_total b k with hle | hle
  · rw [Nat.min_eq_left hle]
  · -- Both quotients are minus one below zero, and zero otherwise.
    have hpow : (2 : Int) ^ k ≤ 2 ^ b := pow_le_pow_right₀ (by decide) hle
    rw [Nat.min_eq_right hle]
    rcases lt_or_ge x 0 with hneg | hnonneg
    · rw [Int.ediv_eq_neg_one_of_neg_of_le hneg (by omega),
        Int.ediv_eq_neg_one_of_neg_of_le hneg (by omega)]
    · rw [Int.ediv_eq_zero_of_lt hnonneg hupper, Int.ediv_eq_zero_of_lt hnonneg (by omega)]

/-- A shift to the right divides by a power of two, toward the lesser integer. -/
theorem gives_shiftRight (ha : a < 2 ^ ty.bits) (b : Nat) :
    Gives (.ok (shiftRight ty a b) : Except DivisionFault Nat) ty.bits
      ((ty.value a).fdiv (2 ^ b)) := by
  rw [Int.fdiv_eq_ediv_of_nonneg _ (by positivity)]
  unfold shiftRight
  cases hsigned : ty.isSigned with
  | true =>
    obtain ⟨hlower, hupper⟩ := Ty.value_bounds hsigned ha
    rw [if_pos rfl, Ty.toSigned_eq_value hsigned ha, Int.shiftRight_eq_div_pow,
      natCast_two_pow, div_two_pow_min hlower hupper]
    exact gives_wrapInt (Int.ModEq.refl _)
  | false =>
    -- A quotient of a word is a word, so nothing is wrapped; an oversize amount leaves zero.
    have hquotient : a / 2 ^ b < 2 ^ ty.bits := Nat.lt_of_le_of_lt (Nat.div_le_self _ _) ha
    have hword : ((a / 2 ^ b : Nat) : Int) = (a : Int) / 2 ^ b % 2 ^ ty.bits := by
      rw [← Nat.mod_eq_of_lt hquotient, Int.natCast_mod, Int.natCast_div, natCast_two_pow,
        natCast_two_pow]
    rw [if_neg (by decide), Ty.value_of_unsigned hsigned]
    refine ⟨_, rfl, ?_⟩
    split_ifs with hle
    · have hsmall : a < 2 ^ b := Nat.lt_of_lt_of_le ha (Nat.pow_le_pow_right (by decide) hle)
      rw [← hword, Nat.div_eq_of_lt hsmall]
    · rw [← hword, Nat.shiftRight_eq_div_pow]

/-! ## Operations on two operands -/

/-- What an operation computes of two words of a type as integers. A shift takes the second word
itself for its amount, and to the right it divides toward the lesser integer. -/
def BinOp.integer? (ty : Ty) (a b : Nat) : BinOp → Option Int
  | add => some (ty.value a + ty.value b)
  | sub => some (ty.value a - ty.value b)
  | mul => some (ty.value a * ty.value b)
  | div => if b = 0 then none else some ((ty.value a).tdiv (ty.value b))
  | mod => if b = 0 then none else some ((ty.value a).tmod (ty.value b))
  | shl => some (a * 2 ^ b)
  | shr => some ((ty.value a).fdiv (2 ^ b))
  | _ => none

/-- How a comparison compares two words of a type: as integers of the type, or as patterns. -/
def BinOp.comparison? (ty : Ty) (a b : Nat) : BinOp → Option Bool
  | eq => some (ty.value a = ty.value b)
  | ne => some (ty.value a ≠ ty.value b)
  | lt => some (ty.value a < ty.value b)
  | gt => some (ty.value a > ty.value b)
  | le => some (ty.value a ≤ ty.value b)
  | ge => some (ty.value a ≥ ty.value b)
  | ult => some (a < b)
  | ugt => some (a > b)
  | ule => some (a ≤ b)
  | uge => some (a ≥ b)
  | _ => none

/-- An operation with an integer result computes it modulo the number of words. -/
theorem BinOp.gives_apply {op : BinOp} {x : Int} (ha : a < 2 ^ ty.bits) (hb : b < 2 ^ ty.bits)
    (hx : op.integer? ty a b = some x) : Gives (op.apply ty a b) ty.bits x := by
  -- The machine computes sums, differences and products of the words, which are congruent to the
  -- integers, and wraps once.
  have hva := ty.value_modEq a
  have hvb := ty.value_modEq b
  cases op with
  | add =>
    cases hx
    refine gives_wrap ?_
    rw [Int.natCast_add]
    exact (hva.add hvb).symm
  | sub =>
    cases hx
    exact gives_wrapInt (hva.sub hvb).symm
  | mul =>
    cases hx
    refine gives_wrap ?_
    rw [Int.natCast_mul]
    exact (hva.mul hvb).symm
  | div =>
    unfold integer? at hx
    split_ifs at hx with hzero
    cases hx
    exact gives_divide ha hb hzero false
  | mod =>
    unfold integer? at hx
    split_ifs at hx with hzero
    cases hx
    exact gives_divide ha hb hzero true
  | shl =>
    cases hx
    exact gives_shiftLeft ty a b
  | shr =>
    cases hx
    exact gives_shiftRight ha b
  | _ => cases hx

/-- Words are in the order of their integers. -/
theorem lessThan_eq (ha : a < 2 ^ ty.bits) (hb : b < 2 ^ ty.bits) :
    lessThan ty a b = decide (ty.value a < ty.value b) := by
  unfold lessThan
  cases hsigned : ty.isSigned with
  | true =>
    rw [if_pos rfl, Ty.toSigned_eq_value hsigned ha, Ty.toSigned_eq_value hsigned hb]
  | false =>
    rw [if_neg (by decide), Ty.value_of_unsigned hsigned, Ty.value_of_unsigned hsigned]
    exact decide_eq_decide.2 Int.ofNat_lt.symm

/-- A comparison of words compares their integers. -/
theorem BinOp.apply_comparison {op : BinOp} {t : Bool} (ha : a < 2 ^ ty.bits)
    (hb : b < 2 ^ ty.bits) (ht : op.comparison? ty a b = some t) :
    op.apply ty a b = .ok t.toNat := by
  have heq : (a == b) = decide (ty.value a = ty.value b) := by
    rw [Bool.eq_iff_iff, beq_iff_eq, decide_eq_true_iff, Ty.value_inj ha hb]
  -- The four comparisons of order are `lessThan` with its words exchanged, negated, or both.
  cases op with
  | eq =>
    cases ht
    rw [apply, heq]
  | ne =>
    cases ht
    rw [apply, bne, heq, decide_not]
  | lt =>
    cases ht
    rw [apply, lessThan_eq ha hb]
  | gt =>
    cases ht
    rw [apply, lessThan_eq hb ha]
  | le =>
    cases ht
    rw [apply, lessThan_eq hb ha, ← decide_not]
    simp only [not_lt]
  | ge =>
    cases ht
    rw [apply, lessThan_eq ha hb, ← decide_not]
    simp only [not_lt, ge_iff_le]
  | ult | ugt | ule | uge =>
    cases ht
    rfl
  | _ => cases ht

/-! ## Operations on one operand, and conversions -/

/-- What an operation computes of a word of a type as an integer. -/
def UnOp.integer? (ty : Ty) (a : Nat) : UnOp → Option Int
  | neg => some (-ty.value a)
  | bnot => some (-ty.value a - 1)
  | _ => none

theorem UnOp.natCast_apply {op : UnOp} {x : Int} (ha : a < 2 ^ ty.bits)
    (hx : op.integer? ty a = some x) : (op.apply ty a : Int) = x % 2 ^ ty.bits := by
  have hva := ty.value_modEq a
  cases op with
  | neg =>
    cases hx
    exact (ty.natCast_wrapInt _).trans hva.neg.symm
  | bnot =>
    cases hx
    -- The complement of a word is the word that is left to the mask, `2^w - 1 - a`.
    have hinvert : (invert ty.bits a : Int) = -(a : Int) - 1 + 2 ^ ty.bits := by
      have hbits := natCast_two_pow ty.bits
      unfold invert
      rw [Ty.truncate_word ha, ty.isWidth_bits.widthMask_eq]
      omega
    have hlt : (invert ty.bits a : Int) < 2 ^ ty.bits := by omega
    calc (invert ty.bits a : Int) = (invert ty.bits a : Int) % 2 ^ ty.bits :=
        (Int.emod_eq_of_lt (Int.natCast_nonneg _) hlt).symm
      _ = (-(a : Int) - 1) % 2 ^ ty.bits := by rw [hinvert, Int.add_emod_right]
      _ = (-ty.value a - 1) % 2 ^ ty.bits := (hva.neg.sub_right 1).symm
  | _ => cases hx

/-- A conversion between integer types keeps the integer modulo the number of words of the new type.
-/
theorem natCast_convert {target : Ty} {w w' : Nat} (hw : ty.intWidth? = some w)
    (hw' : target.intWidth? = some w') (ha : a < 2 ^ ty.bits) :
    (convert ty target a : Int) = ty.value a % 2 ^ w' := by
  rw [← Ty.bits_of_intWidth? hw']
  unfold convert
  rw [hw, hw']
  dsimp only
  cases hsigned : ty.isSigned with
  | true => rw [if_pos rfl, Ty.toSigned_eq_value hsigned ha, Ty.natCast_wrapInt]
  | false =>
    have hword : ty.wrap a = a := Ty.truncate_word ha
    rw [if_neg (by decide), Ty.value_of_unsigned hsigned, hword, Ty.natCast_wrap]

/-! ## Instructions -/

/-- An operation that reads words of a type fails on a zero divisor exactly if the operation on the
words does. -/
theorem Code.define_binary_eq_byZero_iff {code : Code} {store : Store} {label dest : String}
    {op : BinOp} {lhs rhs : Operand} (hty : code.binaryType dest op lhs rhs = .ok ty)
    (ha : store.operand ty lhs = .ok a) (hb : store.operand ty rhs = .ok b) :
    code.define label store (.binary dest op lhs rhs) = .error (.divisionByZero dest) ↔
      op.apply ty a b = .error .byZero := by
  simp only [Code.define, Code.binary, bind, Except.bind, hty, ha, hb]
  cases op.apply ty a b with
  | ok v => constructor <;> intro h <;> cases h
  | error fault =>
    cases fault with
    | byZero => exact iff_of_true rfl rfl
    | lowBitsZero => constructor <;> intro h <;> cases h

/-- What an instruction computes of words of an integer type `ty` of width `w` is the integer result
modulo `2^w`, and a division fails on a zero divisor exactly if the divisor is zero. The first
operand, or the only one, holds the word `a`. -/
theorem Code.define_integer {w : Nat} (hw : ty.intWidth? = some w) (ha : a < 2 ^ w) (code : Code)
    (label : String) (store : Store) (dest : String) :
    (∀ op lhs rhs b, b < 2 ^ w → code.binaryType dest op lhs rhs = .ok ty →
      store.operand ty lhs = .ok a → store.operand ty rhs = .ok b →
      (op = .div ∨ op = .mod →
        (code.define label store (.binary dest op lhs rhs) = .error (.divisionByZero dest) ↔
          b = 0)) ∧
      (∀ x, op.integer? ty a b = some x → ∃ v : Nat,
        code.define label store (.binary dest op lhs rhs) = .ok (dest, v) ∧
          (v : Int) = x % 2 ^ w) ∧
      (∀ t, op.comparison? ty a b = some t →
        code.define label store (.binary dest op lhs rhs) = .ok (dest, t.toNat))) ∧
    (∀ op src x, code.typeOf dest = .ok ty → code.operandType ty src = .ok ty →
      store.operand ty src = .ok a → op.integer? ty a = some x → ∃ v : Nat,
        code.define label store (.unary dest op src) = .ok (dest, v) ∧ (v : Int) = x % 2 ^ w) ∧
    (∀ src target w', target.intWidth? = some w' → store.operand ty src = .ok a → ∃ v : Nat,
      code.define label store (.cast dest src ty target) = .ok (dest, v) ∧
        (v : Int) = ty.value a % 2 ^ w') := by
  rw [← Ty.bits_of_intWidth? hw] at ha ⊢
  -- Each part is the machine's reading of the operands, followed by the operation on words.
  refine ⟨fun op lhs rhs b hb hty hlhs hrhs => ⟨fun hop => ?_, fun x hx => ?_, fun t ht => ?_⟩,
    fun op src x hdest hsrc hvalue hx => ?_, fun src target w' hw' hvalue => ?_⟩
  · rw [define_binary_eq_byZero_iff hty hlhs hrhs, BinOp.apply_eq_byZero_iff]
    exact and_iff_right hop
  · obtain ⟨v, happly, hv⟩ := BinOp.gives_apply ha hb hx
    exact ⟨v, define_binary_eq_ok hty hlhs hrhs happly, hv⟩
  · exact define_binary_eq_ok hty hlhs hrhs (BinOp.apply_comparison ha hb ht)
  · refine ⟨op.apply ty a, ?_, UnOp.natCast_apply ha hx⟩
    simp only [Code.define, bind, Except.bind, hdest, hsrc, hvalue]
    rfl
  · refine ⟨convert ty target a, ?_, natCast_convert hw hw' ha⟩
    simp only [Code.define, bind, Except.bind, hvalue]
    rfl

/-- The least integer of eight bits, divided by minus one, shifted to the right by 255, negated, and
converted to 64 bits. -/
theorem Code.define_integer_least :
    let code : Code := ⟨[("x", .i8), ("y", .i8), ("q", .i8)], [], .unit, []⟩
    let store : Store := [("x", 128), ("y", 255)]
    let computes := fun instr w (x : Int) =>
      ∃ v : Nat, code.define "entry" store instr = .ok ("q", v) ∧ (v : Int) = x % 2 ^ w
    Ty.value .i8 128 = -128 ∧ Ty.value .i8 255 = -1 ∧
      computes (.binary "q" .div (.place "x") (.place "y")) 8 128 ∧
      computes (.binary "q" .mod (.place "x") (.place "y")) 8 0 ∧
      computes (.binary "q" .shr (.place "x") (.place "y")) 8 (-1) ∧
      code.define "entry" store (.binary "q" .lt (.place "x") (.place "y")) = .ok ("q", 1) ∧
      computes (.unary "q" .neg (.place "x")) 8 128 ∧
      computes (.cast "q" (.place "x") .i8 .i64) 64 (-128) := by
  intro code store computes
  have hwidth : Ty.intWidth? .i8 = some 8 := rfl
  have hword : 128 < 2 ^ 8 := by decide
  obtain ⟨hbinary, hunary, hcast⟩ := define_integer hwidth hword code "entry" store "q"
  have hxy := fun op (hty : code.binaryType "q" op (.place "x") (.place "y") = .ok .i8) =>
    hbinary op (.place "x") (.place "y") 255 (by decide) hty rfl rfl
  refine ⟨rfl, rfl, (hxy .div rfl).2.1 128 rfl, (hxy .mod rfl).2.1 0 rfl,
    (hxy .shr rfl).2.1 (-1) ?_, (hxy .lt rfl).2.2 true rfl,
    hunary .neg (.place "x") 128 rfl rfl rfl rfl, hcast (.place "x") .i64 64 rfl rfl⟩
  decide

end FactGuard
