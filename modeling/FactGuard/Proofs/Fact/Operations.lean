import FactGuard.Proofs.Fact.Soundness
import FactGuard.Proofs.Machine.Arith
import FactGuard.Proofs.ValueRange.Sums

/-!
# Facts of what operations compute

The fact that is inferred for an operation describes what the machine computes, if the facts of its
operands describe the operands (`FactMap.describes_combine`). The amount of a shift and the divisor
of a quotient or remainder have to be known for these to say anything.
-/

namespace FactGuard.FactMap

open ValueFact

variable {a b : ValueFact} {w x y : Nat}

/-! ## Sums and differences -/

theorem describes_sum (hw : IsWidth w) (ha : a.Fits w) (hb : b.Fits w) (hx : x < modulus w)
    (hy : y < modulus w) (hax : a.Describes x) (hby : b.Describes y) :
    (ValueFact.refined ⟨a.range.add b.range, a.known.add b.known⟩).Describes (truncate w (x + y)) :=
  Describes.refined hw ⟨ha.range.add, ha.known.add _⟩ (truncate_lt _ _)
    ⟨hax.range.add hw ha.range hb.range hx hy hby.range,
      hax.known.add hw ha.known hb.known hx hy hby.known⟩

theorem describes_difference (hw : IsWidth w) (ha : a.Fits w) (hb : b.Fits w) (hx : x < modulus w)
    (hy : y < modulus w) (hax : a.Describes x) (hby : b.Describes y) :
    (ValueFact.refined ⟨a.range.sub b.range, a.known.sub b.known⟩).Describes
      (truncateInt w ((x : Int) - y)) :=
  Describes.refined hw ⟨ha.range.sub, ha.known.sub _⟩ (truncateInt_lt _ _)
    ⟨hax.range.sub hw ha.range hb.range hx hy hby.range,
      hax.known.sub hw ha.known hb.known hx hby.known⟩

/-! ## Bitwise operations -/

theorem fits_bitAnd (ha : a.Fits w) : (bitAnd w a b).Fits w := by
  have hknown : (a.known.and b.known).Fits w := ha.known.and b.known
  unfold bitAnd
  dsimp only
  split
  · split_ifs
    · exact Fits.refined ⟨ValueRange.fits_between .., hknown⟩
    · exact fits_ofKnownBits hknown
  · exact fits_ofKnownBits hknown

/-- The fact of a bitwise and. The result is not above either operand. -/
theorem describes_bitAnd (hw : IsWidth w) (ha : a.Fits w) (hb : b.Fits w) (hx : x < modulus w)
    (hy : y < modulus w) (hax : a.Describes x) (hby : b.Describes y) :
    (bitAnd w a b).Describes (x &&& y) := by
  have hknown : (a.known.and b.known).Fits w := ha.known.and b.known
  have hadmits : (a.known.and b.known).Admits (x &&& y) := hax.known.and hw ha.known hby.known
  have hlt : x &&& y < modulus w := Nat.lt_of_le_of_lt Nat.and_le_left hx
  obtain ⟨_, xmax, -, hxmax, -, hxle, hxmaxlt⟩ := hax.range.bounds ha.range hx
  obtain ⟨_, ymax, -, hymax, -, hyle, hymaxlt⟩ := hby.range.bounds hb.range hy
  have hlex : x &&& y ≤ x := Nat.and_le_left
  have hley : x &&& y ≤ y := Nat.and_le_right
  unfold bitAnd
  dsimp only
  rw [hxmax, hymax]
  dsimp only
  split_ifs
  · refine Describes.refined hw ⟨ValueRange.fits_between .., hknown⟩ hlt ⟨?_, hadmits⟩
    exact ValueRange.has_between hw hadmits.minValue_le (by omega) (by omega)
  · exact describes_ofKnownBits hw hknown hlt hadmits

/-- The known bits of a bitwise or describe it. -/
theorem describes_bitOr (hw : IsWidth w) (ha : a.Fits w) (hx : x < modulus w) (hy : y < modulus w)
    (hax : a.Describes x) (hby : b.Describes y) :
    (ofKnownBits (a.known.or b.known)).Describes (x ||| y) := by
  have hlt : x ||| y < modulus w := by
    rw [hw.modulus_eq] at hx hy ⊢
    exact Nat.or_lt_two_pow hx hy
  exact describes_ofKnownBits hw (ha.known.or _) hlt (hax.known.or hw ha.known hby.known)

/-! ## Shifts -/

/-- Known bits that admit a word give a refined fact that describes it. -/
theorem describes_refined_ofKnownBits (hw : IsWidth w) {known : KnownBits} (hknown : known.Fits w)
    (hx : x < modulus w) (h : known.Admits x) : (ofKnownBits known).refined.Describes x :=
  (describes_ofKnownBits hw hknown hx h).refined hw (fits_ofKnownBits hknown) hx

/-- The fact of a shift to the left. -/
theorem describes_shiftLeft {ty : Ty} (ha : a.Fits ty.bits) (hax : a.Describes x) (isSigned : Bool)
    (amount : Nat) : (shift .shl isSigned a amount).Describes (shiftLeft ty x amount) := by
  have hw := ty.isWidth_bits
  refine describes_refined_ofKnownBits hw (ha.known.shl amount) (shiftLeft_lt ty x amount) ?_
  unfold shiftLeft
  by_cases hall : ty.bits ≤ amount
  · rw [if_pos hall, KnownBits.shl, ha.known.width_eq, if_pos hall]
    exact KnownBits.admits_constant hw 0
  · rw [if_neg hall]
    exact hax.known.shl hw ha.known amount

/-- The fact of a shift to the right, with copies of the sign or with zeros. -/
theorem describes_shiftRight {ty : Ty} (ha : a.Fits ty.bits) (hx : x < modulus ty.bits)
    (hax : a.Describes x) (amount : Nat) :
    (shift .shr ty.isSigned a amount).Describes (shiftRight ty x amount) := by
  have hw := ty.isWidth_bits
  have hlt := shiftRight_lt hx amount
  unfold shiftRight at hlt ⊢
  cases hsigned : ty.isSigned with
  | true =>
    rw [hsigned, if_pos rfl] at hlt
    rw [if_pos rfl]
    exact describes_refined_ofKnownBits hw (ha.known.ashr amount) hlt
      (hax.known.ashr hw ha.known amount)
  | false =>
    rw [hsigned, if_neg (by simp)] at hlt
    rw [if_neg (by simp)]
    refine describes_refined_ofKnownBits hw (ha.known.lshr amount) hlt ?_
    by_cases hall : ty.bits ≤ amount
    · rw [if_pos hall, KnownBits.lshr, ha.known.width_eq, if_pos hall]
      exact KnownBits.admits_constant hw 0
    · rw [if_neg hall]
      exact hax.known.lshr hw ha.known amount hx

/-! ## Quotients and remainders -/

/-- The remainder by a power of two is what is below its bit. -/
theorem mod_of_isPowerOfTwo {n : Nat} (h : isPowerOfTwo n = true) (x : Nat) :
    x % n = x &&& (n - 1) := by
  simp only [isPowerOfTwo, Bool.and_eq_true, bne_iff_ne, beq_iff_eq] at h
  obtain ⟨hne, hand⟩ := h
  have hle : 2 ^ n.log2 ≤ n := Nat.log2_self_le hne
  have hlt : n < 2 ^ (n.log2 + 1) := Nat.lt_log2_self
  -- Unless the number is the power, its predecessor has the same highest bit.
  have hpow : n = 2 ^ n.log2 := by
    by_contra hgt
    have hbit : ∀ m, 2 ^ n.log2 ≤ m → m < 2 ^ (n.log2 + 1) → m.testBit n.log2 = true :=
      fun m hm hm' => by
        have hdiv : m / 2 ^ n.log2 = 1 := by
          rw [Nat.pow_succ] at hm'
          exact Nat.div_eq_of_lt_le (by omega) (by omega)
        rw [Nat.testBit_eq_decide_div_mod_eq, hdiv]
        rfl
    have hboth := congrArg (Nat.testBit · n.log2) hand
    simp only [Nat.testBit_and, Nat.zero_testBit, hbit n hle hlt,
      hbit (n - 1) (by omega) (by omega)] at hboth
    cases hboth
  rw [hpow, Nat.and_two_pow_sub_one_eq_mod]

theorem fits_remainder (ha : a.Fits w) (divisor : Nat) : (remainder w a divisor).Fits w := by
  unfold remainder
  dsimp only
  refine Fits.refined ⟨ha.range.uremConstant divisor, ?_⟩
  split_ifs
  · exact ha.known.and _
  · exact KnownBits.fits_unknown w

/-- The fact of a remainder. -/
theorem describes_remainder (hw : IsWidth w) (ha : a.Fits w) (hx : x < modulus w)
    (hax : a.Describes x) {divisor : Nat} (hdivisor : 0 < divisor) (hlt : divisor < modulus w) :
    (remainder w a divisor).Describes (x % divisor) := by
  have hmod : x % divisor < modulus w := Nat.lt_of_le_of_lt (Nat.mod_le _ _) hx
  have hrange := hax.range.uremConstant hw ha.range hx hdivisor
  unfold remainder
  dsimp only
  split_ifs with hpow
  · have hconstant := KnownBits.admits_constant hw (divisor - 1)
    rw [truncate_of_lt (by omega)] at hconstant
    have hadmits := hax.known.and hw ha.known hconstant
    rw [← mod_of_isPowerOfTwo hpow] at hadmits
    exact Describes.refined hw ⟨ha.range.uremConstant divisor, ha.known.and _⟩ hmod
      ⟨hrange, hadmits⟩
  · exact Describes.refined hw ⟨ha.range.uremConstant divisor, KnownBits.fits_unknown w⟩ hmod
      ⟨hrange, KnownBits.admits_unknown w _⟩

theorem fits_quotient (w : Nat) (a : ValueFact) (divisor : Nat) :
    (quotient w a divisor).Fits w := by
  unfold quotient
  split
  · exact Fits.refined ⟨ValueRange.fits_between .., KnownBits.fits_unknown w⟩
  · exact fits_unknown w

/-- The fact of a quotient. -/
theorem describes_quotient (hw : IsWidth w) (ha : a.Fits w) (hx : x < modulus w)
    (hax : a.Describes x) (divisor : Nat) : (quotient w a divisor).Describes (x / divisor) := by
  obtain ⟨least, greatest, hmin, hmax, hle, hge, hlt⟩ := hax.range.bounds ha.range hx
  have hdiv : x / divisor < modulus w := Nat.lt_of_le_of_lt (Nat.div_le_self _ _) hx
  unfold quotient
  rw [hmin, hmax]
  refine Describes.refined hw ⟨ValueRange.fits_between .., KnownBits.fits_unknown w⟩ hdiv
    ⟨?_, KnownBits.admits_unknown w _⟩
  exact ValueRange.has_between hw (Nat.div_le_div_right hle) (Nat.div_le_div_right hge)
    (Nat.lt_of_le_of_lt (Nat.div_le_self _ _) hlt)

/-! ## Conversions -/

/-- The fact of a word of one width that is extended or cut to another. -/
def converted (isSigned : Bool) (source w : Nat) (a : ValueFact) : ValueFact :=
  ValueFact.refined <|
    if source < w then
      if isSigned then ⟨a.range.signExtend w, a.known.signExtend w⟩
      else ⟨a.range.zeroExtend w, a.known.zeroExtend w⟩
    else ⟨a.range.truncate w, a.known.truncate w⟩

variable {source : Nat}

theorem fits_converted (ha : a.Fits source) (isSigned : Bool) (w : Nat) :
    (converted isSigned source w a).Fits w := by
  unfold converted
  refine Fits.refined ?_
  split_ifs with hwider
  · exact ⟨ha.range.signExtend hwider, KnownBits.fits_signExtend _ w⟩
  · exact ⟨ha.range.zeroExtend hwider, KnownBits.fits_zeroExtend _ w⟩
  · exact ⟨ha.range.truncate (Nat.le_of_not_lt hwider), KnownBits.fits_truncate _ w⟩

/-- The fact of a conversion between integers. -/
theorem describes_converted (hsource : IsWidth source) (hw : IsWidth w) (ha : a.Fits source)
    (hx : x < modulus source) (hax : a.Describes x) (isSigned : Bool) :
    (converted isSigned source w a).Describes
      (if isSigned then truncateInt w (toSigned source x) else truncate w x) := by
  have hlt : (if isSigned then truncateInt w (toSigned source x) else truncate w x)
      < modulus w := by
    split_ifs
    · exact truncateInt_lt _ _
    · exact truncate_lt _ _
  unfold converted
  by_cases hwider : source < w
  · rw [if_pos hwider]
    split_ifs with hsigned
    · rw [if_pos hsigned] at hlt
      exact Describes.refined hw ⟨ha.range.signExtend hwider, KnownBits.fits_signExtend _ w⟩ hlt
        ⟨hax.range.signExtend hsource hw hwider ha.range hx,
          hax.known.signExtend hsource hw ha.known⟩
    · have hsmall : x < modulus w := Nat.lt_trans hx (ValueRange.modulus_lt hsource hw hwider)
      rw [truncate_of_lt hsmall]
      exact Describes.refined hw ⟨ha.range.zeroExtend hwider, KnownBits.fits_zeroExtend _ w⟩ hsmall
        ⟨hax.range.zeroExtend hsource hw hwider ha.range hx,
          hax.known.zeroExtend hsource hw ha.known hx⟩
  · -- A word that is cut is the same with its sign and without.
    have hle : w ≤ source := Nat.le_of_not_lt hwider
    have hcut : (if isSigned then truncateInt w (toSigned source x) else truncate w x)
        = truncate w x := by
      split_ifs
      · exact truncateInt_toSigned_of_le hle x
      · rfl
    rw [if_neg hwider, hcut]
    exact Describes.refined hw ⟨ha.range.truncate hle, KnownBits.fits_truncate _ w⟩
      (truncate_lt _ _) ⟨hax.range.truncate hw hle ha.range hx, hax.known.truncate hw⟩

/-! ## Operations on two operands -/

/-- Logical operations on truth values are the bitwise ones. -/
theorem toNat_and_eq (hx : x < 2) (hy : y < 2) : (x != 0 && y != 0).toNat = x &&& y := by
  obtain rfl | rfl : x = 0 ∨ x = 1 := by omega
  · simp
  · obtain rfl | rfl : y = 0 ∨ y = 1 := by omega
    · rfl
    · rfl

theorem toNat_or_eq (hx : x < 2) (hy : y < 2) : (x != 0 || y != 0).toNat = x ||| y := by
  obtain rfl | rfl : x = 0 ∨ x = 1 := by omega
  · obtain rfl | rfl : y = 0 ∨ y = 1 := by omega
    · rfl
    · rfl
  · obtain rfl | rfl : y = 0 ∨ y = 1 := by omega
    · rfl
    · rfl

/-- The fact of an operation computed at an integer type describes what the machine computes. A
logical operation is computed at a type of one bit. -/
theorem describes_combine {op : BinOp} {ty : Ty} (ha : a.Fits ty.bits) (hb : b.Fits ty.bits)
    (hx : x < modulus ty.bits) (hy : y < modulus ty.bits) (hax : a.Describes x)
    (hby : b.Describes y) {amount? : Option Nat}
    (hamount : ∀ amount, amount? = some amount → y = amount)
    (hlogic : op = .and ∨ op = .or → ty.bits = 1) {v : Nat} (hv : op.apply ty x y = .ok v) :
    (combine op ty.isSigned ty.bits a b amount?).Describes v := by
  have hw := ty.isWidth_bits
  have hlt : op.resultType ty = ty → v < modulus ty.bits := fun hty => by
    have := BinOp.apply_lt hx hy hv
    rwa [hty] at this
  -- By cases on the operation: those that the analysis follows are described by their own lemmas.
  cases op with
  | add =>
    cases hv
    exact describes_sum hw ha hb hx hy hax hby
  | sub =>
    cases hv
    exact describes_difference hw ha hb hx hy hax hby
  | band => cases hv; exact describes_bitAnd hw ha hb hx hy hax hby
  | bor =>
    cases hv
    exact describes_bitOr hw ha hx hy hax hby
  | bxor =>
    cases hv
    exact describes_ofKnownBits hw (ha.known.xor _) (hlt rfl) (hax.known.xor hw ha.known hby.known)
  | and =>
    have hone : modulus ty.bits = 2 := by rw [hlogic (.inl rfl)]; rfl
    rw [BinOp.apply, toNat_and_eq (by omega) (by omega)] at hv
    cases hv
    exact describes_bitAnd hw ha hb hx hy hax hby
  | or =>
    have hone : modulus ty.bits = 2 := by rw [hlogic (.inr rfl)]; rfl
    rw [BinOp.apply, toNat_or_eq (by omega) (by omega)] at hv
    cases hv
    exact describes_bitOr hw ha hx hy hax hby
  | shl =>
    cases hv
    cases amount? with
    | none => exact describes_unknown hw _
    | some amount =>
      rw [hamount amount rfl]
      exact describes_shiftLeft ha hax ty.isSigned amount
  | shr =>
    cases hv
    cases amount? with
    | none => exact describes_unknown hw _
    | some amount =>
      rw [hamount amount rfl]
      exact describes_shiftRight ha hx hax amount
  | div =>
    unfold combine
    dsimp only
    split
    · rename_i divisor hsigned
      obtain rfl := hamount divisor rfl
      split_ifs
      · rw [eq_of_divide hsigned hx hv]
        exact describes_quotient hw ha hx hax y
      · exact describes_unknown hw _
    · exact describes_unknown hw _
  | mod =>
    unfold combine
    dsimp only
    split
    · rename_i divisor hsigned
      obtain rfl := hamount divisor rfl
      split_ifs with hpos
      · rw [eq_of_divide hsigned hx hv]
        exact describes_remainder hw ha hx hax hpos hy
      · exact describes_unknown hw _
    · exact describes_unknown hw _
  | mul | fadd | fsub | fmul | fdiv | eq | ne | lt | gt | le | ge | ult | ugt | ule | uge =>
    exact describes_unknown hw _

end FactGuard.FactMap
