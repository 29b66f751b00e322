import FactGuard.Proofs.KnownBits.Forced

/-!
# Operations on known bits are sound

If the operands of an operation admit two words, its result admits what the operation makes of them.
Each statement is about one bit of the result. For bitwise operations, shifts and extensions this
bit is one of the operands' bits, or the one that `KnownBits/Forced.lean` names. For sums it also
depends on the carry, and the two sums of extreme values tell it: the carry of any admitted words
lies between theirs (`Admits.addCarry`).
-/

namespace FactGuard.KnownBits

variable {a b : KnownBits} {w x y : Nat}

/-! ## Widths

The result of an operation has the width of its first operand, or the new one. -/

theorem Fits.and (ha : a.Fits w) (b : KnownBits) : (a.and b).Fits w := by
  rw [KnownBits.and, ha.width_eq]
  exact fits_ofBits ..

theorem Fits.or (ha : a.Fits w) (b : KnownBits) : (a.or b).Fits w := by
  rw [KnownBits.or, ha.width_eq]
  exact fits_ofBits ..

theorem Fits.xor (ha : a.Fits w) (b : KnownBits) : (a.xor b).Fits w := by
  rw [KnownBits.xor, ha.width_eq]
  exact fits_ofBits ..

theorem Fits.common (ha : a.Fits w) (b : KnownBits) : (a.common b).Fits w := by
  rw [KnownBits.common, ha.width_eq]
  exact fits_ofBits ..

theorem Fits.not (ha : a.Fits w) : a.not.Fits w := by
  rw [KnownBits.not, ha.width_eq]
  exact fits_ofBits ..

theorem Fits.shl (ha : a.Fits w) (amount : Nat) : (a.shl amount).Fits w := by
  rw [KnownBits.shl, ha.width_eq]
  split_ifs
  · exact fits_constant w 0
  · exact fits_ofBits ..

theorem Fits.lshr (ha : a.Fits w) (amount : Nat) : (a.lshr amount).Fits w := by
  rw [KnownBits.lshr, ha.width_eq]
  split_ifs
  · exact fits_constant w 0
  · exact fits_ofBits ..

theorem Fits.ashr (ha : a.Fits w) (amount : Nat) : (a.ashr amount).Fits w := by
  rw [KnownBits.ashr, ha.width_eq]
  exact fits_ofBits ..

theorem Fits.addCarry (ha : a.Fits w) (b : KnownBits) (least most : Nat) :
    (a.addCarry b least most).Fits w := by
  rw [KnownBits.addCarry, ha.width_eq]
  exact fits_ofBits ..

theorem Fits.add (ha : a.Fits w) (b : KnownBits) : (a.add b).Fits w := ha.addCarry b 0 0

theorem Fits.sub (ha : a.Fits w) (b : KnownBits) : (a.sub b).Fits w := ha.addCarry b.not 1 1

theorem fits_truncate (a : KnownBits) (w : Nat) : (a.truncate w).Fits w := fits_ofBits ..

theorem fits_zeroExtend (a : KnownBits) (w : Nat) : (a.zeroExtend w).Fits w := by
  unfold zeroExtend
  split_ifs
  · exact a.fits_truncate w
  · exact fits_ofBits ..

theorem fits_signExtend (a : KnownBits) (w : Nat) : (a.signExtend w).Fits w := by
  unfold signExtend
  split_ifs
  · exact a.fits_truncate w
  · exact fits_ofBits ..

/-! ## Bitwise operations -/

theorem Admits.and (hw : IsWidth w) (ha : a.Fits w) (hx : a.Admits x) (hy : b.Admits y) :
    (a.and b).Admits (x &&& y) := by
  rw [KnownBits.and, ha.width_eq]
  refine admits_ofBits hw fun i _ => ?_
  have hxi := hx i
  have hyi := hy i
  simp only [Nat.testBit_and, Nat.testBit_or]
  grind

theorem Admits.or (hw : IsWidth w) (ha : a.Fits w) (hx : a.Admits x) (hy : b.Admits y) :
    (a.or b).Admits (x ||| y) := by
  rw [KnownBits.or, ha.width_eq]
  refine admits_ofBits hw fun i _ => ?_
  have hxi := hx i
  have hyi := hy i
  simp only [Nat.testBit_and, Nat.testBit_or]
  grind

theorem Admits.xor (hw : IsWidth w) (ha : a.Fits w) (hx : a.Admits x) (hy : b.Admits y) :
    (a.xor b).Admits (x ^^^ y) := by
  rw [KnownBits.xor, ha.width_eq]
  refine admits_ofBits hw fun i _ => ?_
  have hxi := hx i
  have hyi := hy i
  simp only [Nat.testBit_and, Nat.testBit_or, Nat.testBit_xor]
  grind

theorem Admits.not (hw : IsWidth w) (ha : a.Fits w) (hx : a.Admits x) :
    a.not.Admits (invert w x) := by
  rw [KnownBits.not, ha.width_eq]
  refine admits_ofBits hw fun i hi => ?_
  have hxi := hx i
  rw [hw.testBit_invert]
  simp only [hi, decide_true, Bool.true_and]
  grind

/-- What both sides know alike admits what either of them admits. -/
theorem Admits.common (hw : IsWidth w) (ha : a.Fits w) (h : a.Admits x ∨ b.Admits x) :
    (a.common b).Admits x := by
  rw [KnownBits.common, ha.width_eq]
  refine admits_ofBits hw fun i _ => ?_
  simp only [Nat.testBit_and, Bool.and_eq_true]
  rcases h with h | h
  · exact ⟨fun hbit => (h i).1 hbit.1, fun hbit => (h i).2 hbit.1⟩
  · exact ⟨fun hbit => (h i).1 hbit.2, fun hbit => (h i).2 hbit.2⟩

/-! ## Shifts -/

theorem Admits.shl (hw : IsWidth w) (ha : a.Fits w) (amount : Nat) (hx : a.Admits x) :
    (a.shl amount).Admits (FactGuard.truncate w (x <<< amount)) := by
  refine (ha.shl amount).admits_of_forces hw fun i hi value h => ?_
  rw [ha.forces_shl hw hi] at h
  rw [hw.testBit_truncate, decide_eq_true hi, Bool.true_and, Nat.testBit_shiftLeft]
  split_ifs at h with hlow
  · rw [decide_eq_false (by omega), Bool.false_and]
    exact (Bool.not_eq_eq_eq_not.1 h).symm
  · rw [decide_eq_true (by omega), Bool.true_and]
    exact hx.testBit_eq h

theorem Admits.lshr (hw : IsWidth w) (ha : a.Fits w) (amount : Nat) (hlt : x < modulus w)
    (hx : a.Admits x) : (a.lshr amount).Admits (x >>> amount) := by
  refine (ha.lshr amount).admits_of_forces hw fun i hi value h => ?_
  rw [ha.forces_lshr hw hi] at h
  rw [Nat.testBit_shiftRight, Nat.add_comm]
  split_ifs at h with hlow
  · exact hx.testBit_eq h
  · -- The bit comes from above the word.
    rw [hw.testBit_of_le hlt (by omega)]
    exact (Bool.not_eq_eq_eq_not.1 h).symm

theorem Admits.ashr (hw : IsWidth w) (ha : a.Fits w) (amount : Nat) (hx : a.Admits x) :
    (a.ashr amount).Admits (truncateInt w (toSigned w x >>> min amount (w - 1))) := by
  -- Where a word is admitted, what is known of the sign is one value.
  have hvalid : a.Valid w := ⟨ha, hx.masks_disjoint⟩
  refine (ha.ashr amount).admits_of_forces hw fun i hi value h => ?_
  rw [hvalid.forces_ashr hw hi] at h
  rw [testBit_truncateInt_toSigned hw hw, decide_eq_true hi, Bool.true_and,
    show min (i + min amount (w - 1)) (w - 1) = min (i + amount) (w - 1) by omega]
  exact hx.testBit_eq h

/-! ## Sums -/

/-- The sum of admitted words with a carry. Where both words are known and the extreme carries
agree, the bit of the sum is that of either extreme sum. -/
theorem Admits.addCarry (hw : IsWidth w) (ha : a.Fits w) (hb : b.Fits w) (hxlt : x < modulus w)
    (hylt : y < modulus w) (hx : a.Admits x) (hy : b.Admits y) {least most c : Nat}
    (hleast : least ≤ c) (hc : c ≤ most) (hmost : most ≤ 1) :
    (a.addCarry b least most).Admits (FactGuard.truncate w (x + y + c)) := by
  unfold KnownBits.addCarry
  rw [ha.width_eq]
  refine admits_ofBits hw fun i hi => ?_
  have hxi := hx i
  have hyi := hy i
  have hmaxa := ha.testBit_maxValue hw hi
  have hmaxb := hb.testBit_maxValue hw hi
  -- The carry lies between the carries of the extreme sums.
  have hleastCarry : carry i a.minValue b.minValue least = true → carry i x y c = true :=
    carry_mono (mod_le_mod_of_testBit (fun j => (hx j).2) i)
      (mod_le_mod_of_testBit (fun j => (hy j).2) i) hleast
  have hmostCarry : carry i x y c = true → carry i a.maxValue b.maxValue most = true :=
    carry_mono (mod_le_mod_of_testBit (hx.testBit_maxValue hw ha hxlt) i)
      (mod_le_mod_of_testBit (hy.testBit_maxValue hw hb hylt) i) hc
  simp only [Nat.testBit_and, Nat.testBit_or, Nat.testBit_xor, hw.testBit_truncate,
    hw.testBit_invert, hi, decide_true, Bool.true_and, testBit_add_carry i _ _ hmost,
    testBit_add_carry i _ _ (Nat.le_trans hc hmost),
    testBit_add_carry i _ _ (Nat.le_trans (Nat.le_trans hleast hc) hmost), hmaxa, hmaxb,
    minValue] at hleastCarry hmostCarry ⊢
  generalize a.zero.bits.testBit i = az at *
  generalize a.one.bits.testBit i = ao at *
  generalize b.zero.bits.testBit i = bz at *
  generalize b.one.bits.testBit i = bo at *
  generalize x.testBit i = xi at *
  generalize y.testBit i = yi at *
  generalize carry i x y c = mid at *
  generalize carry i a.maxValue b.maxValue most = high at *
  generalize carry i a.one.bits b.one.bits least = low at *
  clear hmaxa hmaxb
  revert hxi hyi hleastCarry hmostCarry
  revert az ao bz bo xi yi mid high low
  decide

/-- The sum of admitted words. -/
theorem Admits.add (hw : IsWidth w) (ha : a.Fits w) (hb : b.Fits w) (hxlt : x < modulus w)
    (hylt : y < modulus w) (hx : a.Admits x) (hy : b.Admits y) :
    (a.add b).Admits (FactGuard.truncate w (x + y)) :=
  hx.addCarry hw ha hb hxlt hylt hy (Nat.le_refl 0) (Nat.le_refl 0) (Nat.zero_le 1)

/-- The difference of admitted words is the sum with the complement and a carry. -/
theorem Admits.sub (hw : IsWidth w) (ha : a.Fits w) (hb : b.Fits w) (hxlt : x < modulus w)
    (hx : a.Admits x) (hy : b.Admits y) :
    (a.sub b).Admits (truncateInt w ((x : Int) - y)) := by
  rw [truncateInt_sub]
  exact hx.addCarry hw ha hb.not hxlt (invert_lt w y) (hy.not hw hb) (Nat.le_refl 1) (Nat.le_refl 1)
    (Nat.le_refl 1)

/-! ## Changes of width -/

theorem Admits.truncate {target : Nat} (htarget : IsWidth target) (hx : a.Admits x) :
    (a.truncate target).Admits (FactGuard.truncate target x) := by
  refine (a.fits_truncate target).admits_of_forces htarget fun i hi value h => ?_
  rw [forces_truncate htarget hi] at h
  rw [htarget.testBit_truncate, decide_eq_true hi, Bool.true_and]
  exact hx.testBit_eq h

theorem Admits.zeroExtend (hw : IsWidth w) {target : Nat} (htarget : IsWidth target)
    (ha : a.Fits w) (hxlt : x < modulus w) (hx : a.Admits x) : (a.zeroExtend target).Admits x := by
  refine (a.fits_zeroExtend target).admits_of_forces htarget fun i hi value h => ?_
  rw [ha.forces_zeroExtend hw htarget hi] at h
  split_ifs at h with hlow
  · exact hx.testBit_eq h
  · rw [hw.testBit_of_le hxlt (by omega)]
    exact (Bool.not_eq_eq_eq_not.1 h).symm

theorem Admits.signExtend (hw : IsWidth w) {target : Nat} (htarget : IsWidth target)
    (ha : a.Fits w) (hx : a.Admits x) :
    (a.signExtend target).Admits (truncateInt target (toSigned w x)) := by
  -- Where a word is admitted, what is known of the sign is one value.
  have hvalid : a.Valid w := ⟨ha, hx.masks_disjoint⟩
  refine (a.fits_signExtend target).admits_of_forces htarget fun i hi value h => ?_
  rw [hvalid.forces_signExtend hw htarget hi] at h
  have hbit := testBit_truncateInt_toSigned hw htarget x 0 i
  rw [Int.shiftRight_zero, Nat.add_zero, decide_eq_true hi, Bool.true_and] at hbit
  rw [hbit]
  exact hx.testBit_eq h

end FactGuard.KnownBits
