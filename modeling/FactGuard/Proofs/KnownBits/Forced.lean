import FactGuard.Proofs.KnownBits.Membership

/-!
# Which bits are forced

Known bits force a bit to a value if it stands in the mask of this value (`KnownBits.forces`). A
word is admitted if it has all forced bits (`Fits.admits_of_forces`). Shifts and changes of width
force a bit as their operand forces the bit that is copied there. Where none is copied they force a
zero, or what is forced of the sign bit. That their results admit the right words, and that they
force as much as they can, both follow from this.
-/

namespace FactGuard.KnownBits

/-- The bit at an index is known, and has the value. -/
def forces (k : KnownBits) (index : Nat) (value : Bool) : Bool :=
  (if value then k.one.bits else k.zero.bits).testBit index

variable {a k : KnownBits} {w target v amount i j : Nat} {value : Bool}

/-- A forced bit has its value in every admitted word. -/
theorem Admits.testBit_eq (hv : k.Admits v) (h : k.forces i value = true) :
    v.testBit i = value := by
  cases value with
  | false => exact (hv i).1 h
  | true => exact (hv i).2 h

/-- A word that has all forced bits is admitted. -/
theorem Fits.admits_of_forces (hw : IsWidth w) (hk : k.Fits w)
    (h : ∀ i < w, ∀ value, k.forces i value = true → v.testBit i = value) : k.Admits v := fun i =>
  ⟨fun hzero => h i (hw.lt_of_testBit hk.zero_lt hzero) false hzero,
    fun hone => h i (hw.lt_of_testBit hk.one_lt hone) true hone⟩

/-- Known bits that force as much as others admit no more. -/
theorem Admits.of_forces (h : a.Admits v)
    (hforces : ∀ i value, k.forces i value = true → a.forces i value = true) : k.Admits v :=
  fun i => ⟨fun hzero => (h i).1 (hforces i false hzero),
    fun hone => (h i).2 (hforces i true hone)⟩

/-- Nothing is forced from the width on. -/
theorem Fits.forces_of_le (hw : IsWidth w) (hk : k.Fits w) (hj : w ≤ j) :
    k.forces j value = false := by
  rw [← Bool.not_eq_true]
  intro h
  have hlt : j < w := by
    cases value with
    | false => exact hw.lt_of_testBit hk.zero_lt h
    | true => exact hw.lt_of_testBit hk.one_lt h
  omega

/-- What masks made of patterns force. -/
theorem forces_ofBits (hw : IsWidth w) (hi : i < w) (zeros ones : Nat) (value : Bool) :
    (ofBits w zeros ones).forces i value = (if value then ones else zeros).testBit i := by
  cases value <;> simp [forces, ofBits, BitMask.ofBits, hw.testBit_truncate, hi]

/-! ## Bits that are brought in

They are those of a mask `new`, and they are zero or copies of the sign.
-/

/-- The bits of the mask of the highest bits of a word. -/
theorem testBit_highMask (hw : IsWidth w) (amount i : Nat) :
    (highMask w amount).testBit i = (decide (i < w) && decide (w ≤ i + amount)) := by
  have hlow : widthMask w >>> amount < 2 ^ w := by
    rw [hw.widthMask_eq, Nat.shiftRight_eq_div_pow]
    have := Nat.two_pow_pos w
    exact Nat.lt_of_le_of_lt (Nat.div_le_self _ _) (by omega)
  rw [highMask, hw.widthMask_eq, Nat.sub_sub, Nat.add_comm 1, ← hw.widthMask_eq,
    Nat.testBit_two_pow_sub_succ hlow, Nat.testBit_shiftRight, hw.testBit_widthMask]
  by_cases hi : i < w
  · by_cases hsum : amount + i < w
    · simp [hi, hsum, show ¬ w ≤ i + amount by omega]
    · simp [hi, hsum, show w ≤ i + amount by omega]
  · simp [hi]

/-- The bits of the mask of the bits above a width. -/
theorem testBit_extensionMask {narrow wide : Nat} (hnarrow : IsWidth narrow) (hwide : IsWidth wide)
    (hle : narrow ≤ wide) (i : Nat) :
    (extensionMask narrow wide).testBit i = (decide (i < wide) && decide (narrow ≤ i)) := by
  have hlt : widthMask narrow < 2 ^ wide := by
    have := Nat.two_pow_pos narrow
    have := Nat.pow_le_pow_right (show 0 < 2 by decide) hle
    rw [hnarrow.widthMask_eq]
    omega
  rw [extensionMask, hwide.widthMask_eq, Nat.sub_sub, Nat.add_comm 1,
    Nat.testBit_two_pow_sub_succ hlt, hnarrow.testBit_widthMask]
  by_cases hi : i < narrow
  · simp [hi, show ¬ narrow ≤ i by omega]
  · simp [hi, show narrow ≤ i by omega]

/-- The bit of the sign is set in a mask if the mask meets it. -/
theorem and_signBit_ne_zero (w mask : Nat) :
    mask &&& signBit w ≠ 0 ↔ mask.testBit (w - 1) = true := by
  rw [signBit, Nat.and_two_pow]
  cases hbit : mask.testBit (w - 1) <;> simp

/-- New bits among the zeros are forced to zero. -/
theorem forces_ofBits_or (hw : IsWidth w) (hi : i < w) (zeros ones new : Nat) :
    (ofBits w (zeros ||| new) ones).forces i value
      = ((ofBits w zeros ones).forces i value || (new.testBit i && !value)) := by
  rw [forces_ofBits hw hi, forces_ofBits hw hi]
  cases value <;> simp

/-- New bits that copy the sign are forced as the sign bit is. -/
theorem Valid.forces_spreadSign (ha : a.Valid w) (htarget : IsWidth target) (hi : i < target)
    (zeros ones new : Nat) :
    (ofBits target (a.spreadSign zeros ones new).1 (a.spreadSign zeros ones new).2).forces i value
      = ((ofBits target zeros ones).forces i value ||
          (new.testBit i && a.forces (w - 1) value)) := by
  rw [forces_ofBits htarget hi, forces_ofBits htarget hi]
  unfold spreadSign
  simp only [ha.width_eq, and_signBit_ne_zero]
  split_ifs with hzero hone <;> cases value <;> simp_all [forces, ha.testBit_one]

/-! ## Shifts -/

theorem forces_constant_zero (hw : IsWidth w) (hi : i < w) :
    (constant w 0).forces i value = !value := by
  rw [constant, forces_ofBits hw hi]
  cases value <;> simp [hw.testBit_invert, hi]

theorem Fits.forces_shl (hw : IsWidth w) (ha : a.Fits w) (hi : i < w) :
    (a.shl amount).forces i value = if i < amount then !value else a.forces (i - amount) value := by
  rw [KnownBits.shl, ha.width_eq]
  by_cases hall : amount ≥ w
  · rw [if_pos hall, if_pos (by omega), forces_constant_zero hw hi]
  · have hmoved : (ofBits w (a.zero.bits <<< amount) (a.one.bits <<< amount)).forces i value
        = (decide (amount ≤ i) && a.forces (i - amount) value) := by
      rw [forces_ofBits hw hi]
      cases value <;> exact Nat.testBit_shiftLeft ..
    rw [if_neg hall, forces_ofBits_or hw hi, hmoved, Nat.testBit_two_pow_sub_one]
    split_ifs with hlow
    · simp [hlow, show ¬ amount ≤ i by omega]
    · simp [hlow, show amount ≤ i by omega]

/-- The masks of a word that is shifted to the right, without what comes in. -/
theorem forces_shiftRight (hw : IsWidth w) (hi : i < w) (a : KnownBits) (amount : Nat) :
    (ofBits w (a.zero.bits >>> amount) (a.one.bits >>> amount)).forces i value
      = a.forces (i + amount) value := by
  rw [forces_ofBits hw hi, Nat.add_comm]
  cases value <;> exact Nat.testBit_shiftRight ..

theorem Fits.forces_lshr (hw : IsWidth w) (ha : a.Fits w) (hi : i < w) :
    (a.lshr amount).forces i value
      = if i + amount < w then a.forces (i + amount) value else !value := by
  rw [KnownBits.lshr, ha.width_eq]
  by_cases hall : amount ≥ w
  · rw [if_pos hall, if_neg (by omega), forces_constant_zero hw hi]
  · rw [if_neg hall, forces_ofBits_or hw hi, forces_shiftRight hw hi, testBit_highMask hw]
    split_ifs with hlow
    · simp [show ¬ w ≤ i + amount by omega]
    · rw [ha.forces_of_le hw (by omega)]
      simp [hi, show w ≤ i + amount by omega]

theorem Valid.forces_ashr (hw : IsWidth w) (ha : a.Valid w) (hi : i < w) :
    (a.ashr amount).forces i value = a.forces (min (i + amount) (w - 1)) value := by
  rw [KnownBits.ashr, ha.width_eq, ha.forces_spreadSign hw hi, forces_shiftRight hw hi,
    testBit_highMask hw]
  by_cases hlow : i + min amount (w - 1) < w
  · rw [show min (i + amount) (w - 1) = i + min amount (w - 1) by omega]
    simp [show ¬ w ≤ i + min amount (w - 1) by omega]
  · rw [ha.forces_of_le hw (by omega), show min (i + amount) (w - 1) = w - 1 by omega]
    simp [hi, show w ≤ i + min amount (w - 1) by omega]

/-! ## Changes of width -/

theorem forces_truncate (htarget : IsWidth target) (hi : i < target) (a : KnownBits) :
    (a.truncate target).forces i value = a.forces i value := by
  rw [KnownBits.truncate, forces_ofBits htarget hi, forces]

theorem Fits.forces_zeroExtend (hw : IsWidth w) (htarget : IsWidth target) (ha : a.Fits w)
    (hi : i < target) :
    (a.zeroExtend target).forces i value = if i < w then a.forces i value else !value := by
  rw [KnownBits.zeroExtend, ha.width_eq]
  by_cases hle : target ≤ w
  · rw [if_pos hle, if_pos (by omega), forces_truncate htarget hi]
  · have hkept : (ofBits target a.zero.bits a.one.bits).forces i value = a.forces i value :=
      forces_truncate htarget hi a
    rw [if_neg hle, forces_ofBits_or htarget hi, hkept,
      testBit_extensionMask hw htarget (by omega)]
    split_ifs with hlow
    · simp [show ¬ w ≤ i by omega]
    · rw [ha.forces_of_le hw (by omega)]
      simp [hi, show w ≤ i by omega]

theorem Valid.forces_signExtend (hw : IsWidth w) (htarget : IsWidth target) (ha : a.Valid w)
    (hi : i < target) :
    (a.signExtend target).forces i value = a.forces (min i (w - 1)) value := by
  have hpos := hw.pos
  rw [KnownBits.signExtend, ha.width_eq]
  by_cases hle : target ≤ w
  · rw [if_pos hle, forces_truncate htarget hi, show min i (w - 1) = i by omega]
  · have hkept : (ofBits target a.zero.bits a.one.bits).forces i value = a.forces i value :=
      forces_truncate htarget hi a
    rw [if_neg hle, ha.forces_spreadSign htarget hi, hkept,
      testBit_extensionMask hw htarget (by omega)]
    by_cases hlow : i < w
    · rw [show min i (w - 1) = i by omega]
      simp [show ¬ w ≤ i by omega]
    · rw [ha.forces_of_le hw (by omega), show min i (w - 1) = w - 1 by omega]
      simp [hi, show w ≤ i by omega]

end FactGuard.KnownBits
