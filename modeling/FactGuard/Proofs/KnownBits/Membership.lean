import FactGuard.Proofs.Word
import FactGuard.KnownBits.Transfer

/-!
# Which words agree with known bits

Known bits admit a word if each bit in one of the masks is the bit of the word (`KnownBits.Admits`).
For a word of the width this is what `KnownBits.contains` tests, and it is how the soundness of
operations is stated and proved, bit by bit.
-/

namespace FactGuard.KnownBits

/-- Every known bit is the bit of the word. -/
def Admits (k : KnownBits) (v : Nat) : Prop :=
  ∀ i, (k.zero.bits.testBit i = true → v.testBit i = false) ∧
    (k.one.bits.testBit i = true → v.testBit i = true)

/-- The masks have a width, and no bits above it. -/
structure Fits (k : KnownBits) (w : Nat) : Prop where
  zero_width : k.zero.width = w
  one_width : k.one.width = w
  zero_lt : k.zero.bits < modulus w
  one_lt : k.one.bits < modulus w

/-- The masks have a width, no bits above it and none in common. -/
structure Valid (k : KnownBits) (w : Nat) : Prop extends k.Fits w where
  disjoint : k.zero.bits &&& k.one.bits = 0

variable {k : KnownBits} {w v : Nat}

theorem Fits.width_eq (hk : k.Fits w) : k.width = w := hk.zero_width

/-- A bit that is known to be zero is not known to be one. -/
theorem Valid.testBit_one (hk : k.Valid w) {i : Nat} (hzero : k.zero.bits.testBit i = true) :
    k.one.bits.testBit i = false := by
  have hboth := congrArg (Nat.testBit · i) hk.disjoint
  simpa [hzero] using hboth

/-- Known bits test the low bits of a value. -/
theorem contains_truncate (k : KnownBits) (v : Nat) :
    k.contains (FactGuard.truncate k.width v) = k.contains v := by simp [contains]

/-- A word of the width is contained if it is admitted. -/
theorem contains_iff (hk : k.Fits w) (hv : v < modulus w) : k.contains v = true ↔ k.Admits v := by
  unfold contains
  rw [hk.width_eq, truncate_of_lt hv, Bool.and_eq_true, beq_iff_eq, beq_iff_eq]
  -- Both masks are compared as words, and admitted bit by bit.
  constructor
  · rintro ⟨hzero, hone⟩ i
    have hz := congrArg (Nat.testBit · i) hzero
    have ho := congrArg (Nat.testBit · i) hone
    simp only [Nat.testBit_and, Nat.zero_testBit] at hz ho
    constructor
    · intro hbit
      rwa [hbit, Bool.and_true] at hz
    · intro hbit
      rwa [hbit, Bool.and_true] at ho
  · intro h
    constructor
    · apply Nat.eq_of_testBit_eq
      intro i
      rw [Nat.testBit_and, Nat.zero_testBit]
      cases hbit : k.zero.bits.testBit i with
      | false => rw [Bool.and_false]
      | true => rw [(h i).1 hbit, Bool.false_and]
    · apply Nat.eq_of_testBit_eq
      intro i
      rw [Nat.testBit_and]
      cases hbit : k.one.bits.testBit i with
      | false => rw [Bool.and_false]
      | true => rw [(h i).2 hbit, Bool.true_and]

/-- Where a word is admitted, no bit is known to be both zero and one. -/
theorem Admits.masks_disjoint (h : k.Admits v) : k.zero.bits &&& k.one.bits = 0 := by
  apply Nat.eq_of_testBit_eq
  intro i
  rw [Nat.testBit_and, Nat.zero_testBit]
  cases hone : k.one.bits.testBit i with
  | false => rw [Bool.and_false]
  | true =>
    cases hzero : k.zero.bits.testBit i with
    | false => rfl
    | true =>
      have hset := (h i).2 hone
      rw [(h i).1 hzero] at hset
      cases hset

/-- Known bits made of patterns fit their width. -/
theorem fits_ofBits (w zeros ones : Nat) : (ofBits w zeros ones).Fits w :=
  ⟨rfl, rfl, truncate_lt w zeros, truncate_lt w ones⟩

theorem fits_unknown (w : Nat) : (unknown w).Fits w :=
  ⟨rfl, rfl, modulus_pos w, modulus_pos w⟩

theorem fits_constant (w value : Nat) : (constant w value).Fits w := fits_ofBits ..

/-- Where nothing is known, every word is admitted. -/
theorem admits_unknown (w v : Nat) : (unknown w).Admits v := fun i => by
  simp [unknown, BitMask.zeros]

/-- Known bits made of patterns admit a word that agrees with these below the width. -/
theorem admits_ofBits (hw : IsWidth w) {zeros ones : Nat}
    (h : ∀ i < w, (zeros.testBit i = true → v.testBit i = false) ∧
      (ones.testBit i = true → v.testBit i = true)) : (ofBits w zeros ones).Admits v := by
  intro i
  simp only [ofBits, BitMask.ofBits, hw.testBit_truncate, Bool.and_eq_true, decide_eq_true_eq]
  exact ⟨fun hbit => (h i hbit.1).1 hbit.2, fun hbit => (h i hbit.1).2 hbit.2⟩

/-- A constant is admitted by its known bits. -/
theorem admits_constant (hw : IsWidth w) (value : Nat) :
    (constant w value).Admits (FactGuard.truncate w value) := by
  refine admits_ofBits hw fun i hi => ?_
  rw [hw.testBit_invert, hw.testBit_truncate]
  simp [hi]

/-- The least value described is not above an admitted word. -/
theorem Admits.minValue_le (h : k.Admits v) : k.minValue ≤ v := le_of_testBit fun i => (h i).2

/-- The greatest word has the bits that need not be zero. -/
theorem Fits.testBit_maxValue (hw : IsWidth w) (hk : k.Fits w) (hi : i < w) :
    k.maxValue.testBit i = !k.zero.bits.testBit i := by
  rw [maxValue, hk.width_eq, hw.testBit_invert, decide_eq_true hi, Bool.true_and]

/-- An admitted word of the width has its ones among those of the greatest value described. -/
theorem Admits.testBit_maxValue (hw : IsWidth w) (hk : k.Fits w) (hv : v < modulus w)
    (h : k.Admits v) (i : Nat) (hbit : v.testBit i = true) : k.maxValue.testBit i = true := by
  rw [maxValue, hk.width_eq, hw.testBit_invert]
  have hi := hw.lt_of_testBit hv hbit
  have hzero : k.zero.bits.testBit i = false := by
    by_contra hne
    rw [(h i).1 (by simpa using hne)] at hbit
    cases hbit
  simp [hi, hzero]

/-- The greatest value described is not below an admitted word. -/
theorem Admits.le_maxValue (hw : IsWidth w) (hk : k.Fits w) (hv : v < modulus w)
    (h : k.Admits v) : v ≤ k.maxValue := le_of_testBit (h.testBit_maxValue hw hk hv)

end FactGuard.KnownBits
