import Mathlib.Data.Int.ModEq
import Mathlib.Data.Nat.Bitwise
import FactGuard.Word

/-!
# Bits of words

Widths of values are between 1 and 64, and at such a width the reductions of words are described bit
by bit: cutting to a width, the inverted word, and the low bits of a signed integer that is shifted
to the right (`testBit_truncateInt_toSigned`). Sign extension is the case of no shift. Arithmetic is
modulo the number of words of a width, and words that are congruent are equal (`eq_of_modEq`).
-/

namespace FactGuard

/-- A width that values may have. -/
structure IsWidth (w : Nat) : Prop where
  pos : 0 < w
  le : w ≤ 64

namespace IsWidth

variable {w : Nat}

theorem modulus_eq (hw : IsWidth w) : modulus w = 2 ^ w := by
  rw [modulus, Nat.min_eq_left hw.le]

theorem one_lt_modulus (hw : IsWidth w) : 1 < modulus w := by
  rw [hw.modulus_eq]
  exact Nat.one_lt_two_pow (Nat.ne_of_gt hw.pos)

theorem truncate_eq (hw : IsWidth w) (v : Nat) : truncate w v = v % 2 ^ w := by
  rw [truncate, hw.modulus_eq]

theorem widthMask_eq (hw : IsWidth w) : widthMask w = 2 ^ w - 1 := by
  rw [widthMask, hw.modulus_eq]

/-- The bits of a word that was cut to a width. -/
theorem testBit_truncate (hw : IsWidth w) (v i : Nat) :
    (truncate w v).testBit i = (decide (i < w) && v.testBit i) := by
  rw [hw.truncate_eq, Nat.testBit_mod_two_pow]

theorem testBit_widthMask (hw : IsWidth w) (i : Nat) :
    (widthMask w).testBit i = decide (i < w) := by
  rw [hw.widthMask_eq, Nat.testBit_two_pow_sub_one]

/-- The bits of an inverted word. -/
theorem testBit_invert (hw : IsWidth w) (v i : Nat) :
    (invert w v).testBit i = (decide (i < w) && !v.testBit i) := by
  have hlt : v % 2 ^ w < 2 ^ w := Nat.mod_lt _ (Nat.two_pow_pos w)
  rw [invert, hw.widthMask_eq, hw.truncate_eq, Nat.sub_sub, Nat.add_comm 1,
    Nat.testBit_two_pow_sub_succ hlt, Nat.testBit_mod_two_pow]
  by_cases hi : i < w <;> simp [hi]

/-- Inverting a word twice cuts it to the width. -/
theorem invert_invert (hw : IsWidth w) (v : Nat) : invert w (invert w v) = truncate w v := by
  refine Nat.eq_of_testBit_eq fun i => ?_
  rw [hw.testBit_invert, hw.testBit_invert, hw.testBit_truncate]
  cases decide (i < w) <;> simp

/-- A word of a width has no bits above it. -/
theorem testBit_of_le (hw : IsWidth w) {v i : Nat} (hv : v < modulus w) (hi : w ≤ i) :
    v.testBit i = false := by
  rw [hw.modulus_eq] at hv
  exact Nat.testBit_lt_two_pow (Nat.lt_of_lt_of_le hv (Nat.pow_le_pow_right (by decide) hi))

/-- The bits of a word of a width are below it. -/
theorem lt_of_testBit (hw : IsWidth w) {v i : Nat} (hv : v < modulus w) (hi : v.testBit i = true) :
    i < w := by
  by_contra hge
  rw [hw.testBit_of_le hv (by omega)] at hi
  cases hi

end IsWidth

/-! ## Signed words -/

/-- A word read with sign is the bit vector read with sign. -/
theorem IsWidth.toSigned_eq {w : Nat} (hw : IsWidth w) (v : Nat) :
    toSigned w v = (BitVec.ofNat w v).toInt := by
  rw [toSigned, BitVec.toInt_eq_toNat_cond, BitVec.toNat_ofNat, hw.truncate_eq, hw.modulus_eq]

/-- The low bits of an integer are those of the bit vector that it stands for. -/
theorem IsWidth.truncateInt_eq {w : Nat} (hw : IsWidth w) (i : Int) :
    truncateInt w i = (BitVec.ofInt w i).toNat := by
  rw [truncateInt, BitVec.toNat_ofInt, hw.modulus_eq]

/-- The bits of a signed word that is shifted to the right and then cut: those above the word's
highest bit are copies of it. -/
theorem testBit_truncateInt_toSigned {w target : Nat} (hw : IsWidth w) (htarget : IsWidth target)
    (v amount i : Nat) :
    (truncateInt target (toSigned w v >>> amount)).testBit i
      = (decide (i < target) && v.testBit (min (i + amount) (w - 1))) := by
  have hpos := hw.pos
  have hbit : ∀ j, j < w → (BitVec.ofNat w v).getLsbD j = v.testBit j := fun j hj => by
    rw [BitVec.getLsbD_ofNat]
    simp [hj]
  have hmsb : (BitVec.ofNat w v).msb = v.testBit (w - 1) := by
    rw [BitVec.msb_eq_getLsbD_last, hbit _ (by omega)]
  rw [hw.toSigned_eq, ← BitVec.toInt_sshiftRight, htarget.truncateInt_eq, BitVec.testBit_toNat]
  show (((BitVec.ofNat w v).sshiftRight amount).signExtend target).getLsbD i = _
  rw [BitVec.getLsbD_signExtend, BitVec.getLsbD_sshiftRight, BitVec.msb_sshiftRight, hmsb]
  by_cases hi : i < w
  · by_cases hsum : amount + i < w
    · rw [hbit _ hsum, show min (i + amount) (w - 1) = amount + i by omega]
      simp [hi, hsum, show ¬ w ≤ i by omega]
    · rw [show min (i + amount) (w - 1) = w - 1 by omega]
      simp [hsum, hi, show ¬ w ≤ i by omega]
  · rw [show min (i + amount) (w - 1) = w - 1 by omega]
    simp [hi]

/-- The numbers of patterns of two widths divide each other. -/
theorem modulus_dvd {w target : Nat} (hle : target ≤ w) : modulus target ∣ modulus w :=
  Nat.pow_dvd_pow 2 (by omega)

/-- The low bits of the low bits of an integer. -/
theorem truncate_truncateInt {w target : Nat} (hle : target ≤ w) (i : Int) :
    truncate target (truncateInt w i) = truncateInt target i := by
  have hdvd : (modulus target : Int) ∣ (modulus w : Int) :=
    Int.natCast_dvd_natCast.2 (modulus_dvd hle)
  have hne : (modulus w : Int) ≠ 0 := Int.natCast_ne_zero.2 (Nat.ne_of_gt (modulus_pos w))
  unfold truncate truncateInt
  rw [← Int.emod_emod_of_dvd i hdvd, Int.toNat_emod (Int.emod_nonneg _ hne) (Int.natCast_nonneg _),
    Int.toNat_natCast]

/-- Reading a word with sign changes nothing in its low bits. -/
theorem truncateInt_toSigned_of_le {w target : Nat} (hle : target ≤ w) (v : Nat) :
    truncateInt target (toSigned w v) = truncate target v := by
  obtain ⟨k, hk⟩ := modulus_dvd hle
  have hlow : truncate target (truncate w v) = truncate target v :=
    Nat.mod_mod_of_dvd v (modulus_dvd hle)
  have hcast : ∀ n : Nat, ((n : Int) % (modulus target : Int)).toNat = truncate target n := by
    intro n
    rw [← Int.natCast_emod, Int.toNat_natCast]
    rfl
  unfold toSigned truncateInt
  dsimp only
  split_ifs
  · rw [hcast, hlow]
  · rw [hk, Int.natCast_mul, Int.sub_mul_emod_self_left, hcast, hlow]

/-- A word reads zero with sign if it is a multiple of the number of words. -/
theorem toSigned_eq_zero_iff (w v : Nat) : toSigned w v = 0 ↔ modulus w ∣ v := by
  have hlt := truncate_lt w v
  rw [Nat.dvd_iff_mod_eq_zero, ← truncate]
  unfold toSigned
  dsimp only
  split_ifs <;> omega

/-! ## Congruent words -/

theorem truncate_modEq (w v : Nat) : (truncate w v : Int) ≡ v [ZMOD modulus w] := by
  unfold truncate
  rw [Int.natCast_mod]
  exact Int.mod_modEq _ _

theorem truncateInt_modEq (w : Nat) (i : Int) : (truncateInt w i : Int) ≡ i [ZMOD modulus w] := by
  have hpos : (0 : Int) < modulus w := by exact_mod_cast modulus_pos w
  unfold truncateInt
  rw [Int.toNat_of_nonneg (Int.emod_nonneg i (Int.ne_of_gt hpos))]
  exact Int.mod_modEq _ _

/-- Below twice the modulus, congruent words are equal or the modulus apart. -/
theorem eq_or_eq_add_of_modEq {w m n : Nat} (hm : m < 2 * modulus w) (hn : n < modulus w)
    (h : (m : Int) ≡ n [ZMOD modulus w]) : m = n ∨ m = n + modulus w := by
  have hmod : m % modulus w = n % modulus w := Int.natCast_modEq_iff.1 h
  rw [Nat.mod_eq_of_lt hn] at hmod
  rcases Nat.lt_or_ge m (modulus w) with hlt | hge
  · rw [Nat.mod_eq_of_lt hlt] at hmod
    exact .inl hmod
  · rw [Nat.mod_eq_sub_mod hge, Nat.mod_eq_of_lt (by omega)] at hmod
    exact .inr (by omega)

/-- Congruent words are equal. -/
theorem eq_of_modEq {w m n : Nat} (hm : m < modulus w) (hn : n < modulus w)
    (h : (m : Int) ≡ n [ZMOD modulus w]) : m = n := by
  have := eq_or_eq_add_of_modEq (by omega) hn h
  omega

/-! ## Sums and differences -/

/-- A difference is a sum with the complement and a carry. -/
theorem truncateInt_sub (w x y : Nat) :
    truncateInt w ((x : Int) - y) = truncate w (x + invert w y + 1) := by
  have hlt : y % modulus w < modulus w := truncate_lt w y
  have hinvert : ((invert w y : Nat) : Int) = modulus w - 1 - (y : Int) % modulus w := by
    unfold invert widthMask truncate
    omega
  have hsum : ((x + invert w y + 1 : Nat) : Int) = x - (y : Int) % modulus w + modulus w := by
    omega
  unfold truncateInt truncate
  rw [← Int.toNat_natCast (_ % _), Int.natCast_emod, hsum, Int.add_emod_right, Int.sub_emod_emod]

/-! ## Carries -/

/-- The carry into bit `i` of a sum. -/
def carry (i x y c : Nat) : Bool := decide (2 ^ i ≤ x % 2 ^ i + y % 2 ^ i + c)

/-- A bit of a sum is the parity of the bits of its parts and the carry. -/
theorem testBit_add_carry (i x y : Nat) {c : Nat} (hc : c ≤ 1) :
    (x + y + c).testBit i = (x.testBit i ^^ y.testBit i ^^ carry i x y c) := by
  have hpos : 0 < 2 ^ i := Nat.two_pow_pos i
  have hx : x % 2 ^ i < 2 ^ i := Nat.mod_lt _ hpos
  have hy : y % 2 ^ i < 2 ^ i := Nat.mod_lt _ hpos
  -- What is below bit `i` contributes its carry only.
  have hlow : (x % 2 ^ i + y % 2 ^ i + c) / 2 ^ i = (carry i x y c).toNat := by
    by_cases hcarry : 2 ^ i ≤ x % 2 ^ i + y % 2 ^ i + c
    · have : carry i x y c = true := by simpa [carry] using hcarry
      rw [this]
      exact (Nat.div_eq_iff hpos).2 (by simp; omega)
    · have : carry i x y c = false := by simpa [carry] using hcarry
      rw [this]
      exact Nat.div_eq_of_lt (by omega)
  have hsplit : x + y + c = 2 ^ i * (x / 2 ^ i + y / 2 ^ i) + (x % 2 ^ i + y % 2 ^ i + c) := by
    have := Nat.div_add_mod x (2 ^ i)
    have := Nat.div_add_mod y (2 ^ i)
    rw [Nat.mul_add]
    omega
  have hdiv : (x + y + c) / 2 ^ i = x / 2 ^ i + y / 2 ^ i + (carry i x y c).toNat := by
    rw [hsplit, Nat.mul_add_div hpos, hlow]
  simp only [Nat.testBit_eq_decide_div_mod_eq, hdiv]
  rcases Nat.mod_two_eq_zero_or_one (x / 2 ^ i) with hx2 | hx2 <;>
    rcases Nat.mod_two_eq_zero_or_one (y / 2 ^ i) with hy2 | hy2 <;>
    cases carry i x y c <;> simp [hx2, hy2] <;> omega

/-- A carry grows with what is added. -/
theorem carry_mono {i x y c x' y' c' : Nat} (hx : x % 2 ^ i ≤ x' % 2 ^ i)
    (hy : y % 2 ^ i ≤ y' % 2 ^ i) (hc : c ≤ c') (h : carry i x y c = true) :
    carry i x' y' c' = true := by
  simp only [carry, decide_eq_true_eq] at h ⊢
  omega

/-- A word whose bits all stand in another is not greater. -/
theorem le_of_testBit {x y : Nat} (h : ∀ i, x.testBit i = true → y.testBit i = true) : x ≤ y := by
  have hand : x &&& y = x := by
    apply Nat.eq_of_testBit_eq
    intro i
    have := h i
    rw [Nat.testBit_and]
    cases hx : x.testBit i <;> simp_all
  rw [← hand]
  exact Nat.and_le_right

/-- What a word whose bits all stand in another has below a bit is not greater. -/
theorem mod_le_mod_of_testBit {x y : Nat} (h : ∀ i, x.testBit i = true → y.testBit i = true)
    (i : Nat) : x % 2 ^ i ≤ y % 2 ^ i := by
  refine le_of_testBit fun j hj => ?_
  rw [Nat.testBit_mod_two_pow, Bool.and_eq_true] at hj ⊢
  exact ⟨hj.1, h j hj.2⟩

end FactGuard
