import FactGuard.Proofs.KnownBits.Soundness
import FactGuard.Proofs.ValueRange.Soundness
import FactGuard.Fact.Infer

/-!
# Operations on facts are sound

A fact describes a word if its range holds it and its known bits admit it (`ValueFact.Describes`).
Letting both halves tighten each other loses no word that satisfies both (`Describes.refined`), so
each operation on facts is sound as its operations on ranges and on known bits are.
-/

namespace FactGuard

namespace ValueFact

/-- The range and the known bits have one width. -/
structure Fits (fact : ValueFact) (w : Nat) : Prop where
  range : fact.range.Fits w
  known : fact.known.Fits w

/-- The range holds the word, and the known bits admit it. -/
structure Describes (fact : ValueFact) (v : Nat) : Prop where
  range : fact.range.Has v
  known : fact.known.Admits v

variable {fact a b : ValueFact} {w v x y : Nat}

theorem Fits.width_eq (hfact : fact.Fits w) : fact.width = w := hfact.known.width_eq

/-- A word of the width is contained in both halves if the fact describes it. -/
theorem contains_iff (hw : IsWidth w) (hfact : fact.Fits w) (hv : v < modulus w) :
    (fact.range.contains v = true ∧ fact.known.contains v = true) ↔ fact.Describes v := by
  rw [ValueRange.contains_iff hw hfact.range hv, KnownBits.contains_iff hfact.known hv]
  exact ⟨fun h => ⟨h.1, h.2⟩, fun h => ⟨h.range, h.known⟩⟩

/-! ## Simple facts -/

theorem fits_unknown (w : Nat) : (unknown w).Fits w :=
  ⟨ValueRange.fits_full w, KnownBits.fits_unknown w⟩

theorem describes_unknown (hw : IsWidth w) (v : Nat) : (unknown w).Describes v :=
  ⟨ValueRange.has_full hw v, KnownBits.admits_unknown w v⟩

theorem fits_constant (w value : Nat) : (constant w value).Fits w :=
  ⟨ValueRange.fits_single w value, KnownBits.fits_constant w value⟩

theorem describes_constant (hw : IsWidth w) (value : Nat) :
    (constant w value).Describes (truncate w value) :=
  ⟨ValueRange.has_single hw value, KnownBits.admits_constant hw value⟩

theorem fits_ofKnownBits {known : KnownBits} (hknown : known.Fits w) :
    (ofKnownBits known).Fits w := by
  refine ⟨?_, hknown⟩
  rw [← hknown.width_eq]
  exact ValueRange.fits_between ..

/-- Known bits give a range that holds every word that they admit. -/
theorem describes_ofKnownBits (hw : IsWidth w) {known : KnownBits} (hknown : known.Fits w)
    (hv : v < modulus w) (h : known.Admits v) : (ofKnownBits known).Describes v := by
  have hmax : known.maxValue < modulus w := by
    rw [KnownBits.maxValue, hknown.width_eq]
    exact invert_lt w _
  refine ⟨?_, h⟩
  show (ValueRange.between known.width known.minValue known.maxValue).Has v
  rw [hknown.width_eq]
  exact ValueRange.has_between hw h.minValue_le (h.le_maxValue hw hknown hv) hmax

/-! ## Refinement -/

/-- All ones at and below the highest one of a number have no bit above it. -/
theorem lt_two_pow_bitLength (n : Nat) : n < 2 ^ bitLength n := by
  unfold bitLength
  split_ifs with hzero
  · omega
  · exact Nat.lt_log2_self

/-- The bits above the highest one of a word. -/
def bitsAbove (w greatest : Nat) : Nat := invert w (fillBelow greatest)

theorem bitsAbove_lt (w greatest : Nat) : bitsAbove w greatest < modulus w := invert_lt w _

theorem testBit_bitsAbove (hw : IsWidth w) (greatest i : Nat) :
    (bitsAbove w greatest).testBit i = (decide (i < w) && decide (bitLength greatest ≤ i)) := by
  rw [bitsAbove, hw.testBit_invert, fillBelow, Nat.testBit_two_pow_sub_one]
  by_cases hi : i < bitLength greatest
  · simp [hi, Nat.not_le_of_lt hi]
  · simp [hi, Nat.le_of_not_lt hi]

/-- The bits above a greatest word become zeros, unless one of them is known to be one. -/
theorem boundedBits_eq {known : KnownBits} (hknown : known.Fits w) (greatest : Nat) :
    boundedBits known greatest
      = if (known.zero.bits ||| bitsAbove w greatest) &&& known.one.bits = 0 then
          ⟨⟨w, known.zero.bits ||| bitsAbove w greatest⟩, known.one⟩
        else known := by
  have hzeros : known.zero.bits ||| invert w (fillBelow greatest) < modulus w :=
    Nat.or_lt_two_pow hknown.zero_lt (bitsAbove_lt w greatest)
  have hones : BitMask.ofBits w known.one.bits = known.one := by
    rw [BitMask.ofBits, truncate_of_lt hknown.one_lt, ← hknown.one_width]
  unfold boundedBits KnownBits.ofMasks bitsAbove
  dsimp only
  rw [hknown.width_eq, hones, BitMask.ofBits, truncate_of_lt hzeros]
  dsimp only
  rw [if_neg (by simp [hknown.one_width])]
  split_ifs <;> first | rfl | contradiction

theorem fits_boundedBits {known : KnownBits} (hknown : known.Fits w) (greatest : Nat) :
    (boundedBits known greatest).Fits w := by
  rw [boundedBits_eq hknown]
  split_ifs
  · exact ⟨rfl, hknown.one_width, Nat.or_lt_two_pow hknown.zero_lt (bitsAbove_lt w greatest),
      hknown.one_lt⟩
  · exact hknown

/-- The bits above the greatest word of a range are zero in each of its words. -/
theorem admits_boundedBits (hw : IsWidth w) {known : KnownBits} (hknown : known.Fits w)
    (h : known.Admits v) {greatest : Nat} (hle : v ≤ greatest) :
    (boundedBits known greatest).Admits v := by
  rw [boundedBits_eq hknown]
  split_ifs
  · refine fun i => ⟨fun hbit => ?_, (h i).2⟩
    dsimp only at hbit
    rw [Nat.testBit_or, Bool.or_eq_true, testBit_bitsAbove hw, Bool.and_eq_true,
      decide_eq_true_eq, decide_eq_true_eq] at hbit
    rcases hbit with hbit | ⟨-, hge⟩
    · exact (h i).1 hbit
    · refine Nat.testBit_lt_two_pow (Nat.lt_of_le_of_lt hle ?_)
      exact Nat.lt_of_lt_of_le (lt_two_pow_bitLength greatest)
        (Nat.pow_le_pow_right (by decide) hge)
  · exact h

/-- The known bits with zeros above the greatest word of a range that does not wrap. -/
def boundedBy (range : ValueRange) (known : KnownBits) : KnownBits :=
  if range.isWrapped then known
  else match range.max? with
    | some greatest => boundedBits known greatest
    | none => known

/-- Refining tightens the range, and then the known bits by what it became. -/
theorem refined_eq (fact : ValueFact) :
    fact.refined = ⟨fact.tightenedRange, boundedBy fact.tightenedRange fact.known⟩ := by
  unfold refined boundedBy
  dsimp only
  split_ifs
  · rfl
  · cases fact.tightenedRange.max? <;> rfl

/-- Bounding known bits by a range keeps what bounding them by any word keeps. -/
theorem boundedBy_induction {motive : KnownBits → Prop} (range : ValueRange) {known : KnownBits}
    (hknown : motive known) (hbounded : ∀ greatest, motive (boundedBits known greatest)) :
    motive (boundedBy range known) := by
  unfold boundedBy
  split_ifs
  · exact hknown
  · cases range.max? with
    | some greatest => exact hbounded greatest
    | none => exact hknown

/-- The words of a range that are admitted stay so. -/
theorem admits_boundedBy (hw : IsWidth w) {range : ValueRange} (hrange : range.Fits w)
    (hhas : range.Has v) (hv : v < modulus w) {known : KnownBits} (hknown : known.Fits w)
    (h : known.Admits v) : (boundedBy range known).Admits v := by
  obtain ⟨_, greatest, -, hmax, -, hle, -⟩ := hhas.bounds hrange hv
  unfold boundedBy
  rw [hmax]
  split_ifs
  · exact h
  · exact admits_boundedBits hw hknown h hle

theorem Fits.tightenedRange (hfact : fact.Fits w) : fact.tightenedRange.Fits w := by
  unfold ValueFact.tightenedRange
  split_ifs
  · exact (fits_ofKnownBits hfact.known).range
  · exact hfact.range

theorem Describes.tightenedRange (hw : IsWidth w) (hfact : fact.Fits w) (hv : v < modulus w)
    (h : fact.Describes v) : fact.tightenedRange.Has v := by
  unfold ValueFact.tightenedRange
  split_ifs
  · exact (describes_ofKnownBits hw hfact.known hv h.known).range
  · exact h.range

theorem Fits.refined (hfact : fact.Fits w) : fact.refined.Fits w := by
  rw [refined_eq]
  exact ⟨hfact.tightenedRange, boundedBy_induction (motive := fun known => known.Fits w) _
    hfact.known (fits_boundedBits hfact.known)⟩

/-- Refining a fact loses no word that it describes. -/
theorem Describes.refined (hw : IsWidth w) (hfact : fact.Fits w) (hv : v < modulus w)
    (h : fact.Describes v) : fact.refined.Describes v := by
  have hrange := h.tightenedRange hw hfact hv
  rw [refined_eq]
  exact ⟨hrange, admits_boundedBy hw hfact.tightenedRange hrange hv hfact.known h.known⟩

theorem Fits.join (ha : a.Fits w) (hb : b.Fits w) : (a.join b).Fits w :=
  Fits.refined ⟨ha.range.hull hb.range, ha.known.common b.known⟩

/-- A join describes what either side describes. -/
theorem Describes.join (hw : IsWidth w) (ha : a.Fits w) (hb : b.Fits w) (hv : v < modulus w)
    (h : a.Describes v ∨ b.Describes v) : (a.join b).Describes v := by
  refine Describes.refined hw ⟨ha.range.hull hb.range, ha.known.common b.known⟩ hv ⟨?_, ?_⟩
  · exact ValueRange.Has.hull hw ha.range hb.range hv (h.imp (·.range) (·.range))
  · exact KnownBits.Admits.common hw ha.known (h.imp (·.known) (·.known))

end ValueFact

end FactGuard
