import FactGuard.Proofs.Fact.Soundness
import FactGuard.Proofs.ValueRange.Canonical

/-!
# Refining a fact is exact

Letting the halves of a fact tighten each other loses no value and adds none
(`ValueFact.contains_refined_iff`): a full range is replaced by the one that the known bits give,
and the bits above the greatest word of a range that does not wrap are zero in all of its words.

Doing it once is enough (`ValueFact.Valid.refined_refined`). A range that is full afterwards bounds
no bits, and the known bits still give it; any other range is kept, and has added its zeros already.
-/

namespace FactGuard

namespace ValueFact

/-- The value lies in the range and agrees with the known bits. -/
def Contains (fact : ValueFact) (v : Nat) : Prop :=
  fact.range.contains v = true ∧ fact.known.contains v = true

instance (fact : ValueFact) (v : Nat) : Decidable (fact.Contains v) :=
  inferInstanceAs (Decidable (_ ∧ _))

/-- The range and the known bits are valid at one width. -/
structure Valid (fact : ValueFact) (w : Nat) : Prop where
  range : fact.range.Valid w
  known : fact.known.Valid w

variable {fact a b : ValueFact} {known : KnownBits} {range : ValueRange} {w v greatest : Nat}

theorem Valid.toFits (h : fact.Valid w) : fact.Fits w := ⟨h.range.toFits, h.known.toFits⟩

/-- A fact contains a value if it describes the low bits of the value. -/
theorem Fits.contains_iff_describes (hw : IsWidth w) (h : fact.Fits w) (v : Nat) :
    fact.Contains v ↔ fact.Describes (truncate w v) := by
  rw [← contains_iff hw h (truncate_lt w v), Contains, ← ValueRange.contains_truncate,
    ← KnownBits.contains_truncate, h.range.width_eq, h.known.width_eq]

/-! ## Known bits below a greatest word -/

/-- There are no bits above the highest one of the greatest word of a width. -/
theorem bitsAbove_widthMask (hw : IsWidth w) : bitsAbove w (widthMask w) = 0 := by
  have hlength : w ≤ bitLength (widthMask w) := by
    have hlt := lt_two_pow_bitLength (widthMask w)
    have hpos := Nat.two_pow_pos w
    rw [hw.widthMask_eq] at hlt ⊢
    exact (Nat.pow_le_pow_iff_right (by decide)).1 (show 2 ^ w ≤ _ by omega)
  apply Nat.eq_of_testBit_eq
  intro i
  rw [testBit_bitsAbove hw, Nat.zero_testBit, Bool.and_eq_false_iff, decide_eq_false_iff_not,
    decide_eq_false_iff_not]
  omega

/-- The greatest word of the width bounds nothing. -/
theorem boundedBits_widthMask (hw : IsWidth w) (hknown : known.Valid w) :
    boundedBits known (widthMask w) = known := by
  rw [boundedBits_eq hknown.toFits, bitsAbove_widthMask hw, Nat.or_zero, if_pos hknown.disjoint,
    ← hknown.zero_width]

theorem boundedBits_boundedBits (hknown : known.Fits w) (greatest : Nat) :
    boundedBits (boundedBits known greatest) greatest = boundedBits known greatest := by
  -- Zeros that could be added are there the second time, and a one in their way still is.
  have hfits := fits_boundedBits hknown greatest
  rw [boundedBits_eq hknown] at hfits ⊢
  split_ifs at hfits ⊢ with hdisjoint
  · rw [boundedBits_eq hfits]
    dsimp only
    rw [Nat.or_assoc, Nat.or_self, if_pos hdisjoint]
  · rw [boundedBits_eq hknown, if_neg hdisjoint]

theorem valid_boundedBits (hknown : known.Valid w) (greatest : Nat) :
    (boundedBits known greatest).Valid w := by
  refine ⟨fits_boundedBits hknown.toFits greatest, ?_⟩
  rw [boundedBits_eq hknown.toFits]
  split_ifs with hdisjoint
  · exact hdisjoint
  · exact hknown.disjoint

/-- What is known stays known. -/
theorem forces_boundedBits (hknown : known.Fits w) (greatest : Nat) {i : Nat} {value : Bool}
    (h : known.forces i value = true) : (boundedBits known greatest).forces i value = true := by
  rw [boundedBits_eq hknown]
  split_ifs
  · cases value with
    | false =>
      show (known.zero.bits ||| bitsAbove w greatest).testBit i = true
      rw [Nat.testBit_or, show known.zero.bits.testBit i = true from h, Bool.true_or]
    | true => exact h
  · exact h

/-! ## Refinement -/

theorem boundedBy_boundedBy (hknown : known.Fits w) (range : ValueRange) :
    boundedBy range (boundedBy range known) = boundedBy range known := by
  unfold boundedBy
  split_ifs
  · rfl
  · cases range.max? with
    | some greatest => exact boundedBits_boundedBits hknown greatest
    | none => rfl

/-- A full range bounds nothing. -/
theorem boundedBy_of_isFull (hw : IsWidth w) (hrange : range.Fits w) (hfull : range.isFull = true)
    (hknown : known.Valid w) : boundedBy range known = known := by
  have hempty : range.isEmpty = false := by
    have hone := hw.one_lt_modulus
    rw [hrange.isFull_iff] at hfull
    rw [← Bool.not_eq_true, ValueRange.isEmpty_iff]
    omega
  have hmax : range.max? = some (widthMask w) := by
    rw [ValueRange.max?, hempty, hfull, hrange.width_eq]
    rfl
  unfold boundedBy
  rw [hmax]
  dsimp only
  rw [boundedBits_widthMask hw hknown, ite_self]

/-- The tightened range holds nothing else. -/
theorem contains_of_contains_tightenedRange (h : fact.tightenedRange.contains v = true) :
    fact.range.contains v = true := by
  unfold tightenedRange at h
  split_ifs at h with hfull
  · unfold ValueRange.contains
    dsimp only
    rw [if_pos hfull]
  · exact h

theorem Valid.tightenedRange (h : fact.Valid w) : fact.tightenedRange.Valid w := by
  unfold ValueFact.tightenedRange
  split_ifs
  · rw [ValueRange.ofKnownBits, h.known.width_eq]
    exact ValueRange.valid_between w _ _
  · exact h.range

theorem Valid.refined (h : fact.Valid w) : fact.refined.Valid w := by
  rw [refined_eq]
  exact ⟨h.tightenedRange, boundedBy_induction (motive := fun known => known.Valid w) _ h.known
    fun greatest => valid_boundedBits h.known greatest⟩

/-- Refining keeps what is known of each bit. -/
theorem forces_refined (h : fact.Fits w) {i : Nat} {value : Bool}
    (hforces : fact.known.forces i value = true) : fact.refined.known.forces i value = true := by
  rw [refined_eq]
  exact boundedBy_induction (motive := fun known => known.forces i value = true) _ hforces
    fun greatest => forces_boundedBits h.known greatest hforces

/-- Refining loses no value and adds none. -/
theorem contains_refined_iff (hw : IsWidth w) (h : fact.Fits w) (v : Nat) :
    fact.refined.Contains v ↔ fact.Contains v := by
  constructor
  · -- The range only shrinks, and the known bits only grow.
    intro hv
    have hknown := ((h.refined.contains_iff_describes hw v).1 hv).known
    rw [refined_eq] at hv
    refine ⟨contains_of_contains_tightenedRange hv.1, ?_⟩
    rw [← KnownBits.contains_truncate, h.known.width_eq,
      KnownBits.contains_iff h.known (truncate_lt w v)]
    exact hknown.of_forces fun i value => forces_refined h
  · intro hv
    rw [h.refined.contains_iff_describes hw]
    exact ((h.contains_iff_describes hw v).1 hv).refined hw h (truncate_lt w v)

/-- Tightening leaves a range full only if the known bits give a full range. -/
theorem tightenedRange_of_isFull (hfull : fact.tightenedRange.isFull = true) :
    fact.tightenedRange = ValueRange.ofKnownBits fact.known := by
  unfold tightenedRange at hfull ⊢
  split_ifs at hfull ⊢ with h
  · rfl
  · exact absurd hfull h

/-- A fact that is refined cannot be refined further. -/
theorem Valid.refined_refined (hw : IsWidth w) (h : fact.Valid w) :
    fact.refined.refined = fact.refined := by
  have hrange : (⟨fact.tightenedRange, boundedBy fact.tightenedRange fact.known⟩ :
      ValueFact).tightenedRange = fact.tightenedRange := by
    by_cases hfull : fact.tightenedRange.isFull = true
    · -- Nothing was added to the known bits, so they give this range again.
      rw [boundedBy_of_isFull hw h.tightenedRange.toFits hfull h.known]
      exact (if_pos hfull).trans (tightenedRange_of_isFull hfull).symm
    · exact if_neg hfull
  rw [refined_eq fact, refined_eq ⟨_, _⟩, hrange]
  dsimp only
  rw [boundedBy_boundedBy h.known.toFits]

/-- A join contains what either side contains. -/
theorem contains_join (hw : IsWidth w) (ha : a.Fits w) (hb : b.Fits w)
    (h : a.Contains v ∨ b.Contains v) : (a.join b).Contains v := by
  rw [(ha.join hb).contains_iff_describes hw]
  exact Describes.join hw ha hb (truncate_lt w v)
    (h.imp (ha.contains_iff_describes hw v).1 (hb.contains_iff_describes hw v).1)

/-- Refining a valid fact, also one whose halves contradict each other, keeps exactly the values
that it contains. The range holds nothing else than before, what is known of a bit stays known, and
the fact is valid again and cannot be refined further. A join contains what either side contains. -/
theorem refinement_exact (hw : IsWidth w) (ha : a.Valid w) (hb : b.Valid w) :
    (∀ v, a.refined.Contains v ↔ a.Contains v) ∧
    (∀ v, a.refined.range.contains v = true → a.range.contains v = true) ∧
    (∀ i value, a.known.forces i value = true → a.refined.known.forces i value = true) ∧
    a.refined.refined = a.refined ∧ a.refined.Valid w ∧
    ∀ v, a.Contains v ∨ b.Contains v → (a.join b).Contains v := by
  refine ⟨contains_refined_iff hw ha.toFits, fun v h => ?_, fun _ _ => forces_refined ha.toFits,
    ha.refined_refined hw, ha.refined, fun _ => contains_join hw ha.toFits hb.toFits⟩
  rw [refined_eq] at h
  exact contains_of_contains_tightenedRange h

/-- Nothing is known of the range of one byte, but its bits are those of an odd number below 64; the
other byte is 240 or more. The range of the first one becomes that from 1 to 63, and once is enough.
-/
theorem refinement_exact_byte :
    let a : ValueFact := ⟨ValueRange.full 8, KnownBits.ofBits 8 0xC0 0x01⟩
    let b : ValueFact := ⟨⟨8, 240, 0⟩, KnownBits.ofBits 8 0 0x80⟩
    IsWidth 8 ∧ a.Valid 8 ∧ b.Valid 8 ∧ a.refined.range = ⟨8, 1, 64⟩ ∧
      (∀ v, a.refined.Contains v ↔ a.Contains v) ∧ a.refined.refined = a.refined ∧
      (a.join b).Contains 63 ∧ (a.join b).Contains 240 := by
  intro a b
  have hw : IsWidth 8 := ⟨by decide, by decide⟩
  have ha : a.Valid 8 := ⟨ValueRange.valid_full 8, KnownBits.fits_ofBits .., by decide⟩
  have hb : b.Valid 8 :=
    ⟨⟨⟨rfl, by decide, by decide⟩, by decide⟩, KnownBits.fits_ofBits .., by decide⟩
  obtain ⟨hsame, -, -, honce, -, hjoin⟩ := refinement_exact hw ha hb
  exact ⟨hw, ha, hb, by decide, hsame, honce, hjoin 63 (.inl (by decide)),
    hjoin 240 (.inr (by decide))⟩

end ValueFact

end FactGuard
