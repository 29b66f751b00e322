import FactGuard.Proofs.Word
import FactGuard.ValueRange.Transfer

/-!
# Which words lie in a range

A range that is not empty holds the words from its lower bound on, around the circle, in front of
its upper bound (`ValueRange.Has`); the full range is no exception. For words of the width this is
what `ValueRange.contains` tests. It is linear in the bounds and the word, and so it is how the
soundness of operations is stated and proved.
-/

namespace FactGuard.ValueRange

/-- The word is met on the way from the lower bound to the upper one. The range with both bounds
zero is empty. -/
def Has (r : ValueRange) (v : Nat) : Prop :=
  ¬ (r.lower = 0 ∧ r.upper = 0) ∧
    ((r.lower < r.upper ∧ r.lower ≤ v ∧ v < r.upper) ∨
      (r.upper ≤ r.lower ∧ (r.lower ≤ v ∨ v < r.upper)))

/-- The range has a width, and its bounds are words of the width. -/
structure Fits (r : ValueRange) (w : Nat) : Prop where
  width_eq : r.width = w
  lower_lt : r.lower < modulus w
  upper_lt : r.upper < modulus w

/-- The range has a width and bounds of this width, which are equal only if they stand for the empty
or the full set. -/
structure Valid (r : ValueRange) (w : Nat) : Prop extends r.Fits w where
  eq_or_eq : r.lower = r.upper → r.lower = 0 ∨ r.lower = widthMask w

/-- The words of its width that a range contains. -/
def members (r : ValueRange) : Set Nat := { v | v < 2 ^ r.width ∧ r.contains v = true }

variable {r : ValueRange} {w v : Nat}

theorem isEmpty_iff : r.isEmpty = true ↔ r.lower = 0 ∧ r.upper = 0 := by
  simp only [isEmpty, Bool.and_eq_true, beq_iff_eq]
  omega

theorem Fits.isFull_iff (hr : r.Fits w) :
    r.isFull = true ↔ r.lower = r.upper ∧ r.lower = modulus w - 1 := by
  simp only [isFull, Bool.and_eq_true, beq_iff_eq, hr.width_eq, widthMask]

/-- The range runs past the greatest word, or up to it. -/
theorem Fits.isWrapped_iff (hr : r.Fits w) :
    r.isWrapped = true ↔ r.upper ≤ r.lower ∧ ¬ (r.lower = 0 ∧ r.upper = 0) ∧
      ¬ (r.lower = r.upper ∧ r.lower = modulus w - 1) := by
  have hfull := hr.isFull_iff
  have hempty := isEmpty_iff (r := r)
  simp only [isWrapped, Bool.and_eq_true, Bool.not_eq_true', ← Bool.not_eq_true, hfull, hempty,
    decide_eq_true_eq]
  omega

/-- How many words a range has. -/
theorem Fits.size_cases (hw : IsWidth w) (hr : r.Fits w) :
    (r.lower = 0 ∧ r.upper = 0 ∧ r.size = 0) ∨
      (r.lower < r.upper ∧ r.size = r.upper - r.lower) ∨
      (r.upper ≤ r.lower ∧ ¬ (r.lower = 0 ∧ r.upper = 0) ∧
        r.size = modulus w - r.lower + r.upper) := by
  have hlower := hr.lower_lt
  have hdomain : r.domainSize = modulus w := by rw [domainSize, hr.width_eq, hw.modulus_eq]
  have hone := hw.one_lt_modulus
  unfold size
  rw [hdomain]
  split_ifs with hfull hempty hlt
  · rw [hr.isFull_iff] at hfull
    omega
  · rw [isEmpty_iff] at hempty
    omega
  · omega
  · rw [isEmpty_iff] at hempty
    omega

/-- A range that is not empty has a word. -/
theorem Fits.size_pos (hw : IsWidth w) (hr : r.Fits w) (h : r.isEmpty = false) : 0 < r.size := by
  have hsize := hr.size_cases hw
  have hlower := hr.lower_lt
  rw [← Bool.not_eq_true, isEmpty_iff] at h
  omega

/-- A full range has all words. -/
theorem Fits.size_eq_of_isFull (hw : IsWidth w) (hr : r.Fits w) (h : r.isFull = true) :
    r.size = modulus w := by
  have hsize := hr.size_cases hw
  have hone := hw.one_lt_modulus
  rw [hr.isFull_iff] at h
  omega

/-- A range says no more about a value than the width has bits. -/
theorem informationBits_le (r : ValueRange) : r.informationBits ≤ r.width := by
  unfold informationBits
  split_ifs
  · exact Nat.le_refl _
  · exact Nat.sub_le _ _

/-- A range tests the low bits of a value. -/
theorem contains_truncate (r : ValueRange) (v : Nat) :
    r.contains (FactGuard.truncate r.width v) = r.contains v := by simp [contains]

/-- A word of the width is contained if it is met. -/
theorem contains_iff (hw : IsWidth w) (hr : r.Fits w) (hv : v < modulus w) :
    r.contains v = true ↔ r.Has v := by
  have hone := hw.one_lt_modulus
  have hlower := hr.lower_lt
  unfold contains Has
  rw [hr.width_eq, truncate_of_lt hv]
  dsimp only
  split_ifs with hfull hempty hlt
  · rw [hr.isFull_iff] at hfull
    simp only [true_iff]
    omega
  · rw [isEmpty_iff] at hempty
    simp [hempty]
  · rw [isEmpty_iff] at hempty
    simp only [Bool.and_eq_true, decide_eq_true_eq]
    omega
  · rw [isEmpty_iff] at hempty
    simp only [Bool.or_eq_true, decide_eq_true_eq]
    omega

/-- The members of a range are the words of the width that are met. -/
theorem mem_members_iff (hw : IsWidth w) (hr : r.Fits w) :
    v ∈ r.members ↔ v < modulus w ∧ r.Has v := by
  show v < 2 ^ r.width ∧ _ ↔ _
  rw [hr.width_eq, ← hw.modulus_eq]
  exact and_congr_right fun hv => contains_iff hw hr hv

/-- A range with a word is not empty. -/
theorem Has.isEmpty (h : r.Has v) : r.isEmpty = false := by
  rw [← Bool.not_eq_true, isEmpty_iff]
  exact h.1

/-- The least and the greatest word of a range that is not empty. -/
theorem Fits.bounds (hr : r.Fits w) (hempty : r.isEmpty = false) :
    ∃ least greatest, r.min? = some least ∧ r.max? = some greatest ∧
      (least < modulus w ∧ r.Has least) ∧ (greatest < modulus w ∧ r.Has greatest) ∧
      ∀ v < modulus w, r.Has v → least ≤ v ∧ v ≤ greatest := by
  have hlower := hr.lower_lt
  have hupper := hr.upper_lt
  have hfull := hr.isFull_iff
  have hwrapped := hr.isWrapped_iff
  have hne : ¬ (r.lower = 0 ∧ r.upper = 0) := by
    rw [← isEmpty_iff, hempty]
    exact Bool.false_ne_true
  unfold min? max? Has
  simp only [hempty, Bool.false_eq_true, if_false, Bool.or_eq_true, Bool.and_eq_true,
    decide_eq_true_eq, hr.width_eq, widthMask]
  -- Either the members are an interval, or the range goes round past the greatest word.
  by_cases hlt : r.lower < r.upper
  · have hnotFull : r.isFull = false := by
      rw [← Bool.not_eq_true, hfull]
      omega
    have hnotWrapped : r.isWrapped = false := by
      rw [← Bool.not_eq_true, hwrapped]
      omega
    refine ⟨r.lower, r.upper - 1, ?_, ?_, by omega, by omega, by omega⟩
    · simp [hnotFull, hnotWrapped]
    · simp [hnotFull, hnotWrapped]
  · have hmax : r.isFull = true ∨ r.isWrapped = true := by
      rw [hfull, hwrapped]
      omega
    by_cases hmin : r.isFull = true ∨ (r.isWrapped = true ∧ 0 < r.upper)
    · refine ⟨0, modulus w - 1, by rw [if_pos hmin], by rw [if_pos hmax], ?_, by omega, by omega⟩
      have hpos : 0 < r.upper := by
        rw [hfull] at hmin
        omega
      omega
    · -- The range runs up to the greatest word, and its upper bound is zero.
      have hzero : r.upper = 0 := by
        by_contra hne
        exact hmin (hmax.imp_right fun hwrap => ⟨hwrap, by omega⟩)
      exact ⟨r.lower, modulus w - 1, by rw [if_neg hmin], by rw [if_pos hmax], by omega, by omega,
        by omega⟩

/-- What a range holds is between its least and its greatest word. -/
theorem Has.bounds (hr : r.Fits w) (hv : v < modulus w) (h : r.Has v) :
    ∃ least greatest, r.min? = some least ∧ r.max? = some greatest ∧ least ≤ v ∧ v ≤ greatest ∧
      greatest < modulus w := by
  obtain ⟨least, greatest, hmin, hmax, -, ⟨hlt, -⟩, hbetween⟩ := hr.bounds h.isEmpty
  obtain ⟨hle, hge⟩ := hbetween v hv h
  exact ⟨least, greatest, hmin, hmax, hle, hge, hlt⟩

/-! ## Constructors -/

theorem checkWidth_eq_ok_iff : checkWidth w = .ok () ↔ IsWidth w := by
  unfold checkWidth maxWidth
  split_ifs with h
  · exact ⟨fun h => (nomatch h), fun hw => by have := hw.pos; have := hw.le; omega⟩
  · exact ⟨fun _ => ⟨by omega, by omega⟩, fun _ => rfl⟩

/-- Bounds make a range unless they are too great or ambiguous. -/
theorem ofBounds_eq (hw : IsWidth w) (lower upper : Nat) :
    ofBounds w lower upper
      = if 2 ^ w ≤ lower ∨ 2 ^ w ≤ upper then .error (.boundsTooWide lower upper w)
        else if lower = upper ∧ lower ≠ 0 ∧ lower ≠ 2 ^ w - 1 then
          .error (.ambiguousBounds lower upper)
        else .ok ⟨w, lower, upper⟩ := by
  have hpos := Nat.two_pow_pos w
  have hwide : (lower > 2 ^ w - 1 ∨ upper > 2 ^ w - 1) ↔ (2 ^ w ≤ lower ∨ 2 ^ w ≤ upper) := by
    omega
  unfold ofBounds
  rw [checkWidth_eq_ok_iff.2 hw, hw.widthMask_eq]
  simp only [hwide, bind, Except.bind]
  split_ifs <;> rfl

/-- The word after a word: the next number, or zero after the greatest one. -/
theorem truncate_succ (hv : v < modulus w) :
    (v + 1 = modulus w ∧ FactGuard.truncate w (v + 1) = 0) ∨
      (v + 1 < modulus w ∧ FactGuard.truncate w (v + 1) = v + 1) := by
  unfold FactGuard.truncate
  by_cases hwrap : v + 1 = modulus w
  · exact .inl ⟨hwrap, by rw [hwrap, Nat.mod_self]⟩
  · exact .inr ⟨by omega, Nat.mod_eq_of_lt (by omega)⟩

theorem fits_empty (w : Nat) : (empty w).Fits w := ⟨rfl, modulus_pos w, modulus_pos w⟩

theorem fits_full (w : Nat) : (full w).Fits w := by
  have := modulus_pos w
  have : widthMask w < modulus w := by
    unfold widthMask
    omega
  exact ⟨rfl, this, this⟩

theorem valid_empty (w : Nat) : (empty w).Valid w := ⟨fits_empty w, fun _ => .inl rfl⟩

theorem valid_full (w : Nat) : (full w).Valid w := ⟨fits_full w, fun _ => .inr rfl⟩

theorem has_full (hw : IsWidth w) (v : Nat) : (full w).Has v := by
  have := hw.one_lt_modulus
  unfold Has full widthMask
  dsimp only
  omega

theorem fits_single (w value : Nat) : (single w value).Fits w :=
  ⟨rfl, truncate_lt w _, truncate_lt w _⟩

/-- The bounds of a single word are the word and the one after it. -/
theorem bounds_single (w value : Nat) :
    ((single w value).lower + 1 = modulus w ∧ (single w value).upper = 0) ∨
      ((single w value).lower + 1 < modulus w ∧
        (single w value).upper = (single w value).lower + 1) := by
  have hsucc : FactGuard.truncate w (value + 1)
      = FactGuard.truncate w (FactGuard.truncate w value + 1) := (Nat.mod_add_mod value _ 1).symm
  have hnext := truncate_succ (truncate_lt w value)
  rwa [← hsucc] at hnext

theorem has_single (hw : IsWidth w) (value : Nat) :
    (single w value).Has (FactGuard.truncate w value) := by
  have hone := hw.one_lt_modulus
  have hbounds := bounds_single w value
  show (single w value).Has (single w value).lower
  unfold Has
  omega

theorem fits_between (w least greatest : Nat) : (between w least greatest).Fits w := by
  unfold between
  dsimp only
  split_ifs
  · exact ⟨rfl, modulus_pos w, modulus_pos w⟩
  · exact fits_full w
  · exact ⟨rfl, truncate_lt w _, truncate_lt w _⟩

/-- The range is empty, full or an interval between two ends, and does not run past the greatest
word. -/
inductive IsInterval (w : Nat) : ValueRange → Prop
  | empty : IsInterval w (empty w)
  | full : IsInterval w (full w)
  | between (least greatest : Nat) : IsInterval w (between w least greatest)

theorem IsInterval.fits (h : IsInterval w r) : r.Fits w := by
  cases h with
  | empty => exact fits_empty w
  | full => exact fits_full w
  | between least greatest => exact fits_between w least greatest

/-- An interval holds what is between its ends, after these are cut to the width. -/
theorem has_between_iff (hw : IsWidth w) (least greatest : Nat) (hv : v < modulus w) :
    (between w least greatest).Has v ↔
      FactGuard.truncate w least ≤ v ∧ v ≤ FactGuard.truncate w greatest := by
  have hone := hw.one_lt_modulus
  have hnext := truncate_succ (truncate_lt w greatest)
  have hlt := truncate_lt w least
  unfold between
  dsimp only
  split_ifs with hcross hfull
  · refine iff_of_false (fun h => h.1 ⟨rfl, rfl⟩) ?_
    omega
  · unfold widthMask at hfull
    exact iff_of_true (has_full hw v) (by omega)
  · unfold widthMask at hfull
    unfold Has
    dsimp only
    omega

/-- An interval holds what is between its ends. -/
theorem has_between (hw : IsWidth w) {least greatest : Nat} (hleast : least ≤ v)
    (hgreatest : v ≤ greatest) (hlt : greatest < modulus w) : (between w least greatest).Has v := by
  rw [has_between_iff hw _ _ (by omega), truncate_of_lt hlt, truncate_of_lt (by omega)]
  exact ⟨hleast, hgreatest⟩

/-- The only word of a range. -/
theorem Has.eq_of_singleElement? (hw : IsWidth w) (hr : r.Fits w) (hv : v < modulus w) (h : r.Has v)
    {only : Nat} (honly : r.singleElement? = some only) : v = only := by
  have hone := hw.one_lt_modulus
  have hlower := hr.lower_lt
  have hupper := hr.upper_lt
  have hdomain : r.domainSize = modulus w := by rw [domainSize, hr.width_eq, hw.modulus_eq]
  unfold singleElement? size at honly
  rw [hdomain] at honly
  simp only [h.isEmpty, Bool.false_eq_true, if_false] at honly
  unfold Has at h
  split_ifs at honly with hfull hlt hsize hsize
  · omega
  · cases honly
    omega
  · cases honly
    omega

end FactGuard.ValueRange
