import FactGuard.Proofs.ValueRange.Membership
import FactGuard.Guard.Condition

/-!
# When a condition holds

The condition that the settings make of a range and known bits holds of a word exactly if a check
that they ask for refuses it: the range does not contain the word, or the known bits do not
(`Settings.isViolated_condition`). An empty range refuses every word, and terms that are left out
are those that hold of none.
-/

namespace FactGuard

/-- A check that the settings ask for refuses the value. -/
def Settings.refuses (settings : Settings) (range : ValueRange) (known : KnownBits) (v : Nat) :
    Bool :=
  (settings.checkRanges && !range.contains v) || (settings.checkKnownBits && !known.contains v)

variable {range : ValueRange} {known : KnownBits} {v : Nat}

/-- A range of a width is not both empty and full. -/
theorem ValueRange.isFull_of_isEmpty (hw : IsWidth range.width) (h : range.isEmpty = true) :
    range.isFull = false := by
  have hone := hw.one_lt_modulus
  simp only [isEmpty, isFull, widthMask, Bool.and_eq_true, beq_iff_eq, Bool.and_eq_false_iff,
    beq_eq_false_iff_ne, ne_eq] at h ⊢
  omega

/-- An empty range contains nothing. -/
theorem ValueRange.contains_of_isEmpty (hw : IsWidth range.width) (h : range.isEmpty = true)
    (v : Nat) :
    range.contains v = false := by
  unfold contains
  dsimp only
  rw [isFull_of_isEmpty hw h, h]
  rfl

/-- A range is empty exactly if it contains no word, since it starts with one otherwise. -/
theorem ValueRange.isEmpty_iff_contains {w : Nat} (hw : IsWidth w) (hr : range.Fits w) :
    range.isEmpty = true ↔ ∀ v < modulus w, range.contains v = false := by
  constructor
  · intro h v _
    exact contains_of_isEmpty (by rwa [hr.width_eq]) h v
  · intro h
    by_contra hempty
    have hlower : range.Has range.lower := by
      rw [isEmpty_iff] at hempty
      unfold Has
      omega
    rw [← contains_iff hw hr hr.lower_lt, h _ hr.lower_lt] at hlower
    cases hlower

/-- One of the terms of a range that is not empty holds of the words that it does not contain. -/
theorem any_rangeTerms (hempty : range.isEmpty = false) (hv : v < modulus range.width) :
    (rangeTerms range).any (Term.holds v) = !range.contains v := by
  unfold rangeTerms ValueRange.contains ValueRange.isWrapped
  dsimp only
  rw [truncate_of_lt hv, hempty]
  cases hfull : range.isFull with
  | true => rfl
  | false =>
    by_cases hwrapped : range.upper ≤ range.lower
    · have hlt : ¬range.lower < range.upper := Nat.not_lt.2 hwrapped
      rw [Bool.eq_iff_iff]
      simp [hwrapped, hlt, Term.holds]
    · have hlt : range.lower < range.upper := Nat.lt_of_not_le hwrapped
      rw [Bool.eq_iff_iff]
      simp [hwrapped, hlt, Term.holds]

/-- One of the terms of known bits holds of the words that these do not contain. -/
theorem any_bitTerms (hv : v < modulus known.width) :
    (bitTerms known).any (Term.holds v) = !known.contains v := by
  unfold bitTerms KnownBits.contains
  dsimp only
  rw [truncate_of_lt hv, List.any_append, Bool.not_and]
  congr 1
  · split_ifs with hzero
    · rw [hzero]
      simp
    · simp [Term.holds, bne]
  · split_ifs with hone
    · rw [hone]
      simp
    · simp [Term.holds, bne]

/-- A condition always holds exactly if ranges are checked and this one is empty. -/
theorem Settings.condition_eq_always_iff (settings : Settings) :
    settings.condition range known = .always ↔
      settings.checkRanges = true ∧ range.isEmpty = true := by
  unfold condition
  rw [← Bool.and_eq_true]
  split_ifs with h <;> simp [h]

/-- A condition holds of a word exactly if a check that the settings ask for refuses it. -/
theorem Settings.isViolated_condition (settings : Settings) (hw : IsWidth range.width)
    (hknown : known.width = range.width) (hv : v < modulus range.width) :
    (settings.condition range known).isViolated v = settings.refuses range known v := by
  unfold condition refuses
  by_cases halways : (settings.checkRanges && range.isEmpty) = true
  · rw [if_pos halways]
    rw [Bool.and_eq_true] at halways
    rw [halways.1, ValueRange.contains_of_isEmpty hw halways.2]
    rfl
  · rw [if_neg halways]
    show List.any _ (fun term : Term => term.holds (truncate range.width v)) = _
    rw [truncate_of_lt hv, List.any_append]
    congr 1
    · cases hranges : settings.checkRanges with
      | false => rfl
      | true =>
        rw [hranges, Bool.true_and, Bool.not_eq_true] at halways
        exact any_rangeTerms halways hv
    · cases hbits : settings.checkKnownBits with
      | false => rfl
      | true => exact any_bitTerms (by rwa [hknown])

end FactGuard
