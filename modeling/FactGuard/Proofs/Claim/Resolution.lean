import FactGuard.Proofs.Machine.Arith
import FactGuard.Proofs.ValueRange.Membership
import FactGuard.Claim.Table

/-!
# Which claims can be made

A claim cannot be made of a value if its bounds or its masks do not fit the width of the value
(`Claim.Unfit`). At every width that values may have, `Claim.resolve` refuses these claims and no
others, and takes over the masks of the others as they are (`Claim.resolve_cases`).
-/

namespace FactGuard

/-- The claim is not one about a value of the width: a bound is too great, or the bounds are equal
and stand for neither the empty nor the full set, or a mask has a bit above the width. -/
inductive Claim.Unfit (claim : Claim) (w : Nat) : Prop
  | boundsTooWide {lower upper : Nat} (hrange : claim.range = some (.bounds lower upper))
      (hwide : 2 ^ w ≤ lower ∨ 2 ^ w ≤ upper)
  | ambiguousBounds {bound : Nat} (hrange : claim.range = some (.bounds bound bound))
      (hempty : bound ≠ 0) (hfull : bound ≠ 2 ^ w - 1)
  | excessBit {mask i : Nat} (hmask : claim.knownZero = some mask ∨ claim.knownOne = some mask)
      (hi : w ≤ i) (hbit : mask.testBit i = true)

/-- The bits that a claim says are zero and those that it says are one, if it says any. -/
def Claim.masks? (claim : Claim) : Option (Nat × Nat) :=
  if claim.knownZero.isNone && claim.knownOne.isNone then none
  else some (claim.knownZero.getD 0, claim.knownOne.getD 0)

/-- Two patterns as masks of a width. -/
def BitMask.both (w : Nat) (masks : Nat × Nat) : BitMask × BitMask := (⟨w, masks.1⟩, ⟨w, masks.2⟩)

variable {w : Nat} {claim : Claim}

/-! ## Bounds -/

namespace Claim

/-- The range of a claim is refused if its bounds are unfit, and else it has the width. -/
theorem resolveRange_cases (hw : IsWidth w) (claim : Claim) :
    (∃ cause lower upper, claim.resolveRange w = .error cause ∧
        claim.range = some (.bounds lower upper) ∧
        (2 ^ w ≤ lower ∨ 2 ^ w ≤ upper ∨ lower = upper ∧ lower ≠ 0 ∧ lower ≠ 2 ^ w - 1)) ∨
      (∃ range?, claim.resolveRange w = .ok range? ∧ (∀ range ∈ range?, range.width = w) ∧
        ∀ lower upper, claim.range = some (.bounds lower upper) →
          lower < 2 ^ w ∧ upper < 2 ^ w ∧ ¬(lower = upper ∧ lower ≠ 0 ∧ lower ≠ 2 ^ w - 1)) := by
  unfold resolveRange
  cases claim.range with
  | none => exact .inr ⟨none, rfl, by simp, by simp⟩
  | some range =>
    cases range with
    | named set =>
      refine .inr ⟨_, rfl, ?_, by simp⟩
      cases set <;> simp [NamedSet.range, ValueRange.full, ValueRange.empty]
    | bounds lower upper =>
      dsimp only [ClaimedRange.resolve]
      rw [ValueRange.ofBounds_eq hw]
      split_ifs with hwide hambiguous
      · exact .inl ⟨_, lower, upper, rfl, rfl, by omega⟩
      · exact .inl ⟨_, lower, upper, rfl, rfl, .inr (.inr hambiguous)⟩
      · refine .inr ⟨_, rfl, by simp, fun lower' upper' h => ?_⟩
        cases h
        exact ⟨by omega, by omega, hambiguous⟩

/-! ## Masks -/

/-- No bits are in excess if none is above the width. -/
theorem excess_eq_zero_iff (hw : IsWidth w) (bits : Nat) :
    bits - truncate w bits = 0 ↔ ∀ i, w ≤ i → bits.testBit i = false := by
  have hle : truncate w bits ≤ bits := Nat.mod_le _ _
  have hsame : bits - truncate w bits = 0 ↔ truncate w bits = bits := by omega
  rw [hsame]
  constructor
  · intro h i hi
    rw [← h, hw.testBit_truncate, decide_eq_false (by omega), Bool.false_and]
  · intro h
    refine Nat.eq_of_testBit_eq fun i => ?_
    rw [hw.testBit_truncate]
    by_cases hi : i < w
    · rw [decide_eq_true hi, Bool.true_and]
    · rw [decide_eq_false hi, Bool.false_and, h i (by omega)]

/-- A mask of a claim has no bit where both masks together have none. -/
theorem testBit_eq_false_of_masks {mask i : Nat}
    (hmask : claim.knownZero = some mask ∨ claim.knownOne = some mask)
    (h : (claim.knownZero.getD 0 ||| claim.knownOne.getD 0).testBit i = false) :
    mask.testBit i = false := by
  rw [Nat.testBit_or, Bool.or_eq_false_iff] at h
  rcases hmask with hmask | hmask
  · rw [hmask] at h
    exact h.1
  · rw [hmask] at h
    exact h.2

/-- The masks of a claim are refused if one has a bit above the width, and else they are taken over.
-/
theorem resolveMasks_cases (hw : IsWidth w) (claim : Claim) :
    (∃ cause mask i, claim.resolveMasks w = .error cause ∧
        (claim.knownZero = some mask ∨ claim.knownOne = some mask) ∧ w ≤ i ∧
        mask.testBit i = true) ∨
      (claim.resolveMasks w = .ok (claim.masks?.map (BitMask.both w)) ∧
        ∀ mask i, claim.knownZero = some mask ∨ claim.knownOne = some mask → w ≤ i →
          mask.testBit i = false) := by
  unfold resolveMasks masks?
  by_cases hnone : claim.knownZero.isNone && claim.knownOne.isNone
  · rw [if_pos hnone, if_pos hnone]
    rw [Bool.and_eq_true, Option.isNone_iff_eq_none, Option.isNone_iff_eq_none] at hnone
    refine .inr ⟨rfl, fun mask i hmask => ?_⟩
    rw [hnone.1, hnone.2] at hmask
    simp at hmask
  rw [if_neg hnone, if_neg hnone]
  dsimp only
  have hexcess := excess_eq_zero_iff hw (claim.knownZero.getD 0 ||| claim.knownOne.getD 0)
  by_cases hzero : (claim.knownZero.getD 0 ||| claim.knownOne.getD 0)
      - truncate w (claim.knownZero.getD 0 ||| claim.knownOne.getD 0) = 0
  · rw [if_neg (not_not.2 hzero)]
    have hbits := hexcess.1 hzero
    refine .inr ⟨?_, fun mask i hmask hi => testBit_eq_false_of_masks hmask (hbits i hi)⟩
    -- Neither mask loses a bit when it is cut to the width.
    have hcut : ∀ bits, (∀ i, w ≤ i → bits.testBit i = false) → truncate w bits = bits :=
      fun bits h => by
        have := (excess_eq_zero_iff hw bits).2 h
        have : truncate w bits ≤ bits := Nat.mod_le _ _
        omega
    simp only [Nat.testBit_or, Bool.or_eq_false_iff] at hbits
    simp only [Option.map_some, BitMask.both, BitMask.ofBits, hcut _ fun i hi => (hbits i hi).1,
      hcut _ fun i hi => (hbits i hi).2]
  · rw [if_pos hzero]
    have hbit : ∃ i, w ≤ i ∧
        (claim.knownZero.getD 0 ||| claim.knownOne.getD 0).testBit i = true := by
      by_contra hall
      push Not at hall
      exact hzero (hexcess.2 fun i hi => by simpa using hall i hi)
    obtain ⟨i, hi, hbit⟩ := hbit
    rw [Nat.testBit_or, Bool.or_eq_true] at hbit
    rcases hbit with hbit | hbit
    · cases hmask : claim.knownZero with
      | none => simp [hmask] at hbit
      | some mask => exact .inl ⟨_, mask, i, rfl, .inl rfl, hi, by simpa [hmask] using hbit⟩
    · cases hmask : claim.knownOne with
      | none => simp [hmask] at hbit
      | some mask => exact .inl ⟨_, mask, i, rfl, .inr rfl, hi, by simpa [hmask] using hbit⟩

/-! ## Claims -/

/-- A claim that is unfit is refused. Any other keeps its masks, and its range has the width. -/
theorem resolve_cases (hw : IsWidth w) (claim : Claim) :
    (claim.Unfit w ∧ ∃ cause, claim.resolve w = .error cause) ∨
      (¬claim.Unfit w ∧ ∃ resolved, claim.resolve w = .ok resolved ∧
        (∀ range ∈ resolved.range, range.width = w) ∧
        resolved.known = claim.masks?.map (BitMask.both w)) := by
  unfold resolve
  rcases resolveRange_cases hw claim with
    ⟨cause, lower, upper, herror, hrange, hbounds⟩ | ⟨range?, hrange, hwidth, hbounds⟩
  · refine .inl ⟨?_, cause, by rw [herror]; rfl⟩
    rcases hbounds with hlower | hupper | ⟨rfl, hempty, hfull⟩
    · exact .boundsTooWide hrange (.inl hlower)
    · exact .boundsTooWide hrange (.inr hupper)
    · exact .ambiguousBounds hrange hempty hfull
  rw [hrange]
  rcases resolveMasks_cases hw claim with
    ⟨cause, mask, i, herror, hmask, hi, hbit⟩ | ⟨hmasks, hbits⟩
  · exact .inl ⟨.excessBit hmask hi hbit, cause, by rw [herror]; rfl⟩
  · refine .inr ⟨fun hunfit => ?_, ⟨range?, claim.masks?.map (BitMask.both w)⟩, ?_, hwidth, rfl⟩
    · cases hunfit with
      | boundsTooWide hrange hwide =>
        have := hbounds _ _ hrange
        omega
      | ambiguousBounds hrange hempty hfull => exact (hbounds _ _ hrange).2.2 ⟨rfl, hempty, hfull⟩
      | excessBit hmask hi hbit =>
        rw [hbits _ _ hmask hi] at hbit
        cases hbit
    · rw [hmasks]
      rfl

end Claim

end FactGuard
