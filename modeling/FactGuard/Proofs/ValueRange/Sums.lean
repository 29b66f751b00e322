import FactGuard.Proofs.ValueRange.Membership

/-!
# Sums and differences of ranges are exact

On the circle of the words of a width a range is an arc: the words that are met within a number of
steps from a place (`ValueRange.Arc`). Sums of words of two arcs are met from the sum of the places
on, within one step less than both arcs have together, and differences likewise. This is the arc
that `add` and `sub` answer with (`Fits.arc_add`, `Fits.arc_sub`), and it is the whole circle as
soon as it has as many steps as there are words (`Fits.arc_spanned`). So no word is lost and none is
gained (`ValueRange.add_sub_exact`).
-/

namespace FactGuard.ValueRange

variable {a b r : ValueRange} {w x y v steps more : Nat} {start other : Int}

/-! ## Arcs -/

/-- The range holds the words that are met within a number of steps from a place on the circle. -/
def Arc (r : ValueRange) (w : Nat) (start : Int) (steps : Nat) : Prop :=
  ∀ v < modulus w, r.Has v ↔ ∃ i < steps, start + (i : Nat) ≡ v [ZMOD modulus w]

/-- Congruent places begin the same arc. -/
theorem Arc.congr (h : r.Arc w start steps) (hstart : start ≡ other [ZMOD modulus w]) :
    r.Arc w other steps := fun v hv => (h v hv).trans <|
  exists_congr fun i => and_congr_right fun _ =>
    ⟨(hstart.add_right i).symm.trans, (hstart.add_right i).trans⟩

/-- A range is the arc of its size from its lower bound on. -/
theorem Fits.arc (hw : IsWidth w) (hr : r.Fits w) : r.Arc w r.lower r.size := by
  intro v hv
  have hlower := hr.lower_lt
  have hupper := hr.upper_lt
  have hsize := hr.size_cases hw
  constructor
  · intro h
    unfold Has at h
    by_cases hle : r.lower ≤ v
    · have hmet : (r.lower : Int) + (v - r.lower : Nat) = v := by omega
      exact ⟨v - r.lower, by omega, by rw [hmet]⟩
    · -- The word is met behind the greatest one.
      have hmet : (r.lower : Int) + (v + modulus w - r.lower : Nat) = v + modulus w := by omega
      refine ⟨v + modulus w - r.lower, by omega, ?_⟩
      rw [hmet]
      exact Int.add_modEq_right
  · rintro ⟨i, hi, hmet⟩
    rw [← Int.natCast_add] at hmet
    have := eq_or_eq_add_of_modEq (by omega) hv hmet
    unfold Has
    omega

/-- After as many steps as a range has words the upper bound is met. -/
theorem Fits.lower_add_size (hw : IsWidth w) (hr : r.Fits w) :
    (r.lower : Int) + r.size ≡ r.upper [ZMOD modulus w] := by
  have hlower := hr.lower_lt
  have hupper := hr.upper_lt
  rcases hr.size_cases hw with hsize | hsize | hsize
  · rw [show (r.lower : Int) + r.size = r.upper by omega]
  · rw [show (r.lower : Int) + r.size = r.upper by omega]
  · rw [show (r.lower : Int) + r.size = r.upper + modulus w by omega]
    exact Int.add_modEq_right

/-- The full range is an arc of as many steps as there are words, or more, from anywhere. -/
theorem arc_full (hw : IsWidth w) (start : Int) (hle : modulus w ≤ steps) :
    (full w).Arc w start steps := by
  intro v _
  refine iff_of_true (has_full hw v)
    ⟨truncateInt w (v - start), Nat.lt_of_lt_of_le (truncateInt_lt _ _) hle, ?_⟩
  calc start + (truncateInt w (v - start) : Nat)
      ≡ start + (v - start) [ZMOD modulus w] := (truncateInt_modEq w _).add_left start
    _ = v := by omega

/-- Bounds that are some steps apart, but fewer than there are words, make the arc of these steps.
They are not equal. -/
theorem Fits.arc_of_steps (hw : IsWidth w) (hr : r.Fits w) (hpos : 0 < steps)
    (hlt : steps < modulus w) (hlower : r.lower ≡ start [ZMOD modulus w])
    (hupper : r.upper ≡ start + steps [ZMOD modulus w]) :
    r.lower ≠ r.upper ∧ r.Arc w start steps := by
  have hlowerlt := hr.lower_lt
  have hsteps : ((r.lower + steps : Nat) : Int) ≡ r.upper [ZMOD modulus w] := by
    rw [Int.natCast_add]
    exact (hlower.add_right _).trans hupper.symm
  have hmet := eq_or_eq_add_of_modEq (by omega) hr.upper_lt hsteps
  have hsize : r.size = steps := by
    have := hr.size_cases hw
    omega
  have harc := hr.arc hw
  rw [hsize] at harc
  exact ⟨by omega, harc.congr hlower⟩

/-! ## Sums and differences of arcs -/

/-- A number of steps that two walks can make together is the sum of steps that each can make. -/
theorem exists_add_eq {i : Nat} (hsteps : 0 < steps) (hmore : 0 < more)
    (hi : i < steps + more - 1) : ∃ j < steps, ∃ k < more, i = j + k :=
  ⟨min i (steps - 1), by omega, i - min i (steps - 1), by omega, by omega⟩

/-- The word of an arc after a number of steps. -/
theorem Arc.has (h : r.Arc w start steps) {i : Nat} (hi : i < steps) :
    r.Has (truncateInt w (start + i)) :=
  (h _ (truncateInt_lt _ _)).2 ⟨i, hi, (truncateInt_modEq _ _).symm⟩

/-- The sums of the words of two arcs are an arc. -/
theorem Arc.has_iff_add (ha : a.Arc w start steps) (hb : b.Arc w other more) (hsteps : 0 < steps)
    (hmore : 0 < more) (hr : r.Arc w (start + other) (steps + more - 1)) {z : Nat}
    (hz : z < modulus w) :
    r.Has z ↔ ∃ x, (x < modulus w ∧ a.Has x) ∧ ∃ y, (y < modulus w ∧ b.Has y) ∧
      FactGuard.truncate w (x + y) = z := by
  rw [hr z hz]
  constructor
  -- A step of the sum is a step of each operand.
  · rintro ⟨i, hi, hmet⟩
    obtain ⟨j, hj, k, hk, rfl⟩ := exists_add_eq hsteps hmore hi
    refine ⟨_, ⟨truncateInt_lt _ _, ha.has hj⟩, _, ⟨truncateInt_lt _ _, hb.has hk⟩,
      eq_of_modEq (truncate_lt _ _) hz ?_⟩
    calc (FactGuard.truncate w (truncateInt w (start + j) + truncateInt w (other + k)) : Int)
        ≡ (truncateInt w (start + j) + truncateInt w (other + k) : Nat) [ZMOD modulus w] :=
          truncate_modEq _ _
      _ = (truncateInt w (start + j) : Int) + truncateInt w (other + k) := Int.natCast_add _ _
      _ ≡ (start + j) + (other + k) [ZMOD modulus w] :=
          (truncateInt_modEq _ _).add (truncateInt_modEq _ _)
      _ = start + other + (j + k : Nat) := by omega
      _ ≡ z [ZMOD modulus w] := hmet
  -- The steps of two words add up to one of the sum.
  · rintro ⟨x, ⟨hx, hax⟩, y, ⟨hy, hby⟩, rfl⟩
    obtain ⟨j, hj, hxmet⟩ := (ha x hx).1 hax
    obtain ⟨k, hk, hymet⟩ := (hb y hy).1 hby
    refine ⟨j + k, by omega, ?_⟩
    calc start + other + (j + k : Nat) = (start + j) + (other + k) := by omega
      _ ≡ x + y [ZMOD modulus w] := hxmet.add hymet
      _ = (x + y : Nat) := (Int.natCast_add x y).symm
      _ ≡ FactGuard.truncate w (x + y) [ZMOD modulus w] := (truncate_modEq _ _).symm

/-- The differences of the words of two arcs are an arc. It begins with the difference to the last
word of the second one. -/
theorem Arc.has_iff_sub (ha : a.Arc w start steps) (hb : b.Arc w other more) (hsteps : 0 < steps)
    (hmore : 0 < more) (hr : r.Arc w (start - (other + more - 1)) (steps + more - 1)) {z : Nat}
    (hz : z < modulus w) :
    r.Has z ↔ ∃ x, (x < modulus w ∧ a.Has x) ∧ ∃ y, (y < modulus w ∧ b.Has y) ∧
      truncateInt w ((x : Int) - y) = z := by
  rw [hr z hz]
  constructor
  · rintro ⟨i, hi, hmet⟩
    obtain ⟨j, hj, k, hk, rfl⟩ := exists_add_eq hsteps hmore hi
    -- The further the difference has come, the further the second word is from the last one.
    refine ⟨_, ⟨truncateInt_lt _ _, ha.has hj⟩, _,
      ⟨truncateInt_lt _ _, hb.has (show more - 1 - k < more by omega)⟩,
      eq_of_modEq (truncateInt_lt _ _) hz ?_⟩
    calc (truncateInt w ((truncateInt w (start + j) : Int)
          - truncateInt w (other + (more - 1 - k : Nat))) : Int)
        ≡ truncateInt w (start + j) - truncateInt w (other + (more - 1 - k : Nat))
          [ZMOD modulus w] := truncateInt_modEq _ _
      _ ≡ (start + j) - (other + (more - 1 - k : Nat)) [ZMOD modulus w] :=
          (truncateInt_modEq _ _).sub (truncateInt_modEq _ _)
      _ = start - (other + more - 1) + (j + k : Nat) := by omega
      _ ≡ z [ZMOD modulus w] := hmet
  · rintro ⟨x, ⟨hx, hax⟩, y, ⟨hy, hby⟩, rfl⟩
    obtain ⟨j, hj, hxmet⟩ := (ha x hx).1 hax
    obtain ⟨k, hk, hymet⟩ := (hb y hy).1 hby
    refine ⟨j + (more - 1 - k), by omega, ?_⟩
    calc start - (other + more - 1) + (j + (more - 1 - k) : Nat)
        = (start + j) - (other + k) := by omega
      _ ≡ x - y [ZMOD modulus w] := hxmet.sub hymet
      _ ≡ truncateInt w ((x : Int) - y) [ZMOD modulus w] := (truncateInt_modEq _ _).symm

/-! ## Sums and differences of ranges

Both operations differ in the bounds only that they give to a result that is neither empty nor full.
-/

/-- The empty range if one of two ranges is empty, the full range if their steps go around the
circle, and else the range with the bounds. -/
def spanned (a b : ValueRange) (lower upper : Nat) : ValueRange :=
  if a.isEmpty || b.isEmpty then empty a.width
  else if a.isFull || b.isFull || spansDomain a b then full a.width
  else ⟨a.width, lower, upper⟩

theorem Fits.add_eq (ha : a.Fits w) (b : ValueRange) :
    a.add b = a.spanned b (FactGuard.truncate w (a.lower + b.lower))
      (FactGuard.truncate w (a.upper + b.upper + widthMask w)) := by
  rw [← ha.width_eq]
  rfl

theorem Fits.sub_eq (ha : a.Fits w) (b : ValueRange) :
    a.sub b = a.spanned b (truncateInt w (a.lower - (b.upper - 1)))
      (truncateInt w (a.upper - b.lower)) := by
  rw [← ha.width_eq]
  rfl

theorem Fits.spanned (ha : a.Fits w) (b : ValueRange) {lower upper : Nat}
    (hlower : lower < modulus w) (hupper : upper < modulus w) :
    (a.spanned b lower upper).Fits w := by
  unfold ValueRange.spanned
  rw [ha.width_eq]
  split_ifs
  · exact fits_empty w
  · exact fits_full w
  · exact ⟨rfl, hlower, hupper⟩

theorem Fits.add (ha : a.Fits w) : (a.add b).Fits w := by
  rw [ha.add_eq]
  exact ha.spanned b (truncate_lt _ _) (truncate_lt _ _)

theorem Fits.sub (ha : a.Fits w) : (a.sub b).Fits w := by
  rw [ha.sub_eq]
  exact ha.spanned b (truncateInt_lt _ _) (truncateInt_lt _ _)

/-- The result is the full range where the steps go around the circle. -/
theorem Fits.spans_iff (hw : IsWidth w) (ha : a.Fits w) (hb : b.Fits w)
    (hae : a.isEmpty = false) (hbe : b.isEmpty = false) :
    (a.isFull || b.isFull || spansDomain a b) = true ↔ modulus w ≤ a.size + b.size - 1 := by
  have hdomain : a.domainSize = modulus w := by rw [domainSize, ha.width_eq, hw.modulus_eq]
  have hapos := ha.size_pos hw hae
  have hbpos := hb.size_pos hw hbe
  have hafull := ha.size_eq_of_isFull hw
  have hbfull := hb.size_eq_of_isFull hw
  simp only [Bool.or_eq_true, spansDomain, decide_eq_true_eq, hdomain]
  constructor
  · rintro ((hfull | hfull) | hspan)
    · have := hafull hfull
      omega
    · have := hbfull hfull
      omega
    · exact hspan
  · exact .inr

/-- Bounds that are as many steps apart as two ranges span together make the arc of these steps, or
the steps go around the circle. -/
theorem Fits.arc_spanned (hw : IsWidth w) (ha : a.Fits w) (hb : b.Fits w) (hae : a.isEmpty = false)
    (hbe : b.isEmpty = false) {lower upper : Nat} (hlt : lower < modulus w)
    (hlt' : upper < modulus w) (hlower : lower ≡ start [ZMOD modulus w])
    (hupper : upper ≡ start + (a.size + b.size - 1 : Nat) [ZMOD modulus w]) :
    (a.spanned b lower upper).Valid w ∧
      (a.spanned b lower upper).Arc w start (a.size + b.size - 1) := by
  have hspans := ha.spans_iff hw hb hae hbe
  have hapos := ha.size_pos hw hae
  have hbpos := hb.size_pos hw hbe
  unfold ValueRange.spanned
  rw [hae, hbe, ha.width_eq]
  simp only [Bool.or_self, Bool.false_eq_true, if_false]
  split_ifs with hfull
  · exact ⟨valid_full w, arc_full hw _ (hspans.1 hfull)⟩
  · have hfits : Fits ⟨w, lower, upper⟩ w := ⟨rfl, hlt, hlt'⟩
    have hsteps : a.size + b.size - 1 < modulus w :=
      Nat.lt_of_not_le fun hle => hfull (hspans.2 hle)
    obtain ⟨hne, harc⟩ := hfits.arc_of_steps hw (by omega) hsteps hlower hupper
    exact ⟨⟨hfits, fun heq => absurd heq hne⟩, harc⟩

/-- The bounds need to be looked at only if neither range is empty. -/
theorem Fits.valid_spanned (ha : a.Fits w) (b : ValueRange) {lower upper : Nat}
    (h : a.isEmpty = false → b.isEmpty = false → (a.spanned b lower upper).Valid w) :
    (a.spanned b lower upper).Valid w := by
  cases hempty : a.isEmpty || b.isEmpty with
  | true =>
    rw [ValueRange.spanned, if_pos hempty, ha.width_eq]
    exact valid_empty w
  | false =>
    obtain ⟨hae, hbe⟩ := Bool.or_eq_false_iff.1 hempty
    exact h hae hbe

/-- Where one range is empty, there are no words to put together and none in the result. -/
theorem has_spanned_iff {lower upper : Nat} {P : Nat → Nat → Prop}
    (h : a.isEmpty = false → b.isEmpty = false → ((a.spanned b lower upper).Has v ↔
      ∃ x, (x < modulus w ∧ a.Has x) ∧ ∃ y, (y < modulus w ∧ b.Has y) ∧ P x y)) :
    (a.spanned b lower upper).Has v ↔
      ∃ x, (x < modulus w ∧ a.Has x) ∧ ∃ y, (y < modulus w ∧ b.Has y) ∧ P x y := by
  cases hempty : a.isEmpty || b.isEmpty with
  | true =>
    rw [ValueRange.spanned, if_pos hempty]
    refine iff_of_false (fun hhas => hhas.1 ⟨rfl, rfl⟩) ?_
    rintro ⟨x, ⟨-, hax⟩, y, ⟨-, hby⟩, -⟩
    rw [hax.isEmpty, hby.isEmpty] at hempty
    cases hempty
  | false =>
    obtain ⟨hae, hbe⟩ := Bool.or_eq_false_iff.1 hempty
    exact h hae hbe

/-- The sum of ranges that are not empty is the arc of the sums of their words. -/
theorem Fits.arc_add (hw : IsWidth w) (ha : a.Fits w) (hb : b.Fits w) (hae : a.isEmpty = false)
    (hbe : b.isEmpty = false) :
    (a.add b).Valid w ∧ (a.add b).Arc w (a.lower + b.lower) (a.size + b.size - 1) := by
  have hapos := ha.size_pos hw hae
  have hbpos := hb.size_pos hw hbe
  have hlower : (FactGuard.truncate w (a.lower + b.lower) : Int) ≡ a.lower + b.lower
      [ZMOD modulus w] := by
    rw [← Int.natCast_add]
    exact truncate_modEq _ _
  -- The upper bounds are not met themselves, so that one step too many has been counted.
  have hupper : (FactGuard.truncate w (a.upper + b.upper + widthMask w) : Int)
      ≡ a.lower + b.lower + (a.size + b.size - 1 : Nat) [ZMOD modulus w] := by
    have hpos := modulus_pos w
    calc (FactGuard.truncate w (a.upper + b.upper + widthMask w) : Int)
        ≡ (a.upper + b.upper + widthMask w : Nat) [ZMOD modulus w] := truncate_modEq _ _
      _ = a.upper + b.upper - 1 + modulus w := by
          unfold widthMask
          omega
      _ ≡ a.upper + b.upper - 1 [ZMOD modulus w] := Int.add_modEq_right
      _ ≡ (a.lower + a.size) + (b.lower + b.size) - 1 [ZMOD modulus w] :=
          ((ha.lower_add_size hw).add (hb.lower_add_size hw)).symm.sub_right 1
      _ = a.lower + b.lower + (a.size + b.size - 1 : Nat) := by omega
  rw [ha.add_eq]
  exact ha.arc_spanned hw hb hae hbe (truncate_lt _ _) (truncate_lt _ _) hlower hupper

/-- The difference of ranges that are not empty is the arc of the differences of their words. -/
theorem Fits.arc_sub (hw : IsWidth w) (ha : a.Fits w) (hb : b.Fits w) (hae : a.isEmpty = false)
    (hbe : b.isEmpty = false) :
    (a.sub b).Valid w ∧
      (a.sub b).Arc w (a.lower - (b.lower + b.size - 1)) (a.size + b.size - 1) := by
  have hapos := ha.size_pos hw hae
  have hbpos := hb.size_pos hw hbe
  have hlower : (truncateInt w ((a.lower : Int) - (b.upper - 1)) : Int)
      ≡ a.lower - (b.lower + b.size - 1) [ZMOD modulus w] :=
    (truncateInt_modEq _ _).trans (((hb.lower_add_size hw).symm.sub_right 1).sub_left _)
  have hupper : (truncateInt w ((a.upper : Int) - b.lower) : Int)
      ≡ a.lower - (b.lower + b.size - 1) + (a.size + b.size - 1 : Nat) [ZMOD modulus w] := by
    calc (truncateInt w ((a.upper : Int) - b.lower) : Int)
        ≡ a.upper - b.lower [ZMOD modulus w] := truncateInt_modEq _ _
      _ ≡ (a.lower + a.size) - b.lower [ZMOD modulus w] :=
          (ha.lower_add_size hw).symm.sub_right _
      _ = a.lower - (b.lower + b.size - 1) + (a.size + b.size - 1 : Nat) := by omega
  rw [ha.sub_eq]
  exact ha.arc_spanned hw hb hae hbe (truncateInt_lt _ _) (truncateInt_lt _ _) hlower hupper

theorem Fits.valid_add (hw : IsWidth w) (ha : a.Fits w) (hb : b.Fits w) : (a.add b).Valid w := by
  rw [ha.add_eq]
  refine ha.valid_spanned b fun hae hbe => ?_
  rw [← ha.add_eq]
  exact (ha.arc_add hw hb hae hbe).1

theorem Fits.valid_sub (hw : IsWidth w) (ha : a.Fits w) (hb : b.Fits w) : (a.sub b).Valid w := by
  rw [ha.sub_eq]
  refine ha.valid_spanned b fun hae hbe => ?_
  rw [← ha.sub_eq]
  exact (ha.arc_sub hw hb hae hbe).1

/-- The sum of ranges holds the sums of their words and no others. -/
theorem has_add_iff (hw : IsWidth w) (ha : a.Fits w) (hb : b.Fits w) (hv : v < modulus w) :
    (a.add b).Has v ↔ ∃ x, (x < modulus w ∧ a.Has x) ∧ ∃ y, (y < modulus w ∧ b.Has y) ∧
      FactGuard.truncate w (x + y) = v := by
  rw [ha.add_eq]
  refine has_spanned_iff fun hae hbe => ?_
  rw [← ha.add_eq]
  exact (ha.arc hw).has_iff_add (hb.arc hw) (ha.size_pos hw hae) (hb.size_pos hw hbe)
    (ha.arc_add hw hb hae hbe).2 hv

/-- The difference of ranges holds the differences of their words and no others. -/
theorem has_sub_iff (hw : IsWidth w) (ha : a.Fits w) (hb : b.Fits w) (hv : v < modulus w) :
    (a.sub b).Has v ↔ ∃ x, (x < modulus w ∧ a.Has x) ∧ ∃ y, (y < modulus w ∧ b.Has y) ∧
      truncateInt w ((x : Int) - y) = v := by
  rw [ha.sub_eq]
  refine has_spanned_iff fun hae hbe => ?_
  rw [← ha.sub_eq]
  exact (ha.arc hw).has_iff_sub (hb.arc hw) (ha.size_pos hw hae) (hb.size_pos hw hbe)
    (ha.arc_sub hw hb hae hbe).2 hv

/-- The sum of two words lies in the sum of their ranges. -/
theorem Has.add (hw : IsWidth w) (ha : a.Fits w) (hb : b.Fits w) (hx : x < modulus w)
    (hy : y < modulus w) (hax : a.Has x) (hby : b.Has y) :
    (a.add b).Has (FactGuard.truncate w (x + y)) :=
  (has_add_iff hw ha hb (truncate_lt _ _)).2 ⟨x, ⟨hx, hax⟩, y, ⟨hy, hby⟩, rfl⟩

/-- The difference of two words lies in the difference of their ranges. -/
theorem Has.sub (hw : IsWidth w) (ha : a.Fits w) (hb : b.Fits w) (hx : x < modulus w)
    (hy : y < modulus w) (hax : a.Has x) (hby : b.Has y) :
    (a.sub b).Has (truncateInt w ((x : Int) - y)) :=
  (has_sub_iff hw ha hb (truncateInt_lt _ _)).2 ⟨x, ⟨hx, hax⟩, y, ⟨hy, hby⟩, rfl⟩

/-- The sum and the difference of ranges contain the sums and the differences of their members,
modulo the number of patterns, and nothing else, and their bounds are those of a range. -/
theorem add_sub_exact (hw : IsWidth w) (ha : a.Valid w) (hb : b.Valid w) :
    ((a.add b).Valid w ∧ ∀ z < 2 ^ w, (a.add b).contains z = true ↔
      ∃ x ∈ a.members, ∃ y ∈ b.members, z = (x + y) % 2 ^ w) ∧
    ((a.sub b).Valid w ∧ ∀ z < 2 ^ w, (a.sub b).contains z = true ↔
      ∃ x ∈ a.members, ∃ y ∈ b.members, (z : Int) = ((x : Int) - y) % 2 ^ w) := by
  have hadd := ha.valid_add hw hb.toFits
  have hsub := ha.valid_sub hw hb.toFits
  refine ⟨⟨hadd, fun z hz => ?_⟩, hsub, fun z hz => ?_⟩
  · rw [← hw.modulus_eq] at hz ⊢
    rw [contains_iff hw hadd.toFits hz, has_add_iff hw ha.toFits hb.toFits hz]
    simp only [mem_members_iff hw ha.toFits, mem_members_iff hw hb.toFits, FactGuard.truncate,
      eq_comm]
  · have hpow : (2 : Int) ^ w = (modulus w : Int) := by
      rw [hw.modulus_eq]
      exact (Nat.cast_pow 2 w).symm
    rw [← hw.modulus_eq] at hz
    rw [contains_iff hw hsub.toFits hz, has_sub_iff hw ha.toFits hb.toFits hz, hpow]
    simp only [mem_members_iff hw ha.toFits, mem_members_iff hw hb.toFits]
    -- The least remainder is a word.
    have hword : ∀ i : Int, truncateInt w i = z ↔ (z : Int) = i % (modulus w : Int) := fun i => by
      have hpos : (0 : Int) < modulus w := by exact_mod_cast modulus_pos w
      have := Int.emod_nonneg i (Int.ne_of_gt hpos)
      unfold truncateInt
      omega
    simp only [hword]

/-- The ten bytes around zero from 250 to 3, and 3 or 4: the sums end with 7, and the differences,
which begin with 246, with 0. -/
theorem add_sub_exact_byte :
    let a : ValueRange := ⟨8, 250, 4⟩
    let b : ValueRange := ⟨8, 3, 5⟩
    IsWidth 8 ∧ a.Valid 8 ∧ b.Valid 8 ∧
      (∃ x ∈ a.members, ∃ y ∈ b.members, 7 = (x + y) % 2 ^ 8) ∧
      (¬ ∃ x ∈ a.members, ∃ y ∈ b.members, 8 = (x + y) % 2 ^ 8) ∧
      (∃ x ∈ a.members, ∃ y ∈ b.members, (246 : Int) = ((x : Int) - y) % 2 ^ 8) ∧
      ¬ ∃ x ∈ a.members, ∃ y ∈ b.members, (1 : Int) = ((x : Int) - y) % 2 ^ 8 := by
  intro a b
  have hw : IsWidth 8 := ⟨by decide, by decide⟩
  have ha : a.Valid 8 := ⟨⟨rfl, by decide, by decide⟩, by decide⟩
  have hb : b.Valid 8 := ⟨⟨rfl, by decide, by decide⟩, by decide⟩
  obtain ⟨⟨-, hadd⟩, -, hsub⟩ := add_sub_exact hw ha hb
  refine ⟨hw, ha, hb, (hadd 7 (by decide)).1 (by decide), fun h => ?_,
    (hsub 246 (by decide)).1 (by decide), fun h => ?_⟩
  · exact absurd ((hadd 8 (by decide)).2 h) (by decide)
  · exact absurd ((hsub 1 (by decide)).2 h) (by decide)

end FactGuard.ValueRange
