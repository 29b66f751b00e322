import Mathlib.Data.Set.NAry
import FactGuard.Proofs.KnownBits.Soundness

/-!
# Sums and differences of known bits are as precise as they can be

Known bits are the best ones for a set of words if they force a bit to a value exactly when it has
this value in every word of the set (`KnownBits.Best`). `KnownBits.best_add_sub` shows that addition
and subtraction give the best known bits for the sums and the differences of the words that agree
with their operands.

That a forced bit has its value in every sum is soundness (`Admits.addCarry`). For the other
direction four sums of admitted words are enough (`Valid.forces_addCarry`). Those of the least and
of the greatest words show whether the carry into a bit can vary, and those of the least words with
an unknown bit set in either show that this bit of the sum varies with it. Differences are sums with
the complement and a carry (`image2_difference`).
-/

namespace FactGuard.KnownBits

/-- The words of its width that agree with known bits. -/
def members (k : KnownBits) : Set Nat := { v | v < 2 ^ k.width ∧ k.contains v = true }

/-- The masks have a width, no bits above it and none in common, and force exactly those bits below
the width that are alike in all words of a set. -/
structure Best (k : KnownBits) (w : Nat) (all : Set Nat) : Prop where
  valid : k.Valid w
  forces_iff : ∀ i < w, ∀ value, k.forces i value = true ↔ ∀ v ∈ all, v.testBit i = value

variable {a b k : KnownBits} {w x y v c i : Nat} {value : Bool}

/-! ## The members -/

/-- The members of known bits are the words of the width that are admitted. -/
theorem mem_members_iff (hw : IsWidth w) (hk : k.Fits w) :
    v ∈ k.members ↔ v < modulus w ∧ k.Admits v := by
  rw [members, Set.mem_ofPred_eq, hk.width_eq, ← hw.modulus_eq]
  exact and_congr_right fun hv => contains_iff hk hv

/-- The least word is admitted. -/
theorem Valid.admits_minValue (hk : k.Valid w) : k.Admits k.minValue := fun _ =>
  ⟨hk.testBit_one, id⟩

/-- The least word is a member. -/
theorem Valid.minValue_mem (hw : IsWidth w) (hk : k.Valid w) : k.minValue ∈ k.members :=
  (mem_members_iff hw hk.toFits).2 ⟨hk.one_lt, hk.admits_minValue⟩

/-- The greatest word is a member. -/
theorem Valid.maxValue_mem (hw : IsWidth w) (hk : k.Valid w) : k.maxValue ∈ k.members := by
  refine (mem_members_iff hw hk.toFits).2 ⟨?_, fun i => ⟨fun hzero => ?_, fun hone => ?_⟩⟩
  · rw [maxValue, hk.width_eq]
    exact invert_lt w _
  · rw [hk.testBit_maxValue hw (hw.lt_of_testBit hk.zero_lt hzero), hzero]
    rfl
  · rw [hk.testBit_maxValue hw (hw.lt_of_testBit hk.one_lt hone), Bool.not_eq_true']
    by_contra hzero
    rw [hk.testBit_one (by simpa using hzero)] at hone
    cases hone

/-- The least word with one more bit set is a member, unless the bit is known to be zero. -/
theorem Valid.minValue_or_mem (hw : IsWidth w) (hk : k.Valid w) (hi : i < w)
    (hzero : k.zero.bits.testBit i = false) : k.minValue ||| 2 ^ i ∈ k.members := by
  have hlt : k.minValue ||| 2 ^ i < 2 ^ w :=
    Nat.or_lt_two_pow (hw.modulus_eq ▸ hk.one_lt) (Nat.pow_lt_pow_right (by decide) hi)
  rw [← hw.modulus_eq] at hlt
  refine (mem_members_iff hw hk.toFits).2 ⟨hlt, fun j => ?_⟩
  rw [Nat.testBit_or, Nat.testBit_two_pow]
  refine ⟨fun hj => ?_, fun hj => ?_⟩
  · have hne : i ≠ j := by
      rintro rfl
      rw [hzero] at hj
      cases hj
    rw [(hk.admits_minValue j).1 hj, decide_eq_false hne]
    rfl
  · rw [(hk.admits_minValue j).2 hj, Bool.true_or]

/-! ## Sums with a carry -/

/-- The sums of members are admitted by the sum. -/
theorem Fits.admits_addCarry (hw : IsWidth w) (ha : a.Fits w) (hb : b.Fits w) (hc : c ≤ 1)
    (hx : x ∈ a.members) (hy : y ∈ b.members) :
    (a.addCarry b c c).Admits (FactGuard.truncate w (x + y + c)) := by
  obtain ⟨hxlt, hxa⟩ := (mem_members_iff hw ha).1 hx
  obtain ⟨hylt, hyb⟩ := (mem_members_iff hw hb).1 hy
  exact hxa.addCarry hw ha hb hxlt hylt hyb (Nat.le_refl c) (Nat.le_refl c) hc

/-- The masks of a sum stay apart, since some sum is admitted. -/
theorem Valid.addCarry (hw : IsWidth w) (ha : a.Valid w) (hb : b.Valid w) (hc : c ≤ 1) :
    (a.addCarry b c c).Valid w where
  toFits := ha.toFits.addCarry b c c
  disjoint := (ha.toFits.admits_addCarry hw hb.toFits hc (ha.minValue_mem hw)
    (hb.minValue_mem hw)).masks_disjoint

/-- If words of one side do not change a bit of a sum, the bit is known of this side: else the least
word differs there from the one with the bit set, and the carry is the same for both. -/
theorem Valid.zero_eq_not_one (hw : IsWidth w) (hk : k.Valid w) (hc : c ≤ 1) (hi : i < w)
    (h : ∀ x ∈ k.members, (x + y + c).testBit i = value) :
    k.zero.bits.testBit i = !k.one.bits.testBit i := by
  cases hzero : k.zero.bits.testBit i with
  | true => rw [hk.testBit_one hzero, Bool.not_false]
  | false =>
    have hset : (k.minValue ||| 2 ^ i).testBit i = true := by
      rw [Nat.testBit_or, Nat.testBit_two_pow_self, Bool.or_true]
    have hcarry : carry i (k.minValue ||| 2 ^ i) y c = carry i k.minValue y c := by
      rw [carry, carry, Nat.or_mod_two_pow, Nat.mod_self, Nat.or_zero]
    have hleast := h _ (hk.minValue_mem hw)
    have hmore := h _ (hk.minValue_or_mem hw hi hzero)
    rw [testBit_add_carry i _ _ hc] at hleast hmore
    rw [hset, hcarry, ← hleast, Bool.xor_left_inj, Bool.xor_left_inj] at hmore
    show false = !k.minValue.testBit i
    rw [← hmore, Bool.not_true]

/-- A sum forces each bit that is alike in the sums of all members. -/
theorem Valid.forces_addCarry (hw : IsWidth w) (ha : a.Valid w) (hb : b.Valid w) (hc : c ≤ 1)
    (hi : i < w) (h : ∀ x ∈ a.members, ∀ y ∈ b.members, (x + y + c).testBit i = value) :
    (a.addCarry b c c).forces i value = true := by
  have hleast := h _ (ha.minValue_mem hw) _ (hb.minValue_mem hw)
  have hgreatest := h _ (ha.maxValue_mem hw) _ (hb.maxValue_mem hw)
  have hleft := ha.zero_eq_not_one hw hc hi fun x hx => h x hx _ (hb.minValue_mem hw)
  have hright := hb.zero_eq_not_one hw hc hi fun y hy => by
    rw [Nat.add_comm y]
    exact h _ (ha.minValue_mem hw) y hy
  -- Known bits of both sides that give the same bit in the extreme sums have one carry into it.
  unfold KnownBits.addCarry forces
  rw [ha.width_eq]
  cases value <;>
    simp only [ofBits, BitMask.ofBits, Nat.testBit_and, Nat.testBit_or, Nat.testBit_xor,
      hw.testBit_truncate, hw.testBit_invert, hi, decide_true, Bool.true_and, if_true,
      Bool.false_eq_true, if_false, hleast, hgreatest, hleft, hright] <;>
    cases a.one.bits.testBit i <;> cases b.one.bits.testBit i <;> rfl

/-- A sum is the best that can be said of the sums of words that agree with its parts. -/
theorem Valid.best_addCarry (hw : IsWidth w) (ha : a.Valid w) (hb : b.Valid w) (hc : c ≤ 1) :
    (a.addCarry b c c).Best w (Set.image2 (fun x y => FactGuard.truncate w (x + y + c)) a.members
      b.members) where
  valid := ha.addCarry hw hb hc
  forces_iff i hi value := by
    rw [Set.forall_mem_image2]
    constructor
    · intro h x hx y hy
      exact (ha.toFits.admits_addCarry hw hb.toFits hc hx hy).testBit_eq h
    · intro h
      refine ha.forces_addCarry hw hb hc hi fun x hx y hy => ?_
      rw [← h x hx y hy, hw.testBit_truncate, decide_eq_true hi, Bool.true_and]

/-! ## Differences -/

theorem Valid.not (hw : IsWidth w) (hb : b.Valid w) : b.not.Valid w where
  toFits := hb.toFits.not
  disjoint := (hb.admits_minValue.not hw hb.toFits).masks_disjoint

/-- The complement of the complement. -/
theorem Fits.not_not (hb : b.Fits w) : b.not.not = b := by
  obtain ⟨⟨_, zeros⟩, ⟨_, ones⟩⟩ := b
  obtain ⟨rfl, hone, hzero_lt, hone_lt⟩ := hb
  dsimp only at hone hzero_lt hone_lt
  subst hone
  simp only [KnownBits.not, ofBits, BitMask.ofBits, width, truncate_of_lt hzero_lt,
    truncate_of_lt hone_lt]

/-- The complement of a member is one of the complement. -/
theorem Fits.invert_mem (hw : IsWidth w) (hb : b.Fits w) (hy : y ∈ b.members) :
    invert w y ∈ b.not.members :=
  (mem_members_iff hw hb.not).2 ⟨invert_lt w y, ((mem_members_iff hw hb).1 hy).2.not hw hb⟩

/-- The differences of words are the sums with the words of the complement, and a carry. -/
theorem image2_difference (hw : IsWidth w) (hb : b.Fits w) (all : Set Nat) :
    Set.image2 (fun x y : Nat => truncateInt w ((x : Int) - y)) all b.members
      = Set.image2 (fun x y => FactGuard.truncate w (x + y + 1)) all b.not.members := by
  ext z
  constructor
  · rintro ⟨x, hx, y, hy, rfl⟩
    exact ⟨x, hx, invert w y, hb.invert_mem hw hy, (truncateInt_sub w x y).symm⟩
  · rintro ⟨x, hx, y, hy, rfl⟩
    have hinvert := hb.not.invert_mem hw hy
    rw [hb.not_not] at hinvert
    refine ⟨x, hx, invert w y, hinvert, ?_⟩
    dsimp only
    rw [truncateInt_sub, hw.invert_invert, truncate_of_lt ((mem_members_iff hw hb.not).1 hy).1]

/-- The sum and the difference of known bits are the best that can be said, modulo the number of
patterns, of the sums and the differences of words that agree with the operands. -/
theorem best_add_sub (hw : IsWidth w) (ha : a.Valid w) (hb : b.Valid w) :
    (a.add b).Best w (Set.image2 (fun x y => (x + y) % 2 ^ w) a.members b.members) ∧
      (a.sub b).Best w
        (Set.image2 (fun x y : Nat => (((x : Int) - y) % 2 ^ w).toNat) a.members b.members) := by
  have hsum := ha.best_addCarry hw hb (Nat.zero_le 1)
  have hdifference := ha.best_addCarry hw (hb.not hw) le_rfl
  rw [← image2_difference hw hb.toFits] at hdifference
  simp only [truncateInt, hw.modulus_eq, hw.truncate_eq] at hsum hdifference
  exact ⟨hsum, by exact_mod_cast hdifference⟩

/-- One of 2, 6, 10 and 14, and one of 1 and 3: the lowest bit of the sum is one, and bit 5 of the
difference can be either, since there may be a borrow. -/
theorem best_add_sub_byte :
    let a := ofBits 8 0xF1 0x02
    let b := ofBits 8 0xFC 0x01
    IsWidth 8 ∧ a.Valid 8 ∧ b.Valid 8 ∧
      (∀ v ∈ Set.image2 (fun x y => (x + y) % 2 ^ 8) a.members b.members, v.testBit 0 = true) ∧
      ∀ value, ∃ v ∈ Set.image2 (fun x y : Nat => (((x : Int) - y) % 2 ^ 8).toNat) a.members b.members,
        v.testBit 5 ≠ value := by
  intro a b
  have hw : IsWidth 8 := ⟨by decide, by decide⟩
  have ha : a.Valid 8 := ⟨fits_ofBits .., by decide⟩
  have hb : b.Valid 8 := ⟨fits_ofBits .., by decide⟩
  obtain ⟨hsum, hdifference⟩ := best_add_sub hw ha hb
  refine ⟨hw, ha, hb, (hsum.forces_iff 0 (by decide) true).1 (by decide), fun value => ?_⟩
  have hopen : (a.sub b).forces 5 value ≠ true := by
    revert value
    decide
  rw [ne_eq, hdifference.forces_iff 5 (by decide)] at hopen
  simpa only [not_forall, exists_prop] using hopen

end FactGuard.KnownBits
