import Mathlib.Data.Set.Basic
import Mathlib.Order.MinMax
import FactGuard.Proofs.ValueRange.Soundness

/-!
# Hulls and extensions of ranges are as tight as intervals can be

Operations whose results need not form an interval answer with an interval around them, and the
members of the result include what the operation makes of the members of its operands
(`ValueRange.mem_zeroExtend` and so on). For hulls and for zeros put in front it is the smallest
interval that does not wrap: it has two members of the operands as its ends, and any other interval
that holds these holds all that is between them (`members_between_convex`).
-/

namespace FactGuard.ValueRange

variable {a b r : ValueRange} {w target v least greatest : Nat}

/-! ## What the results contain -/

/-- The low bits of a member are a member of what a range is after it is cut. -/
theorem mem_truncate (hw : IsWidth w) (htarget : IsWidth target) (hle : target ≤ w)
    (hr : r.Fits w) (hv : v ∈ r.members) : v % 2 ^ target ∈ (r.truncate target).members := by
  rw [mem_members_iff hw hr] at hv
  rw [mem_members_iff htarget (hr.truncate hle), ← htarget.truncate_eq]
  exact ⟨truncate_lt target v, hv.2.truncate htarget hle hr hv.1⟩

/-- A member is a member after zeros are put in front, or its low bits are if there are fewer. -/
theorem mem_zeroExtend (hw : IsWidth w) (htarget : IsWidth target) (hr : r.Fits w)
    (hv : v ∈ r.members) : v % 2 ^ target ∈ (r.zeroExtend target).members := by
  by_cases hle : target ≤ w
  · rw [zeroExtend, hr.width_eq, if_pos hle]
    exact mem_truncate hw htarget hle hr hv
  · have hlt : w < target := by omega
    have hwide := modulus_lt hw htarget hlt
    rw [mem_members_iff hw hr] at hv
    rw [mem_members_iff htarget (hr.zeroExtend hlt), ← htarget.modulus_eq,
      Nat.mod_eq_of_lt (by omega)]
    exact ⟨by omega, hv.2.zeroExtend hw htarget hlt hr hv.1⟩

/-- A member read with sign is a member after copies of the sign are put in front, or its low bits
are if there are fewer. -/
theorem mem_signExtend (hw : IsWidth w) (htarget : IsWidth target) (hr : r.Fits w)
    (hv : v ∈ r.members) :
    truncateInt target (toSigned w v) ∈ (r.signExtend target).members := by
  by_cases hle : target ≤ w
  · rw [signExtend, hr.width_eq, if_pos hle, truncateInt_toSigned_of_le hle, htarget.truncate_eq]
    exact mem_truncate hw htarget hle hr hv
  · have hlt : w < target := by omega
    rw [mem_members_iff hw hr] at hv
    rw [mem_members_iff htarget (hr.signExtend hlt)]
    exact ⟨truncateInt_lt _ _, hv.2.signExtend hw htarget hlt hr hv.1⟩

/-- The remainder of a member is a member of the remainders. -/
theorem mem_uremConstant (hw : IsWidth w) (hr : r.Fits w) {divisor : Nat} (hdivisor : 0 < divisor)
    (hv : v ∈ r.members) : v % divisor ∈ (r.uremConstant divisor).members := by
  have hle := Nat.mod_le v divisor
  rw [mem_members_iff hw hr] at hv
  rw [mem_members_iff hw (hr.uremConstant divisor)]
  exact ⟨by omega, hv.2.uremConstant hw hr hv.1 hdivisor⟩

/-- The members of both ranges are members of their hull. -/
theorem union_subset_hull (hw : IsWidth w) (ha : a.Fits w) (hb : b.Fits w) :
    a.members ∪ b.members ⊆ (a.hull b).members := by
  intro v hv
  rw [Set.mem_union, mem_members_iff hw ha, mem_members_iff hw hb, ← and_or_left] at hv
  rw [mem_members_iff hw (ha.hull hb)]
  exact ⟨hv.1, Has.hull hw ha hb hv.1 hv.2⟩

/-! ## Smallest intervals -/

/-- The members of an interval between two bounds. -/
theorem mem_members_between_iff (hw : IsWidth w) (least greatest : Nat) :
    v ∈ (between w least greatest).members ↔ v < modulus w ∧
      FactGuard.truncate w least ≤ v ∧ v ≤ FactGuard.truncate w greatest := by
  rw [mem_members_iff hw (fits_between ..)]
  exact and_congr_right fun hv => has_between_iff hw least greatest hv

/-- An interval contains what is between two of its members. -/
theorem members_between_convex (hw : IsWidth w) {x y : Nat}
    (hx : x ∈ (between w least greatest).members) (hy : y ∈ (between w least greatest).members)
    (hxv : x ≤ v) (hvy : v ≤ y) : v ∈ (between w least greatest).members := by
  rw [mem_members_between_iff hw] at hx hy ⊢
  omega

/-- The least and the greatest member of a range that has one. -/
theorem Fits.exists_ends (hw : IsWidth w) (hr : r.Fits w) (hempty : r.isEmpty = false) :
    ∃ least greatest, r.min? = some least ∧ r.max? = some greatest ∧ least ∈ r.members ∧
      greatest ∈ r.members ∧ least < modulus w ∧ greatest < modulus w := by
  obtain ⟨least, greatest, hmin, hmax, hleast, hgreatest, -⟩ := hr.bounds hempty
  exact ⟨least, greatest, hmin, hmax, (mem_members_iff hw hr).2 hleast,
    (mem_members_iff hw hr).2 hgreatest, hleast.1, hgreatest.1⟩

theorem isEmpty_eq_false_of_mem (hw : IsWidth w) (hr : r.Fits w) (hv : v ∈ r.members) :
    r.isEmpty = false := ((mem_members_iff hw hr).1 hv).2.isEmpty

/-- An interval that contains two ranges contains their hull. -/
theorem hull_subset_between (hw : IsWidth w) (ha : a.Fits w) (hb : b.Fits w)
    (hane : a.members.Nonempty) (hbne : b.members.Nonempty)
    (hsub : a.members ∪ b.members ⊆ (between w least greatest).members) :
    (a.hull b).members ⊆ (between w least greatest).members := by
  obtain ⟨_, hax⟩ := hane
  obtain ⟨_, hby⟩ := hbne
  obtain ⟨x, x', hmin, hmax, hx, hx', hlt, hlt'⟩ :=
    ha.exists_ends hw (isEmpty_eq_false_of_mem hw ha hax)
  obtain ⟨y, y', hmin', hmax', hy, hy', hly, hly'⟩ :=
    hb.exists_ends hw (isEmpty_eq_false_of_mem hw hb hby)
  -- The ends of the hull are ends of one of the ranges.
  have hlower : min x y ∈ a.members ∪ b.members := by
    rcases min_choice x y with h | h <;> rw [h]
    · exact .inl hx
    · exact .inr hy
  have hupper : max x' y' ∈ a.members ∪ b.members := by
    rcases max_choice x' y' with h | h <;> rw [h]
    · exact .inl hx'
    · exact .inr hy'
  intro v hv
  rw [ha.hull_eq hmin hmax hmin' hmax', mem_members_between_iff hw, truncate_of_lt (by omega),
    truncate_of_lt (by omega)] at hv
  exact members_between_convex hw (hsub hlower) (hsub hupper) hv.2.1 hv.2.2

/-- An interval of a greater width that contains a range contains what the range is after zeros are
put in front. -/
theorem zeroExtend_subset_between (hw : IsWidth w) (htarget : IsWidth target) (hlt : w < target)
    (hr : r.Fits w) (hsub : r.members ⊆ (between target least greatest).members) :
    (r.zeroExtend target).members ⊆ (between target least greatest).members := by
  have hwide := modulus_lt hw htarget hlt
  cases hempty : r.isEmpty with
  | true =>
    have hzero : r.zeroExtend target = empty target := by
      rw [zeroExtend, hr.width_eq, if_neg (by omega), if_pos hempty]
    intro v hv
    rw [hzero, mem_members_iff htarget (fits_empty target)] at hv
    exact absurd ⟨rfl, rfl⟩ hv.2.1
  | false =>
    obtain ⟨x, y, hmin, hmax, hx, hy, hxlt, hylt⟩ := hr.exists_ends hw hempty
    intro v hv
    rw [hr.zeroExtend_eq hlt hempty hmin hmax, mem_members_between_iff htarget,
      truncate_of_lt (by omega), truncate_of_lt (by omega)] at hv
    exact members_between_convex htarget (hsub hx) (hsub hy) hv.2.1 hv.2.2

/-- What becomes of a range when it is extended or cut, when a remainder is taken, or when it is put
together with another one, contains what becomes of its members. Zeros put in front and hulls of
ranges that are not empty give the smallest interval that does. -/
theorem transfers_sound_tight (hw : IsWidth w) (htarget : IsWidth target) (hr : r.Valid w) :
    (∀ v ∈ r.members, v % 2 ^ target ∈ (r.zeroExtend target).members) ∧
    (∀ v ∈ r.members, truncateInt target (toSigned w v) ∈ (r.signExtend target).members) ∧
    (target ≤ w → ∀ v ∈ r.members, v % 2 ^ target ∈ (r.signExtend target).members ∧
      v % 2 ^ target ∈ (r.truncate target).members) ∧
    (∀ divisor > 0, ∀ v ∈ r.members, v % divisor ∈ (r.uremConstant divisor).members) ∧
    (∀ s : ValueRange, s.Valid w → r.members ∪ s.members ⊆ (r.hull s).members ∧
      (r.members.Nonempty → s.members.Nonempty → ∀ least greatest,
        r.members ∪ s.members ⊆ (between w least greatest).members →
          (r.hull s).members ⊆ (between w least greatest).members)) ∧
    (w < target → ∀ least greatest, r.members ⊆ (between target least greatest).members →
      (r.zeroExtend target).members ⊆ (between target least greatest).members) := by
  have hfits := hr.toFits
  refine ⟨fun v hv => mem_zeroExtend hw htarget hfits hv,
    fun v hv => mem_signExtend hw htarget hfits hv, fun hle v hv => ⟨?_, ?_⟩,
    fun divisor hdivisor v hv => mem_uremConstant hw hfits hdivisor hv,
    fun s hs => ⟨union_subset_hull hw hfits hs.toFits, fun hrne hsne least greatest hsub => ?_⟩,
    fun hlt least greatest hsub => zeroExtend_subset_between hw htarget hlt hfits hsub⟩
  · have hsign := mem_signExtend hw htarget hfits hv
    rwa [truncateInt_toSigned_of_le hle, htarget.truncate_eq] at hsign
  · exact mem_truncate hw htarget hle hfits hv
  · exact hull_subset_between hw hfits hs.toFits hrne hsne hsub

/-- The bytes from 3 to 9 stay what they are, also with copies of their sign in front, and have
remainders up to 6. The bytes around zero from 250 to 3 run past the greatest one: an interval of
more bits that has all of them has every number up to 255. -/
theorem transfers_sound_tight_byte :
    let r : ValueRange := ⟨8, 3, 10⟩
    let s : ValueRange := ⟨8, 250, 4⟩
    IsWidth 8 ∧ IsWidth 16 ∧ r.Valid 8 ∧ s.Valid 8 ∧
      (∀ v ∈ r.members, v % 2 ^ 16 ∈ members ⟨16, 3, 10⟩) ∧
      (∀ v ∈ r.members, truncateInt 16 (toSigned 8 v) ∈ members ⟨16, 3, 10⟩) ∧
      (∀ v ∈ r.members, v % 7 ∈ (between 8 0 6).members) ∧
      r.members ∪ s.members ⊆ (full 8).members ∧
      ∀ least greatest, s.members ⊆ (between 16 least greatest).members →
        (between 16 0 255).members ⊆ (between 16 least greatest).members := by
  intro r s
  have hw : IsWidth 8 := ⟨by decide, by decide⟩
  have htarget : IsWidth 16 := ⟨by decide, by decide⟩
  have hr : r.Valid 8 := ⟨⟨rfl, by decide, by decide⟩, by decide⟩
  have hs : s.Valid 8 := ⟨⟨rfl, by decide, by decide⟩, by decide⟩
  obtain ⟨hzero, hsign, -, hurem, hhull, -⟩ := transfers_sound_tight hw htarget hr
  obtain ⟨-, -, -, -, -, htight⟩ := transfers_sound_tight hw htarget hs
  have hzeroR : r.zeroExtend 16 = ⟨16, 3, 10⟩ := by decide
  have hsignR : r.signExtend 16 = ⟨16, 3, 10⟩ := by decide
  have huremR : r.uremConstant 7 = between 8 0 6 := by decide
  have hhullR : r.hull s = full 8 := by decide
  have hzeroS : s.zeroExtend 16 = between 16 0 255 := by decide
  rw [hzeroR] at hzero
  rw [hsignR] at hsign
  exact ⟨hw, htarget, hr, hs, hzero, hsign, huremR ▸ hurem 7 (by decide), hhullR ▸ (hhull s hs).1,
    hzeroS ▸ htight (by decide)⟩

end FactGuard.ValueRange
