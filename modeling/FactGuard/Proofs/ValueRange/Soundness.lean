import FactGuard.Proofs.ValueRange.Membership

/-!
# Operations on ranges are sound

If the operands of an operation hold two words, its result holds what the operation makes of them.
Sums and differences are in `FactGuard/Proofs/ValueRange/Sums.lean`; the results of the other
operations are intervals that do not wrap, or the full range, and hold what is between their ends.
-/

namespace FactGuard.ValueRange

variable {a b r : ValueRange} {w v : Nat}

/-! ## Hulls and remainders -/

/-- A hull is one of the ranges, or an interval around both. -/
theorem Fits.hull_cases (ha : a.Fits w) (b : ValueRange) :
    a.hull b = a ∨ a.hull b = b ∨ IsInterval w (a.hull b) := by
  unfold ValueRange.hull
  split
  · exact .inr (.inl rfl)
  · exact .inl rfl
  · rw [ha.width_eq]
    exact .inr (.inr (.between ..))

theorem Fits.hull (ha : a.Fits w) (hb : b.Fits w) : (a.hull b).Fits w := by
  rcases ha.hull_cases b with h | h | h
  · rwa [h]
  · rwa [h]
  · exact h.fits

/-- The hull of ranges that are not empty is the interval from the least to the greatest word of
both. -/
theorem Fits.hull_eq (ha : a.Fits w) {least other greatest most : Nat}
    (hmin : a.min? = some least) (hmax : a.max? = some greatest) (hmin' : b.min? = some other)
    (hmax' : b.max? = some most) :
    a.hull b = between w (min least other) (max greatest most) := by
  rw [ValueRange.hull, hmin, hmin', hmax, hmax', ha.width_eq]
  rfl

theorem hull_of_isEmpty (h : a.isEmpty = true) : a.hull b = b := by
  rw [ValueRange.hull, min?, if_pos h]

theorem hull_of_isEmpty_right (ha : a.isEmpty = false) (hb : b.isEmpty = true) :
    a.hull b = a := by
  rw [ValueRange.hull, min?, min?, if_pos hb, if_neg (by simp [ha])]
  split_ifs <;> rfl

/-- The hull of two ranges holds what either of them holds. -/
theorem Has.hull (hw : IsWidth w) (ha : a.Fits w) (hb : b.Fits w) (hv : v < modulus w)
    (h : a.Has v ∨ b.Has v) : (a.hull b).Has v := by
  cases hae : a.isEmpty with
  | true =>
    rw [hull_of_isEmpty hae]
    refine h.resolve_left fun hav => ?_
    rw [hav.isEmpty] at hae
    cases hae
  | false =>
    cases hbe : b.isEmpty with
    | true =>
      rw [hull_of_isEmpty_right hae hbe]
      refine h.resolve_right fun hbv => ?_
      rw [hbv.isEmpty] at hbe
      cases hbe
    | false =>
      obtain ⟨least, greatest, hmin, hmax, -, ⟨hlt, -⟩, hbetween⟩ := ha.bounds hae
      obtain ⟨other, most, hmin', hmax', -, ⟨hlt', -⟩, hbetween'⟩ := hb.bounds hbe
      have hside := h.imp (hbetween v hv) (hbetween' v hv)
      rw [ha.hull_eq hmin hmax hmin' hmax']
      exact has_between hw (by omega) (by omega) (by omega)

/-- The remainders are an interval, or the range if it is empty. -/
theorem Fits.uremConstant_cases (hr : r.Fits w) (divisor : Nat) :
    r.uremConstant divisor = r ∨ IsInterval w (r.uremConstant divisor) := by
  unfold ValueRange.uremConstant
  rw [hr.width_eq]
  split_ifs
  · exact .inl rfl
  · exact .inr .full
  · split
    · exact .inr (.between ..)
    · exact .inr (.between ..)

theorem Fits.uremConstant (hr : r.Fits w) (divisor : Nat) : (r.uremConstant divisor).Fits w :=
  (hr.uremConstant_cases divisor).elim (fun h => by rwa [h]) IsInterval.fits

/-- The remainder of a word lies in the remainders of its range. -/
theorem Has.uremConstant (hw : IsWidth w) (hr : r.Fits w) (hv : v < modulus w) (h : r.Has v)
    {divisor : Nat} (hdivisor : 0 < divisor) : (r.uremConstant divisor).Has (v % divisor) := by
  obtain ⟨least, greatest, -, hmax, -, hge, hlt⟩ := h.bounds hr hv
  have hmod := Nat.mod_lt v hdivisor
  have hle := Nat.mod_le v divisor
  unfold ValueRange.uremConstant
  rw [h.isEmpty, hr.width_eq, hmax, if_neg (by simp), if_neg (by omega)]
  exact has_between hw (Nat.zero_le _) (by omega) (by omega)

/-! ## Changes of width -/

/-- A range that does not wrap holds words from its lower bound to its greatest word. -/
theorem Has.le_of_plainMax? (hr : r.Fits w) (hv : v < modulus w) (h : r.Has v) {greatest : Nat}
    (hmax : r.plainMax? = some greatest) :
    r.lower ≤ v ∧ v ≤ greatest ∧ greatest < modulus w := by
  unfold plainMax? at hmax
  split_ifs at hmax with hplain
  simp only [Bool.or_eq_true, not_or] at hplain
  obtain ⟨_, found, -, hfound, -, hge, hlt⟩ := h.bounds hr hv
  rw [hfound] at hmax
  cases hmax
  rw [hr.isWrapped_iff, hr.isFull_iff] at hplain
  unfold Has at h
  exact ⟨by omega, hge, hlt⟩

/-- A range is an interval after it is cut, or has the width already. -/
theorem Fits.truncate_cases (hr : r.Fits w) {target : Nat} (hle : target ≤ w) :
    (target = w ∧ r.truncate target = r) ∨ IsInterval target (r.truncate target) := by
  unfold ValueRange.truncate
  rw [hr.width_eq]
  split_ifs with hwidth
  · exact .inl ⟨by omega, rfl⟩
  · exact .inr .empty
  · split
    · split_ifs
      · exact .inr (.between ..)
      · exact .inr .full
    · exact .inr .full

theorem Fits.truncate (hr : r.Fits w) {target : Nat} (hle : target ≤ w) :
    (r.truncate target).Fits target := by
  rcases hr.truncate_cases hle with ⟨rfl, h⟩ | h
  · rwa [h]
  · exact h.fits

/-- The low bits of a word lie in its range after it is cut. -/
theorem Has.truncate {target : Nat} (htarget : IsWidth target) (hle : target ≤ w)
    (hr : r.Fits w) (hv : v < modulus w) (h : r.Has v) :
    (r.truncate target).Has (FactGuard.truncate target v) := by
  unfold ValueRange.truncate
  rw [hr.width_eq]
  split_ifs with hwidth hempty
  · have : target = w := by omega
    rw [this, truncate_of_lt hv]
    exact h
  · rw [h.isEmpty] at hempty
    cases hempty
  · cases hmax : r.plainMax? with
    | none => exact has_full htarget _
    | some greatest =>
      obtain ⟨hlower, hge, hlt⟩ := h.le_of_plainMax? hr hv hmax
      dsimp only
      split_ifs with hfits
      · have hone := htarget.one_lt_modulus
        unfold widthMask at hfits
        rw [truncate_of_lt (show v < modulus target by omega)]
        exact has_between htarget hlower hge (by omega)
      · exact has_full htarget _

/-- A wider word has more patterns. -/
theorem modulus_lt (hw : IsWidth w) {target : Nat} (htarget : IsWidth target) (hlt : w < target) :
    modulus w < modulus target := by
  rw [hw.modulus_eq, htarget.modulus_eq]
  exact Nat.pow_lt_pow_right (by decide) hlt

/-- A range after zeros are put in front is the interval from its least to its greatest word. -/
theorem Fits.zeroExtend_eq (hr : r.Fits w) {target : Nat} (hlt : w < target) {least greatest : Nat}
    (hempty : r.isEmpty = false) (hmin : r.min? = some least) (hmax : r.max? = some greatest) :
    r.zeroExtend target = between target least greatest := by
  have hwrapped := hr.isWrapped_iff
  have hfull := hr.isFull_iff
  have hne : ¬ (r.lower = 0 ∧ r.upper = 0) := by
    rw [← isEmpty_iff, hempty]
    exact Bool.false_ne_true
  have hpos : (r.upper != 0) = decide (0 < r.upper) := by
    rw [Bool.eq_iff_iff, bne_iff_ne, decide_eq_true_eq, Nat.pos_iff_ne_zero]
  unfold ValueRange.zeroExtend
  rw [min?, hempty, if_neg Bool.false_ne_true] at hmin
  rw [max?, hempty, if_neg Bool.false_ne_true, hr.width_eq] at hmax
  rw [hr.width_eq, if_neg (by omega), hempty, if_neg Bool.false_ne_true, hpos]
  by_cases hall : (r.isFull || (r.isWrapped && decide (0 < r.upper))) = true
  · have hround : (r.isFull || r.isWrapped) = true := by
      revert hall
      cases r.isFull <;> cases r.isWrapped <;> simp
    rw [if_pos hall] at hmin ⊢
    rw [if_pos hround] at hmax
    cases hmin
    cases hmax
    rfl
  · rw [if_neg hall] at hmin ⊢
    cases hmin
    -- The range does not run past the greatest word, and up to it if its upper bound is zero.
    simp only [Bool.or_eq_true, Bool.and_eq_true, decide_eq_true_eq, not_or, not_and] at hall
    have hround : (r.isFull || r.isWrapped) = true ↔ r.upper = 0 := by
      rw [Bool.or_eq_true]
      constructor
      · rintro (h | h)
        · exact absurd h hall.1
        · have := hall.2 h
          omega
      · intro hzero
        rw [hfull, hwrapped]
        omega
    by_cases hzero : r.upper = 0
    · rw [if_pos (hround.2 hzero)] at hmax
      cases hmax
      rw [if_pos hzero]
    · rw [if_neg (mt hround.1 hzero)] at hmax
      cases hmax
      rw [if_neg hzero]

theorem Fits.isInterval_zeroExtend (hr : r.Fits w) {target : Nat} (hlt : w < target) :
    IsInterval target (r.zeroExtend target) := by
  unfold ValueRange.zeroExtend
  rw [hr.width_eq, if_neg (by omega)]
  split_ifs
  · exact .empty
  · exact .between ..
  · exact .between ..
  · exact .between ..

theorem Fits.zeroExtend (hr : r.Fits w) {target : Nat} (hlt : w < target) :
    (r.zeroExtend target).Fits target := (hr.isInterval_zeroExtend hlt).fits

/-- A word lies in its range after zeros are put in front. -/
theorem Has.zeroExtend (hw : IsWidth w) {target : Nat} (htarget : IsWidth target) (hlt : w < target)
    (hr : r.Fits w) (hv : v < modulus w) (h : r.Has v) : (r.zeroExtend target).Has v := by
  have hwide := modulus_lt hw htarget hlt
  obtain ⟨least, greatest, hmin, hmax, hle, hge, hgreatest⟩ := h.bounds hr hv
  rw [hr.zeroExtend_eq hlt h.isEmpty hmin hmax]
  exact has_between htarget hle hge (by omega)

theorem Fits.isInterval_signExtend (hr : r.Fits w) {target : Nat} (hlt : w < target) :
    IsInterval target (r.signExtend target) := by
  unfold ValueRange.signExtend
  rw [hr.width_eq, if_neg (by omega)]
  split_ifs
  · exact .empty
  · split
    · split_ifs
      · exact .between ..
      · exact .full
    · exact .full

theorem Fits.signExtend (hr : r.Fits w) {target : Nat} (hlt : w < target) :
    (r.signExtend target).Fits target := (hr.isInterval_signExtend hlt).fits

/-- A word read with sign lies in its range after copies of the sign are put in front: the range is
full unless its words have no sign. -/
theorem Has.signExtend (hw : IsWidth w) {target : Nat} (htarget : IsWidth target) (hlt : w < target)
    (hr : r.Fits w) (hv : v < modulus w) (h : r.Has v) :
    (r.signExtend target).Has (truncateInt target (toSigned w v)) := by
  have hwide := modulus_lt hw htarget hlt
  unfold ValueRange.signExtend
  rw [hr.width_eq, if_neg (by omega), h.isEmpty, if_neg (by simp)]
  cases hmax : r.plainMax? with
  | none => exact has_full htarget _
  | some greatest =>
    obtain ⟨hlower, hge, hgreatest⟩ := h.le_of_plainMax? hr hv hmax
    dsimp only
    split_ifs with hsign
    · have hhalf : 2 * signBit w = modulus w := by
        have hpos := hw.pos
        rw [signBit, hw.modulus_eq, ← Nat.pow_succ', show (w - 1).succ = w by omega]
      have hplain : toSigned w v = v := by
        unfold toSigned
        rw [truncate_of_lt hv, if_pos (by omega)]
      have hsame : truncateInt target (v : Int) = v := by
        rw [truncateInt, ← Int.natCast_emod, Int.toNat_natCast, Nat.mod_eq_of_lt (by omega)]
      rw [hplain, hsame]
      exact has_between htarget hlower hge (by omega)
    · exact has_full htarget _

end FactGuard.ValueRange
