import Mathlib.Data.Set.Card
import Mathlib.Order.Interval.Finset.Nat
import FactGuard.Proofs.ValueRange.Membership

/-!
# What a range tells about its members

The members of a range are an interval of words, or the two intervals on either side of a gap
(`Fits.members_eq_Ico`, `Fits.members_eq_union`). So the size that is computed from the bounds is
the number of members (`Fits.size_eq_ncard`), and the queries that go by the size or the bounds tell
about the set alone (`queries_denote`). The bits that a range says about a value are the most that a
word can lack so that there are as many words of the rest as there are members.
-/

namespace FactGuard

/-- A number has at most `k` binary digits if it is below the power. -/
theorem bitLength_le_iff {n k : Nat} : bitLength n ≤ k ↔ n < 2 ^ k := by
  unfold bitLength
  split_ifs with hzero
  · simp [hzero]
  · rw [Nat.succ_le_iff, Nat.log2_lt hzero]

namespace ValueRange

variable {r s : ValueRange} {w v : Nat}

/-! ## Members as intervals -/

/-- The members of a range that does not wrap are the words between its bounds. -/
theorem Fits.members_eq_Ico (hw : IsWidth w) (hr : r.Fits w) (hlt : r.lower < r.upper) :
    r.members = Finset.Ico r.lower r.upper := by
  ext v
  rw [mem_members_iff hw hr, Finset.mem_coe, Finset.mem_Ico]
  have hupper := hr.upper_lt
  unfold Has
  omega

/-- The members of a range that wraps, or that is full, are the words outside the gap between its
bounds. -/
theorem Fits.members_eq_union (hw : IsWidth w) (hr : r.Fits w) (hle : r.upper ≤ r.lower)
    (hne : ¬ (r.lower = 0 ∧ r.upper = 0)) :
    r.members = (Finset.Ico 0 r.upper ∪ Finset.Ico r.lower (modulus w) : Finset Nat) := by
  ext v
  rw [mem_members_iff hw hr, Finset.mem_coe, Finset.mem_union, Finset.mem_Ico, Finset.mem_Ico]
  have hlower := hr.lower_lt
  unfold Has
  omega

theorem Fits.members_eq_empty (hw : IsWidth w) (hr : r.Fits w) (h : r.lower = 0 ∧ r.upper = 0) :
    r.members = ∅ :=
  Set.eq_empty_of_forall_notMem fun _ hv => ((mem_members_iff hw hr).1 hv).2.1 h

theorem Fits.finite_members (hw : IsWidth w) (hr : r.Fits w) : r.members.Finite :=
  (Set.finite_lt_nat (modulus w)).subset fun _ hv => ((mem_members_iff hw hr).1 hv).1

/-- The size of a range is the number of its members. -/
theorem Fits.size_eq_ncard (hw : IsWidth w) (hr : r.Fits w) : r.size = r.members.ncard := by
  rcases hr.size_cases hw with ⟨hlower, hupper, hsize⟩ | ⟨hlt, hsize⟩ | ⟨hle, hne, hsize⟩
  · rw [hsize, hr.members_eq_empty hw ⟨hlower, hupper⟩, Set.ncard_empty]
  · rw [hsize, hr.members_eq_Ico hw hlt, Set.ncard_coe_finset, Nat.card_Ico]
  · have hdisjoint : Disjoint (Finset.Ico 0 r.upper) (Finset.Ico r.lower (modulus w)) :=
      Finset.disjoint_left.2 fun v hlow hhigh => by
        rw [Finset.mem_Ico] at hlow hhigh
        omega
    rw [hsize, hr.members_eq_union hw hle hne, Set.ncard_coe_finset,
      Finset.card_union_of_disjoint hdisjoint, Nat.card_Ico, Nat.card_Ico]
    omega

/-! ## Queries -/

theorem Fits.isEmpty_iff_members (hw : IsWidth w) (hr : r.Fits w) :
    r.isEmpty = true ↔ r.members = ∅ := by
  refine ⟨fun h => hr.members_eq_empty hw (isEmpty_iff.1 h), fun h => ?_⟩
  by_contra hne
  obtain ⟨least, -, -, -, hleast, -⟩ := hr.bounds (Bool.eq_false_of_not_eq_true hne)
  exact Set.eq_empty_iff_forall_notMem.1 h least ((mem_members_iff hw hr).2 hleast)

/-- A range that is not empty has a least member and a greatest one, and they are what the queries
answer. -/
theorem Fits.exists_isLeast_isGreatest (hw : IsWidth w) (hr : r.Fits w) (h : r.isEmpty = false) :
    ∃ least greatest, r.min? = some least ∧ r.max? = some greatest ∧
      IsLeast r.members least ∧ IsGreatest r.members greatest := by
  obtain ⟨least, greatest, hmin, hmax, hleast, hgreatest, hbetween⟩ := hr.bounds h
  have hmem : ∀ {v}, v ∈ r.members → least ≤ v ∧ v ≤ greatest := fun hv =>
    let ⟨hlt, hhas⟩ := (mem_members_iff hw hr).1 hv
    hbetween _ hlt hhas
  exact ⟨least, greatest, hmin, hmax,
    ⟨(mem_members_iff hw hr).2 hleast, fun _ hv => (hmem hv).1⟩,
    ⟨(mem_members_iff hw hr).2 hgreatest, fun _ hv => (hmem hv).2⟩⟩

/-- The least member is the one that is answered. -/
theorem Fits.min?_eq_some_iff (hw : IsWidth w) (hr : r.Fits w) :
    r.min? = some v ↔ IsLeast r.members v := by
  cases hempty : r.isEmpty with
  | true =>
    rw [(hr.isEmpty_iff_members hw).1 hempty]
    simp [min?, hempty, IsLeast]
  | false =>
    obtain ⟨least, -, hmin, -, hleast, -⟩ := hr.exists_isLeast_isGreatest hw hempty
    rw [hmin, Option.some_inj]
    exact ⟨fun h => h ▸ hleast, fun h => hleast.unique h⟩

/-- The greatest member is the one that is answered. -/
theorem Fits.max?_eq_some_iff (hw : IsWidth w) (hr : r.Fits w) :
    r.max? = some v ↔ IsGreatest r.members v := by
  cases hempty : r.isEmpty with
  | true =>
    rw [(hr.isEmpty_iff_members hw).1 hempty]
    simp [max?, hempty, IsGreatest]
  | false =>
    obtain ⟨-, greatest, -, hmax, -, hgreatest⟩ := hr.exists_isLeast_isGreatest hw hempty
    rw [hmax, Option.some_inj]
    exact ⟨fun h => h ▸ hgreatest, fun h => hgreatest.unique h⟩

theorem min?_eq_none_iff : r.min? = none ↔ r.isEmpty = true := by
  unfold min?
  split_ifs <;> simp_all

theorem max?_eq_none_iff : r.max? = none ↔ r.isEmpty = true := by
  unfold max?
  split_ifs <;> simp_all

/-- The lower bound of a range that is not empty is a member. -/
theorem Fits.lower_mem (hw : IsWidth w) (hr : r.Fits w) (h : r.isEmpty = false) :
    r.lower ∈ r.members := by
  have hlower := hr.lower_lt
  rw [← Bool.not_eq_true, isEmpty_iff] at h
  rw [mem_members_iff hw hr]
  unfold Has
  omega

/-- A range has a word as its only member if it is answered to be the only one. -/
theorem Fits.singleElement?_eq_some_iff (hw : IsWidth w) (hr : r.Fits w) :
    r.singleElement? = some v ↔ r.members = {v} := by
  unfold singleElement?
  rw [hr.size_eq_ncard hw]
  constructor
  · intro h
    split_ifs at h with hone
    obtain ⟨only, honly⟩ := Set.ncard_eq_one.1 hone
    have hempty : r.isEmpty = false := by
      rw [← Bool.not_eq_true, hr.isEmpty_iff_members hw, honly]
      exact Set.singleton_ne_empty only
    have hmem := hr.lower_mem hw hempty
    rw [honly, Set.mem_singleton_iff] at hmem
    rw [honly, ← hmem, Option.some.inj h]
  · intro h
    have hempty : r.isEmpty = false := by
      rw [← Bool.not_eq_true, hr.isEmpty_iff_members hw, h]
      exact Set.singleton_ne_empty v
    have hmem := hr.lower_mem hw hempty
    rw [h, Set.mem_singleton_iff] at hmem
    rw [h, Set.ncard_singleton, if_pos rfl, hmem]

/-! ## Bits of information -/

/-- There are no more members than words. -/
theorem Fits.size_le (hw : IsWidth w) (hr : r.Fits w) : r.size ≤ 2 ^ w := by
  have hsize := hr.size_cases hw
  have hlower := hr.lower_lt
  have hupper := hr.upper_lt
  rw [← hw.modulus_eq]
  omega

/-- A range says `k` bits about a value if it has at most as many members as there are words without
them. -/
theorem Fits.le_informationBits_iff (hw : IsWidth w) (hr : r.Fits w) {k : Nat} (hk : k ≤ w) :
    k ≤ r.informationBits ↔ r.members.ncard ≤ 2 ^ (w - k) := by
  have hpos := Nat.two_pow_pos (w - k)
  have hdigits := bitLength_le_iff (n := r.size - 1) (k := w - k)
  have hall : bitLength (r.size - 1) ≤ w := by
    rw [bitLength_le_iff]
    have := hr.size_le hw
    have := Nat.two_pow_pos w
    omega
  unfold informationBits
  rw [← hr.size_eq_ncard hw, hr.width_eq]
  split_ifs with hone <;> omega

/-- The bits that a range says are the most for which it has at most as many members as there are
words without them. -/
theorem Fits.isGreatest_informationBits (hw : IsWidth w) (hr : r.Fits w) :
    IsGreatest { k | k ≤ w ∧ r.members.ncard ≤ 2 ^ (w - k) } r.informationBits := by
  have hle : r.informationBits ≤ w := by
    rw [← hr.width_eq]
    exact informationBits_le r
  exact ⟨⟨hle, (hr.le_informationBits_iff hw hle).1 (Nat.le_refl _)⟩,
    fun k hk => (hr.le_informationBits_iff hw hk.1).2 hk.2⟩

/-- What a range answers is about the set of its members alone: the size is how many there are, the
bounds are the least and the greatest and are missing if there is none, the single element is the
only one, and the bits are the most for which the members are as few as the words without them. So
more members say fewer bits. -/
theorem queries_denote (hw : IsWidth w) (hr : r.Valid w) :
    r.size = r.members.ncard ∧
    (∀ v, r.min? = some v ↔ IsLeast r.members v) ∧ (r.min? = none ↔ r.members = ∅) ∧
    (∀ v, r.max? = some v ↔ IsGreatest r.members v) ∧ (r.max? = none ↔ r.members = ∅) ∧
    (∀ v, r.singleElement? = some v ↔ r.members = {v}) ∧
    IsGreatest { k | k ≤ w ∧ r.members.ncard ≤ 2 ^ (w - k) } r.informationBits ∧
    ∀ s : ValueRange, s.Valid w → r.members ⊆ s.members →
      s.informationBits ≤ r.informationBits := by
  have hfits := hr.toFits
  refine ⟨hfits.size_eq_ncard hw, fun v => hfits.min?_eq_some_iff hw,
    min?_eq_none_iff.trans (hfits.isEmpty_iff_members hw), fun v => hfits.max?_eq_some_iff hw,
    max?_eq_none_iff.trans (hfits.isEmpty_iff_members hw),
    fun v => hfits.singleElement?_eq_some_iff hw, hfits.isGreatest_informationBits hw,
    fun s hs hsub => ?_⟩
  have hmost := (hs.toFits.isGreatest_informationBits hw).1
  refine (hfits.isGreatest_informationBits hw).2 ⟨hmost.1, ?_⟩
  exact (Set.ncard_le_ncard hsub (hs.toFits.finite_members hw)).trans hmost.2

/-- The bytes from 250 on and around to 3 are ten, with zero as the least and 255 as the greatest.
They say four bits, and with 4 to 9 added to them still say four. -/
theorem queries_denote_byte :
    let r : ValueRange := ⟨8, 250, 4⟩
    let s : ValueRange := ⟨8, 250, 10⟩
    IsWidth 8 ∧ r.Valid 8 ∧ s.Valid 8 ∧ r.members ⊆ s.members ∧
      r.members.ncard = 10 ∧ IsLeast r.members 0 ∧ IsGreatest r.members 255 ∧
      IsGreatest { k | k ≤ 8 ∧ r.members.ncard ≤ 2 ^ (8 - k) } 4 ∧ s.informationBits ≤ 4 := by
  intro r s
  have hw : IsWidth 8 := ⟨by decide, by decide⟩
  have hr : r.Valid 8 := ⟨⟨rfl, by decide, by decide⟩, by decide⟩
  have hs : s.Valid 8 := ⟨⟨rfl, by decide, by decide⟩, by decide⟩
  have hsub : r.members ⊆ s.members := by
    intro v hv
    rw [mem_members_iff hw hr.toFits] at hv
    rw [mem_members_iff hw hs.toFits]
    refine ⟨hv.1, ?_⟩
    have hhas := hv.2
    simp only [Has, r, s] at hhas ⊢
    omega
  have hten : r.size = 10 := by decide
  have hfour : r.informationBits = 4 := by decide
  obtain ⟨hsize, hmin, -, hmax, -, -, hbits, hanti⟩ := queries_denote hw hr
  rw [hfour] at hbits
  exact ⟨hw, hr, hs, hsub, hsize ▸ hten, (hmin 0).1 rfl, (hmax 255).1 rfl, hbits,
    hfour ▸ hanti s hs hsub⟩

end ValueRange

end FactGuard
