import FactGuard.Proofs.KnownBits.Precision
import FactGuard.Proofs.Machine.Arith

/-!
# Operations that work bit by bit are as precise as they can be

Each bit of the result of a bitwise operation, of a shift or of a change of width is decided by one
bit of each operand, or it is always zero. The bits of the words that agree with known bits take
every value there that is not excluded (`Valid.forall_testBit_iff`), and so it is enough to compare
single bits: those of the result with what the result forces there. `KnownBits.best_bitwise` puts
the operations together.

For shifts and changes of width `KnownBits/Forced.lean` says which bit this is, and what is forced
there (`Valid.best_copies`).
-/

namespace FactGuard.KnownBits

variable {a b k r : KnownBits} {w target v amount i j : Nat} {value : Bool}

/-! ## The bits of the members -/

/-- At a bit below the width the members have each value that the opposite is not forced of. -/
theorem Valid.exists_member (hw : IsWidth w) (hk : k.Valid w) (hi : i < w)
    (h : k.forces i (!value) = false) : ∃ v ∈ k.members, v.testBit i = value := by
  cases value with
  | true =>
    refine ⟨_, hk.minValue_or_mem hw hi h, ?_⟩
    rw [Nat.testBit_or, Nat.testBit_two_pow_self, Bool.or_true]
  | false => exact ⟨_, hk.minValue_mem hw, h⟩

/-- What holds of a bit of every member is what holds of the values that are left open there. -/
theorem Valid.forall_testBit_iff (hw : IsWidth w) (hk : k.Valid w) (hi : i < w) {P : Bool → Prop} :
    (∀ v ∈ k.members, P (v.testBit i)) ↔ ∀ bit, k.forces i (!bit) = false → P bit := by
  constructor
  · intro h bit hopen
    obtain ⟨v, hv, rfl⟩ := hk.exists_member hw hi hopen
    exact h v hv
  · intro h v hv
    rw [mem_members_iff hw hk.toFits] at hv
    refine h _ (Bool.eq_false_iff.2 fun hforced => ?_)
    have hbit := hv.2.testBit_eq hforced
    exact absurd hbit (by simp)

/-- A bit is forced if it is alike in all members. -/
theorem Valid.forces_iff (hw : IsWidth w) (hk : k.Valid w) (hi : i < w) :
    k.forces i value = true ↔ ∀ v ∈ k.members, v.testBit i = value := by
  constructor
  · intro h v hv
    exact ((mem_members_iff hw hk.toFits).1 hv).2.testBit_eq h
  · intro h
    by_contra hopen
    have hother : k.forces i (!!value) = false := by simpa using hopen
    obtain ⟨v, hv, hbit⟩ := hk.exists_member hw hi hother
    rw [h v hv] at hbit
    exact absurd hbit (by simp)

/-! ## Comparing single bits -/

/-- Masks that fit and force what is alike in the words of a set are the best ones for it. They
share no bit, since no word of the set has two values there. -/
theorem Fits.best (hw : IsWidth w) (hr : r.Fits w) {all : Set Nat} (hne : all.Nonempty)
    (h : ∀ i < w, ∀ value, r.forces i value = true ↔ ∀ v ∈ all, v.testBit i = value) :
    r.Best w all := by
  obtain ⟨v, hv⟩ := hne
  have hadmits : r.Admits v := hr.admits_of_forces hw fun i hi value hforced =>
    (h i hi value).1 hforced v hv
  exact ⟨⟨hr, hadmits.masks_disjoint⟩, h⟩

/-- An operation on two words that works bit by bit, and masks that are made bit by bit from those
of the operands: it is enough to compare the two for single bits. -/
theorem Valid.best_image2 (hw : IsWidth w) (ha : a.Valid w) (hb : b.Valid w) {zeros ones : Nat}
    {f : Nat → Nat → Nat} (g : Bool → Bool → Bool) (zero one : Bool → Bool → Bool → Bool → Bool)
    (hf : ∀ x y i, (f x y).testBit i = g (x.testBit i) (y.testBit i))
    (hzeros : ∀ i, zeros.testBit i = zero (a.zero.bits.testBit i) (a.one.bits.testBit i)
      (b.zero.bits.testBit i) (b.one.bits.testBit i))
    (hones : ∀ i, ones.testBit i = one (a.zero.bits.testBit i) (a.one.bits.testBit i)
      (b.zero.bits.testBit i) (b.one.bits.testBit i))
    (hbits : ∀ az ao bz bo, (az && ao) = false → (bz && bo) = false → ∀ value,
      (if value then one az ao bz bo else zero az ao bz bo) = true ↔
        ∀ x, (if x then az else ao) = false → ∀ y, (if y then bz else bo) = false → g x y = value) :
    (ofBits w zeros ones).Best w (Set.image2 f a.members b.members) := by
  refine (fits_ofBits ..).best hw ⟨_, Set.mem_image2_of_mem (ha.minValue_mem hw)
    (hb.minValue_mem hw)⟩ fun i hi value => ?_
  have hdisjoint : ∀ {k : KnownBits}, k.Valid w →
      (k.zero.bits.testBit i && k.one.bits.testBit i) = false := fun {k} hk => by
    rw [← Nat.testBit_and, hk.disjoint, Nat.zero_testBit]
  have hopen : ∀ {k : KnownBits} bit,
      k.forces i (!bit) = if bit then k.zero.bits.testBit i else k.one.bits.testBit i :=
    fun {k} bit => by cases bit <;> rfl
  -- The bits of the two words vary independently, each over what its masks leave open.
  have himages : (∀ x ∈ a.members, ∀ y ∈ b.members, (f x y).testBit i = value) ↔
      ∀ x, a.forces i (!x) = false → ∀ y, b.forces i (!y) = false → g x y = value := by
    simp only [hf]
    rw [ha.forall_testBit_iff hw hi (P := fun x => ∀ y ∈ b.members, g x (y.testBit i) = value)]
    refine forall_congr' fun x => imp_congr_right fun _ => ?_
    exact hb.forall_testBit_iff hw hi (P := fun y => g x y = value)
  rw [Set.forall_mem_image2, himages, forces_ofBits hw hi]
  simp only [hopen]
  rw [← hbits _ _ _ _ (hdisjoint ha) (hdisjoint hb) value, ← hzeros, ← hones]
  cases value <;> rfl

/-- An operation on one word each bit of whose result is a bit of the word or always zero, and masks
that force there what is forced at this bit, or zero. -/
theorem Valid.best_copies (hw : IsWidth w) (ha : a.Valid w) (htarget : IsWidth target)
    (hr : r.Fits target) {f : Nat → Nat}
    (h : ∀ i < target,
      (∃ j < w, (∀ x ∈ a.members, (f x).testBit i = x.testBit j) ∧
        ∀ value, r.forces i value = a.forces j value) ∨
      ((∀ x ∈ a.members, (f x).testBit i = false) ∧ ∀ value, r.forces i value = !value)) :
    r.Best target (f '' a.members) := by
  refine hr.best htarget ⟨_, Set.mem_image_of_mem f (ha.minValue_mem hw)⟩ fun i hi value => ?_
  rw [Set.forall_mem_image]
  rcases h i hi with ⟨j, hj, hcopy, hforces⟩ | ⟨hzero, hforces⟩
  · rw [hforces, ha.forces_iff hw hj]
    exact forall₂_congr fun x hx => by rw [hcopy x hx]
  · rw [hforces]
    constructor
    · intro hvalue x hx
      rw [hzero x hx]
      simpa using hvalue.symm
    · intro hall
      rw [← hall (ha.minValue_mem hw), hzero _ (ha.minValue_mem hw)]
      rfl

/-! ## Bitwise operations -/

theorem Valid.best_and (hw : IsWidth w) (ha : a.Valid w) (hb : b.Valid w) :
    (a.and b).Best w (Set.image2 (· &&& ·) a.members b.members) := by
  rw [KnownBits.and, ha.width_eq]
  exact ha.best_image2 hw hb Bool.and (fun az _ bz _ => az || bz) (fun _ ao _ bo => ao && bo)
    (fun x y i => Nat.testBit_and x y i) (fun i => Nat.testBit_or _ _ i)
    (fun i => Nat.testBit_and _ _ i) (by decide)

theorem Valid.best_or (hw : IsWidth w) (ha : a.Valid w) (hb : b.Valid w) :
    (a.or b).Best w (Set.image2 (· ||| ·) a.members b.members) := by
  rw [KnownBits.or, ha.width_eq]
  exact ha.best_image2 hw hb Bool.or (fun az _ bz _ => az && bz) (fun _ ao _ bo => ao || bo)
    (fun x y i => Nat.testBit_or x y i) (fun i => Nat.testBit_and _ _ i)
    (fun i => Nat.testBit_or _ _ i) (by decide)

theorem Valid.best_xor (hw : IsWidth w) (ha : a.Valid w) (hb : b.Valid w) :
    (a.xor b).Best w (Set.image2 (· ^^^ ·) a.members b.members) := by
  rw [KnownBits.xor, ha.width_eq]
  refine ha.best_image2 hw hb Bool.xor (fun az ao bz bo => (az && bz) || (ao && bo))
    (fun az ao bz bo => (az && bo) || (ao && bz)) (fun x y i => Nat.testBit_xor x y i) (fun i => ?_)
    (fun i => ?_) (by decide)
  · rw [Nat.testBit_or, Nat.testBit_and, Nat.testBit_and]
  · rw [Nat.testBit_or, Nat.testBit_and, Nat.testBit_and]

theorem Valid.best_not (hw : IsWidth w) (ha : a.Valid w) :
    a.not.Best w (invert w '' a.members) := by
  refine ha.toFits.not.best hw ⟨_, Set.mem_image_of_mem _ (ha.minValue_mem hw)⟩ fun i hi value => ?_
  have hforces : a.not.forces i value = a.forces i (!value) := by
    rw [KnownBits.not, ha.width_eq, forces_ofBits hw hi]
    cases value <;> rfl
  have hinvert : ∀ x, (invert w x).testBit i = value ↔ x.testBit i = !value := fun x => by
    rw [hw.testBit_invert, decide_eq_true hi, Bool.true_and, Bool.not_eq_eq_eq_not]
  rw [hforces, ha.forces_iff hw hi, Set.forall_mem_image]
  simp only [hinvert]

/-- What both sides know alike is the best that can be said of the members of both. -/
theorem Valid.best_common (hw : IsWidth w) (ha : a.Valid w) (hb : b.Valid w) :
    (a.common b).Best w (a.members ∪ b.members) := by
  refine (ha.toFits.common b).best hw ⟨_, .inl (ha.minValue_mem hw)⟩ fun i hi value => ?_
  have hforces : (a.common b).forces i value = (a.forces i value && b.forces i value) := by
    rw [KnownBits.common, ha.width_eq, forces_ofBits hw hi]
    cases value <;> exact Nat.testBit_and ..
  rw [hforces, Bool.and_eq_true, ha.forces_iff hw hi, hb.forces_iff hw hi]
  simp only [Set.mem_union, or_imp, forall_and]

/-! ## Shifts -/

/-- Members have no bit from the width on. -/
theorem testBit_of_mem (hw : IsWidth w) (hk : k.Fits w) (hv : v ∈ k.members) (hj : w ≤ j) :
    v.testBit j = false := hw.testBit_of_le ((mem_members_iff hw hk).1 hv).1 hj

theorem Valid.best_shl (hw : IsWidth w) (ha : a.Valid w) (amount : Nat) :
    (a.shl amount).Best w
      ((fun x => if w ≤ amount then 0 else (x <<< amount) % 2 ^ w) '' a.members) := by
  refine ha.best_copies hw hw (ha.toFits.shl amount) fun i hi => ?_
  by_cases hlow : i < amount
  · refine .inr ⟨fun x _ => ?_, fun value => by rw [ha.toFits.forces_shl hw hi, if_pos hlow]⟩
    split_ifs
    · exact Nat.zero_testBit i
    · simp [Nat.testBit_mod_two_pow, show ¬ amount ≤ i by omega]
  · refine .inl ⟨i - amount, by omega, fun x _ => ?_, fun value => by
      rw [ha.toFits.forces_shl hw hi, if_neg hlow]⟩
    rw [if_neg (by omega), Nat.testBit_mod_two_pow, Nat.testBit_shiftLeft]
    simp [hi, show amount ≤ i by omega]

theorem Valid.best_lshr (hw : IsWidth w) (ha : a.Valid w) (amount : Nat) :
    (a.lshr amount).Best w ((fun x => if w ≤ amount then 0 else x >>> amount) '' a.members) := by
  refine ha.best_copies hw hw (ha.toFits.lshr amount) fun i hi => ?_
  by_cases hlow : i + amount < w
  · refine .inl ⟨i + amount, hlow, fun x _ => ?_, fun value => by
      rw [ha.toFits.forces_lshr hw hi, if_pos hlow]⟩
    rw [if_neg (by omega), Nat.testBit_shiftRight, Nat.add_comm]
  · refine .inr ⟨fun x hx => ?_, fun value => by rw [ha.toFits.forces_lshr hw hi, if_neg hlow]⟩
    split_ifs
    · exact Nat.zero_testBit i
    · rw [Nat.testBit_shiftRight, testBit_of_mem hw ha.toFits hx (by omega)]

theorem Valid.best_ashr (hw : IsWidth w) (ha : a.Valid w) (amount : Nat) :
    (a.ashr amount).Best w
      ((fun x => truncateInt w (toSigned w x >>> min amount (w - 1))) '' a.members) := by
  have hpos := hw.pos
  refine ha.best_copies hw hw (ha.toFits.ashr amount) fun i hi => ?_
  refine .inl ⟨min (i + amount) (w - 1), by omega, fun x _ => ?_, fun value =>
    ha.forces_ashr hw hi⟩
  rw [testBit_truncateInt_toSigned hw hw, decide_eq_true hi, Bool.true_and]
  congr 1
  omega

/-! ## Changes of width -/

theorem Valid.best_truncate (hw : IsWidth w) (htarget : IsWidth target) (hle : target ≤ w)
    (ha : a.Valid w) : (a.truncate target).Best target ((· % 2 ^ target) '' a.members) := by
  refine ha.best_copies hw htarget (a.fits_truncate target) fun i hi => ?_
  refine .inl ⟨i, by omega, fun x _ => ?_, fun value => forces_truncate htarget hi a⟩
  rw [Nat.testBit_mod_two_pow, decide_eq_true hi, Bool.true_and]

theorem Valid.best_zeroExtend (hw : IsWidth w) (htarget : IsWidth target) (ha : a.Valid w) :
    (a.zeroExtend target).Best target ((· % 2 ^ target) '' a.members) := by
  refine ha.best_copies hw htarget (a.fits_zeroExtend target) fun i hi => ?_
  have hbit : ∀ x : Nat, (x % 2 ^ target).testBit i = x.testBit i := fun x => by
    rw [Nat.testBit_mod_two_pow, decide_eq_true hi, Bool.true_and]
  by_cases hlow : i < w
  · exact .inl ⟨i, hlow, fun x _ => hbit x, fun value => by
      rw [ha.toFits.forces_zeroExtend hw htarget hi, if_pos hlow]⟩
  · exact .inr ⟨fun x hx => (hbit x).trans (testBit_of_mem hw ha.toFits hx (by omega)),
      fun value => by rw [ha.toFits.forces_zeroExtend hw htarget hi, if_neg hlow]⟩

theorem Valid.best_signExtend (hw : IsWidth w) (htarget : IsWidth target) (ha : a.Valid w) :
    (a.signExtend target).Best target
      ((fun x => truncateInt target (toSigned w x)) '' a.members) := by
  have hpos := hw.pos
  refine ha.best_copies hw htarget (a.fits_signExtend target) fun i hi => ?_
  refine .inl ⟨min i (w - 1), by omega, fun x _ => ?_, fun value =>
    ha.forces_signExtend hw htarget hi⟩
  have hbit := testBit_truncateInt_toSigned hw htarget x 0 i
  rwa [Int.shiftRight_zero, Nat.add_zero, decide_eq_true hi, Bool.true_and] at hbit

/-! ## What the machine computes

At the width of an integer type the images are those of what the machine does with values of the
type. Which of two operations on known bits follows it depends on whether the type has a sign.
-/

theorem Valid.best_shiftLeft {ty : Ty} (hty : ty.intWidth? = some w) (ha : a.Valid w)
    (amount : Nat) : (a.shl amount).Best w ((shiftLeft ty · amount) '' a.members) := by
  have hw := Ty.isWidth_of_intWidth? hty
  have hshift : (shiftLeft ty · amount)
      = fun x => if w ≤ amount then 0 else (x <<< amount) % 2 ^ w := by
    funext x
    rw [shiftLeft, Ty.wrap, Ty.bits_of_intWidth? hty, hw.truncate_eq]
  rw [hshift]
  exact ha.best_shl hw amount

theorem Valid.best_shiftRight {ty : Ty} (hty : ty.intWidth? = some w) (ha : a.Valid w)
    (amount : Nat) :
    (if ty.isSigned then a.ashr amount else a.lshr amount).Best w
      ((shiftRight ty · amount) '' a.members) := by
  have hw := Ty.isWidth_of_intWidth? hty
  unfold shiftRight Ty.wrapInt
  rw [Ty.bits_of_intWidth? hty]
  cases ty.isSigned with
  | true => exact ha.best_ashr hw amount
  | false => exact ha.best_lshr hw amount

theorem Valid.best_convert {source ty : Ty} (hsource : source.intWidth? = some w)
    (hty : ty.intWidth? = some target) (ha : a.Valid w) :
    (if source.isSigned then a.signExtend target else a.zeroExtend target).Best target
      (convert source ty '' a.members) := by
  have hw := Ty.isWidth_of_intWidth? hsource
  have htarget := Ty.isWidth_of_intWidth? hty
  cases hsigned : source.isSigned with
  | true =>
    have hconvert : convert source ty = fun x => truncateInt target (toSigned w x) := by
      funext x
      simp only [convert, hsource, hty, hsigned, if_true, Ty.wrapInt, Ty.bits_of_intWidth? hsource,
        Ty.bits_of_intWidth? hty]
    rw [hconvert]
    exact ha.best_signExtend hw htarget
  | false =>
    -- A member is not changed when it is cut to its own width first.
    have hconvert : convert source ty '' a.members = (· % 2 ^ target) '' a.members := by
      refine Set.image_congr fun x hx => ?_
      have hlt := ((mem_members_iff hw ha.toFits).1 hx).1
      simp only [convert, hsource, hty, hsigned, Ty.wrap, Ty.bits_of_intWidth? hsource,
        Ty.bits_of_intWidth? hty, truncate_of_lt hlt, htarget.truncate_eq]
      rfl
    rw [hconvert]
    exact ha.best_zeroExtend hw htarget

/-- Bitwise operations, shifts by any amount, changes of width and what two sides know alike are the
best that can be said of what becomes of the words that agree with the operands. At the types that
have the width, this is what the machine makes of them. -/
theorem best_bitwise (hw : IsWidth w) (ha : a.Valid w) (hb : b.Valid w) :
    ((a.and b).Best w (Set.image2 (· &&& ·) a.members b.members) ∧
      (a.or b).Best w (Set.image2 (· ||| ·) a.members b.members) ∧
      (a.xor b).Best w (Set.image2 (· ^^^ ·) a.members b.members) ∧
      a.not.Best w (invert w '' a.members) ∧
      (a.common b).Best w (a.members ∪ b.members)) ∧
    (∀ amount,
      (a.shl amount).Best w
        ((fun x => if w ≤ amount then 0 else (x <<< amount) % 2 ^ w) '' a.members) ∧
      (a.lshr amount).Best w ((fun x => if w ≤ amount then 0 else x >>> amount) '' a.members) ∧
      (a.ashr amount).Best w
        ((fun x => truncateInt w (toSigned w x >>> min amount (w - 1))) '' a.members)) ∧
    (∀ target, IsWidth target →
      (a.zeroExtend target).Best target ((· % 2 ^ target) '' a.members) ∧
      (a.signExtend target).Best target
        ((fun x => truncateInt target (toSigned w x)) '' a.members) ∧
      (target ≤ w → (a.truncate target).Best target ((· % 2 ^ target) '' a.members))) ∧
    ∀ ty : Ty, ty.intWidth? = some w →
      (∀ amount, (a.shl amount).Best w ((shiftLeft ty · amount) '' a.members) ∧
        (if ty.isSigned then a.ashr amount else a.lshr amount).Best w
          ((shiftRight ty · amount) '' a.members)) ∧
      ∀ wide : Ty, ∀ target, wide.intWidth? = some target →
        (if ty.isSigned then a.signExtend target else a.zeroExtend target).Best target
          (convert ty wide '' a.members) :=
  ⟨⟨ha.best_and hw hb, ha.best_or hw hb, ha.best_xor hw hb, ha.best_not hw, ha.best_common hw hb⟩,
    fun amount => ⟨ha.best_shl hw amount, ha.best_lshr hw amount, ha.best_ashr hw amount⟩,
    fun _ htarget => ⟨ha.best_zeroExtend hw htarget, ha.best_signExtend hw htarget,
      fun hle => ha.best_truncate hw htarget hle⟩,
    fun _ hty => ⟨fun amount => ⟨ha.best_shiftLeft hty amount, ha.best_shiftRight hty amount⟩,
      fun _ _ hwide => ha.best_convert hty hwide⟩⟩

/-- A negative multiple of 16 of eight bits, and an odd number below 16: a shift to the right by 20
leaves ones only, and bit 1 of the exclusive or can be either. -/
theorem best_bitwise_byte :
    let a := ofBits 8 0x0F 0x80
    let b := ofBits 8 0xF0 0x01
    IsWidth 8 ∧ a.Valid 8 ∧ b.Valid 8 ∧
      (∀ i < 8, ∀ v ∈ (shiftRight .i8 · 20) '' a.members, v.testBit i = true) ∧
      ∀ value, ∃ v ∈ Set.image2 (· ^^^ ·) a.members b.members, v.testBit 1 ≠ value := by
  intro a b
  have hw : IsWidth 8 := ⟨by decide, by decide⟩
  have ha : a.Valid 8 := ⟨fits_ofBits .., by decide⟩
  have hb : b.Valid 8 := ⟨fits_ofBits .., by decide⟩
  obtain ⟨⟨-, -, hxor, -⟩, -, -, htypes⟩ := best_bitwise hw ha hb
  have hshift := ((htypes .i8 rfl).1 20).2
  have hones : ∀ i < 8, (a.ashr 20).forces i true = true := by decide
  refine ⟨hw, ha, hb, fun i hi => (hshift.forces_iff i hi true).1 (hones i hi), fun value => ?_⟩
  have hopen : (a.xor b).forces 1 value ≠ true := by
    revert value
    decide
  rw [ne_eq, hxor.forces_iff 1 (by decide)] at hopen
  simpa only [not_forall, exists_prop] using hopen

end FactGuard.KnownBits
