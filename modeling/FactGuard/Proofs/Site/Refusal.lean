import FactGuard.Proofs.Guard.Execution
import FactGuard.Proofs.Site.Atomicity
import FactGuard.Proofs.ValueRange.Membership

/-!
# Which values guards refuse

A value is refused at a definition if a check that the settings ask for refuses what the oracle
claims there (`Function.refuses`). If the definition has a guard, the guard tests just this
(`Settings.isViolated_guards`), and if it has none, no value is refused there
(`Settings.refuses_of_not_guarded`).
-/

namespace FactGuard

/-- A check that the settings ask for refuses the value, by what the oracle claims. -/
def Function.refuses (f : Function) (settings : Settings) (oracle : Oracle) (value block : String)
    (v : Nat) : Bool :=
  ((f.valueType? value).bind Ty.intWidth?).isSome &&
    settings.refuses (oracle.range value block) ⟨(oracle.masks value).1, (oracle.masks value).2⟩ v

/-- The bounds of the ranges that an oracle answers with are words of their widths, as those of all
ranges that `ValueRange.ofBounds` makes, and its masks have no bit above the width of the value. -/
structure Oracle.Fits (oracle : Oracle) (f : Function) : Prop where
  range_fits : ∀ value block, (oracle.range value block).Fits (oracle.range value block).width
  masks_lt : ∀ value ty width, f.valueType? value = some ty → ty.intWidth? = some width →
    (oracle.masks value).1.bits < modulus width ∧ (oracle.masks value).2.bits < modulus width

/-- The claim about the countdown fits. -/
theorem countdownOracle_fits : countdownOracle.Fits countdown where
  range_fits := by
    intro value block
    unfold countdownOracle
    dsimp only
    split_ifs
    · exact ⟨rfl, by decide, by decide⟩
    · exact ⟨rfl, by decide, by decide⟩
    · exact ⟨rfl, by decide, by decide⟩
  masks_lt := by
    intro value ty width _ _
    unfold countdownOracle
    dsimp only
    split_ifs
    · exact ⟨modulus_pos width, modulus_pos width⟩
    · exact ⟨modulus_pos width, modulus_pos width⟩

/-- The findings that get a guard, each with its condition. -/
def Settings.guards (settings : Settings) (findings : List Finding) : List (Finding × Condition) :=
  (settings.calls findings).filter fun call => !call.2.isVacuous

variable {f : Function} {settings : Settings} {oracle : Oracle} {d : Definition} {ty : Ty}
  {width v : Nat}

theorem Settings.mem_guards {findings : List Finding} {call : Finding × Condition} :
    call ∈ settings.guards findings ↔ call.1 ∈ findings ∧
      call.2 = settings.condition call.1.range call.1.known ∧ call.2.isVacuous = false := by
  unfold guards calls
  rw [List.mem_filter, List.mem_map, Bool.not_eq_true', and_congr_left_iff.2 fun _ => ?_, and_assoc]
  constructor
  · rintro ⟨other, hother, rfl⟩
    exact ⟨hother, rfl⟩
  · rintro ⟨hfinding, heq⟩
    exact ⟨call.1, hfinding, Prod.ext rfl heq.symm⟩

/-! ## What was surveyed -/

/-- Definitions at one place are equal. -/
theorem Function.definition_eq (hf : f.labels.Nodup) (hd : d ∈ f.definitions) {other : Definition}
    (hother : other ∈ f.definitions) (hblock : other.block = d.block)
    (hindex : other.index = d.index) :
    other = d := by
  obtain ⟨block, hmem, hdef⟩ := mem_definitions.1 hd
  obtain ⟨block', hmem', hdef'⟩ := mem_definitions.1 hother
  obtain ⟨hlabel, hinstr, -, hdest⟩ := Block.mem_definitions.1 hdef
  obtain ⟨hlabel', hinstr', -, hdest'⟩ := Block.mem_definitions.1 hdef'
  have hsame : block' = block := eq_of_label_eq hf hmem' hmem (by rw [← hlabel, ← hlabel', hblock])
  rw [hsame, hindex, hinstr] at hinstr'
  have hinstrs : other.instr = d.instr := (Option.some.inj hinstr').symm
  rw [hinstrs, hdest] at hdest'
  obtain ⟨_, _, _, _⟩ := other
  obtain ⟨_, _, _, _⟩ := d
  cases hblock
  cases hindex
  cases hinstrs
  cases hdest'
  rfl

/-- If a survey went through, the oracle has answered about every integer value. -/
theorem Survey.exists_finding {definitions : List Definition}
    (h : (ofDefinitions f oracle definitions).failure? = none) (hd : d ∈ definitions)
    (hty : f.valueType? d.value = some ty) (hwidth : ty.intWidth? = some width) :
    ∃ finding, oracle.finding d ty width = .ok finding := by
  induction definitions with
  | nil => simp at hd
  | cons first rest ih =>
    rcases cons_cases f oracle first rest with ⟨hnone, events, heq⟩ |
      ⟨ty', width', hty', hwidth', ⟨failure, -, heq⟩ | ⟨finding, hfinding, heq⟩⟩
    · rw [heq] at h
      rcases List.mem_cons.1 hd with rfl | hd
      · rw [hty, Option.bind_some, hwidth] at hnone
        cases hnone
      · exact ih h hd
    · rw [heq] at h
      cases h
    · rw [heq] at h
      rcases List.mem_cons.1 hd with rfl | hd
      · cases hty'.symm.trans hty
        cases hwidth'.symm.trans hwidth
        exact ⟨finding, hfinding⟩
      · exact ih h hd

/-! ## What is tested -/

/-- A word of the type of the value is one of the width of a finding about it. -/
theorem Finding.Describes.lt_modulus {finding : Finding} (h : finding.Describes f d)
    (hty : f.valueType? d.value = some ty) (hv : v < modulus ty.bits) :
    v < modulus finding.range.width := by
  have hsame : ty = finding.ty := by
    have hfinding := h.valueType?_eq
    rw [h.value_eq, hty] at hfinding
    exact Option.some.inj hfinding
  rwa [hsame, Ty.bits_of_intWidth? h.intWidth?_eq] at hv

/-- The condition for an answer of the oracle is what the oracle's claim refuses. -/
theorem Settings.isViolated_of_finding (settings : Settings) (hty : f.valueType? d.value = some ty)
    (hwidth : ty.intWidth? = some width) {finding : Finding}
    (hfinding : oracle.finding d ty width = .ok finding) (hv : v < modulus width) :
    (settings.condition finding.range finding.known).isViolated v
      = f.refuses settings oracle d.value d.block v := by
  obtain ⟨known, hmasks, hrange, hknown, rfl⟩ := Oracle.finding_eq_ok_iff.1 hfinding
  obtain ⟨-, -, hanswer⟩ := KnownBits.ofMasks_eq_ok_iff.1 hmasks
  dsimp only
  rw [settings.isViolated_condition (by rw [hrange]; exact Ty.isWidth_of_intWidth? hwidth)
    (hknown.trans hrange.symm) (by rwa [hrange])]
  unfold Function.refuses
  rw [hty, Option.bind_some, hwidth, Option.isSome_some, Bool.true_and, hanswer]

/-- A condition that tests nothing is never violated. -/
theorem Condition.isViolated_of_isVacuous {condition : Condition} (h : condition.isVacuous = true)
    (v : Nat) : condition.isViolated v = false := by
  cases condition with
  | always => cases h
  | violated guard =>
    have hterms : guard.terms = [] := List.isEmpty_iff.1 h
    show guard.terms.any _ = false
    rw [hterms]
    rfl

/-- Trivial findings ask for no test. -/
theorem Settings.isVacuous_of_isTrivial (settings : Settings) {finding : Finding}
    (hw : IsWidth finding.range.width) (h : finding.isTrivial = true) :
    (settings.condition finding.range finding.known).isVacuous = true := by
  unfold Finding.isTrivial KnownBits.isUnknown at h
  simp only [Bool.and_eq_true, beq_iff_eq] at h
  obtain ⟨hfull, hzero, hone⟩ := h
  have hempty : finding.range.isEmpty = false := by
    by_contra hne
    rw [ValueRange.isFull_of_isEmpty hw (by simpa using hne)] at hfull
    cases hfull
  simp [condition, Condition.isVacuous, rangeTerms, bitTerms, hfull, hempty, hzero, hone]

/-- Where no guard is, nothing is refused. -/
theorem Settings.refuses_of_not_guarded (h : (f.survey oracle).failure? = none)
    (hd : d ∈ f.definitions) (hty : f.valueType? d.value = some ty) (hv : v < modulus ty.bits)
    (hguards : ∀ call ∈ settings.guards (f.survey oracle).findings, call.1.block = d.block →
      call.1.index ≠ d.index) : f.refuses settings oracle d.value d.block v = false := by
  cases hwidth : ty.intWidth? with
  | none =>
    unfold Function.refuses
    rw [hty, Option.bind_some, hwidth]
    rfl
  | some width =>
    -- A value of integer type has a finding, which asks for no test.
    obtain ⟨finding, hfinding⟩ := Survey.exists_finding h hd hty hwidth
    rw [Ty.bits_of_intWidth? hwidth] at hv
    rw [← settings.isViolated_of_finding hty hwidth hfinding hv]
    refine Condition.isViolated_of_isVacuous ?_ v
    obtain ⟨known, -, hrange, -, heq⟩ := Oracle.finding_eq_ok_iff.1 hfinding
    by_cases htrivial : finding.isTrivial = true
    · refine settings.isVacuous_of_isTrivial ?_ htrivial
      rw [heq]
      dsimp only
      rw [hrange]
      exact Ty.isWidth_of_intWidth? hwidth
    · -- The finding is one of the survey, so it would have a guard.
      by_contra hvacuous
      have hfound : oracle.found f d = some finding :=
        Oracle.found_eq_some_iff.2 ⟨by simpa using htrivial, ty, width, hty, hwidth, hfinding⟩
      have hmem : finding ∈ (f.survey oracle).findings := by
        obtain ⟨seen, -, hfindings, hall⟩ := Survey.findings_eq f oracle f.definitions
        unfold Function.survey
        rw [hfindings, hall h]
        exact List.mem_filterMap.2 ⟨d, hd, hfound⟩
      have hdescribes := Oracle.describes_of_found hfound
      exact hguards (finding, settings.condition finding.range finding.known)
        (mem_guards.2 ⟨hmem, rfl, by simpa using hvacuous⟩) hdescribes.block_eq hdescribes.index_eq

/-- A guard tests what is refused at its definition. -/
theorem Settings.isViolated_guards (hf : f.labels.Nodup) (hd : d ∈ f.definitions)
    {call : Finding × Condition} (hcall : call ∈ settings.guards (f.survey oracle).findings)
    (hblock : call.1.block = d.block) (hindex : call.1.index = d.index) :
    call.1.Describes f d ∧ ∀ v < modulus call.1.range.width,
      call.2.isViolated v = f.refuses settings oracle d.value d.block v := by
  obtain ⟨hfinding, hcondition, -⟩ := mem_guards.1 hcall
  obtain ⟨other, hother, hfound⟩ := Function.exists_definition hfinding
  have hdescribes := Oracle.describes_of_found hfound
  -- The finding was found at this definition, since no other is at its place.
  have heq : other = d := Function.definition_eq hf hd hother
    (hdescribes.block_eq.symm.trans hblock)
    (hdescribes.index_eq.symm.trans hindex)
  rw [heq] at hfound hdescribes
  obtain ⟨-, ty, width, hty, hwidth, hanswer⟩ := Oracle.found_eq_some_iff.1 hfound
  obtain ⟨known, -, hrange, -, hshape⟩ := Oracle.finding_eq_ok_iff.1 hanswer
  refine ⟨hdescribes, fun v hv => ?_⟩
  rw [hcondition]
  refine settings.isViolated_of_finding hty hwidth hanswer ?_
  rwa [hshape, hrange] at hv

/-- The constants of a guard are words of the width of its value. -/
theorem Settings.fits_guards (hfits : oracle.Fits f) {finding : Finding} {guard : Guard}
    (hcall : (finding, .violated guard) ∈ settings.guards (f.survey oracle).findings) :
    guard.width = finding.range.width ∧ ∀ t ∈ guard.terms, t.Fits finding.range.width := by
  obtain ⟨hfinding, hcondition, -⟩ := mem_guards.1 hcall
  dsimp only at hfinding hcondition
  obtain ⟨d, -, hfound⟩ := Function.exists_definition hfinding
  obtain ⟨-, ty, width, hty, hwidth, hanswer⟩ := Oracle.found_eq_some_iff.1 hfound
  obtain ⟨known, hmasks, hrange, -, hshape⟩ := Oracle.finding_eq_ok_iff.1 hanswer
  have hknown : finding.range = oracle.range d.value d.block ∧
      finding.known = ⟨(oracle.masks d.value).1, (oracle.masks d.value).2⟩ := by
    obtain ⟨-, -, hanswer⟩ := KnownBits.ofMasks_eq_ok_iff.1 hmasks
    rw [hshape, hanswer]
    exact ⟨rfl, rfl⟩
  have hbounds := hfits.range_fits d.value d.block
  obtain ⟨hzero, hone⟩ := hfits.masks_lt d.value ty width hty hwidth
  refine settings.fits_of_condition hcondition.symm ?_ ?_ ?_ ?_
  · rw [hknown.1]
    exact hbounds.lower_lt
  · rw [hknown.1]
    exact hbounds.upper_lt
  · rw [hknown.1, hknown.2, hrange]
    exact hzero
  · rw [hknown.1, hknown.2, hrange]
    exact hone

end FactGuard
