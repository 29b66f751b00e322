import Mathlib.Data.List.Basic
import FactGuard.Proofs.Program.Lookup
import FactGuard.Site.Survey

/-!
# What a survey finds

The findings of a survey are what the oracle says of the definitions of the function, one after
another (`Survey.findings_eq`). So each finding names the place of a definition and its declared
type (`Oracle.found_eq_some_iff`), and findings of one block come in the order of their instructions
(`Function.pairwise_findings`).
-/

namespace FactGuard

/-! ## Definitions -/

/-- A definition of a block is an instruction there, no phi, that defines its value. -/
theorem Block.mem_definitions {block : Block} {d : Definition} :
    d ∈ block.definitions ↔ d.block = block.label ∧ block.instrs[d.index]? = some d.instr ∧
      d.instr.isPhi = false ∧ d.instr.dest? = some d.value := by
  unfold Block.definitions
  rw [List.mem_filterMap]
  constructor
  · rintro ⟨⟨instr, index⟩, hentry, hd⟩
    dsimp only at hd
    split_ifs at hd with hphi
    obtain ⟨value, hvalue, rfl⟩ := Option.map_eq_some_iff.1 hd
    exact ⟨rfl, List.mem_zipIdx_iff_getElem?.1 hentry, by simpa using hphi, hvalue⟩
  · rintro ⟨hblock, hinstr, hphi, hvalue⟩
    refine ⟨(d.instr, d.index), List.mem_zipIdx_iff_getElem?.2 hinstr, ?_⟩
    simp [hphi, hvalue, ← hblock]

/-- The definitions of a block come in the order of their instructions. -/
theorem Block.pairwise_definitions (block : Block) :
    block.definitions.Pairwise fun a b => a.index < b.index := by
  have hlt : block.instrs.zipIdx.Pairwise fun a b => a.2 < b.2 := by
    rw [← List.pairwise_map (f := Prod.snd) (R := (· < ·)), List.zipIdx_map_snd]
    exact List.pairwise_lt_range'
  refine hlt.filterMap _ fun a b hab d hd d' hd' => ?_
  split_ifs at hd hd'
  obtain ⟨_, _, rfl⟩ := Option.map_eq_some_iff.1 hd
  obtain ⟨_, _, rfl⟩ := Option.map_eq_some_iff.1 hd'
  exact hab

namespace Function

theorem mem_definitions {f : Function} {d : Definition} :
    d ∈ f.definitions ↔ ∃ block ∈ f.blocks, d ∈ block.definitions := List.mem_flatMap

/-- The block of a definition is one of the function. -/
theorem mem_labels_of_mem_definitions {f : Function} {d : Definition} (hd : d ∈ f.definitions) :
    d.block ∈ f.labels := by
  obtain ⟨block, hblock, hdef⟩ := mem_definitions.1 hd
  exact mem_labels.2 ⟨block, hblock, (Block.mem_definitions.1 hdef).1.symm⟩

/-- Definitions of one block come in the order of their instructions. -/
theorem pairwise_definitions {f : Function} (hf : f.labels.Nodup) :
    f.definitions.Pairwise fun a b => a.block = b.block → a.index < b.index := by
  unfold definitions
  rw [List.pairwise_flatMap]
  refine ⟨fun block _ => block.pairwise_definitions.imp (S := _) ?_, ?_⟩
  · exact fun hlt _ => hlt
  refine (List.pairwise_map.1 hf).imp fun hne d hd d' hd' heq => ?_
  rw [Block.mem_definitions] at hd hd'
  exact absurd (hd.1.symm.trans (heq.trans hd'.1)) hne

end Function

/-! ## Findings -/

/-- Masks make known bits if they have one width and no common bit. -/
theorem KnownBits.ofMasks_eq_ok_iff {zero one : BitMask} {known : KnownBits} :
    ofMasks zero one = .ok known ↔
      zero.width = one.width ∧ zero.bits &&& one.bits = 0 ∧ known = ⟨zero, one⟩ := by
  unfold ofMasks
  split_ifs with hwidth hbits
  · simp [hwidth]
  · simp [hbits]
  · simp_all [eq_comm]

namespace Oracle

/-- What is found at a definition: the oracle's answer about a value of integer type, unless it says
nothing. -/
def found (oracle : Oracle) (f : Function) (d : Definition) : Option Finding :=
  match f.valueType? d.value with
  | none => none
  | some ty =>
    match ty.intWidth? with
    | none => none
    | some width =>
      match oracle.finding d ty width with
      | .error _ => none
      | .ok finding => if finding.isTrivial then none else some finding

/-- An answer has the place of its definition and the width of its type. -/
theorem finding_eq_ok_iff {oracle : Oracle} {d : Definition} {ty : Ty} {width : Nat}
    {finding : Finding} : oracle.finding d ty width = .ok finding ↔
      ∃ known, KnownBits.ofMasks (oracle.masks d.value).1 (oracle.masks d.value).2 = .ok known ∧
        (oracle.range d.value d.block).width = width ∧ known.width = width ∧
        finding = ⟨d.value, d.block, d.index, ty, oracle.range d.value d.block, known,
          d.instr.text⟩ := by
  unfold Oracle.finding
  by_cases hrange : (oracle.range d.value d.block).width = width
  · cases hmasks : KnownBits.ofMasks (oracle.masks d.value).1 (oracle.masks d.value).2 with
    | error e => simp [hrange, hmasks, Except.mapError, bind, Except.bind]
    | ok known =>
      by_cases hknown : known.width = width
      · simp [hrange, hmasks, hknown, Except.mapError, bind, Except.bind, pure, Except.pure,
          eq_comm]
      · simp [hrange, hmasks, hknown, Except.mapError, bind, Except.bind]
  · simp [hrange, bind, Except.bind]

/-- Nothing is found about a value without integer type. -/
theorem found_eq_none {oracle : Oracle} {f : Function} {d : Definition}
    (h : (f.valueType? d.value).bind Ty.intWidth? = none) : oracle.found f d = none := by
  unfold found
  cases hty : f.valueType? d.value with
  | none => rfl
  | some ty =>
    rw [hty, Option.bind_some] at h
    simp only [h]

/-- Of a value of integer type the answer is found, unless it says nothing. -/
theorem found_of_finding {oracle : Oracle} {f : Function} {d : Definition} {ty : Ty} {width : Nat}
    {finding : Finding} (hty : f.valueType? d.value = some ty) (hwidth : ty.intWidth? = some width)
    (h : oracle.finding d ty width = .ok finding) :
    oracle.found f d = if finding.isTrivial then none else some finding := by
  unfold found
  simp only [hty, hwidth, h]

/-- What is found at a definition is the oracle's answer about its value, which has integer type. -/
theorem found_eq_some_iff {oracle : Oracle} {f : Function} {d : Definition} {finding : Finding} :
    oracle.found f d = some finding ↔ finding.isTrivial = false ∧
      ∃ ty width, f.valueType? d.value = some ty ∧ ty.intWidth? = some width ∧
        oracle.finding d ty width = .ok finding := by
  unfold found
  cases hty : f.valueType? d.value with
  | none => simp
  | some ty =>
    cases hwidth : ty.intWidth? with
    | none => simp [hwidth]
    | some width =>
      cases hfinding : oracle.finding d ty width with
      | error failure => simp [hwidth, hfinding]
      | ok answer =>
        by_cases htrivial : answer.isTrivial
        · simp [hwidth, hfinding, htrivial]
          rintro h rfl
          rw [htrivial] at h
          cases h
        · simp [hwidth, hfinding, htrivial]
          rintro rfl
          simpa using htrivial

end Oracle

namespace Survey

variable (f : Function) (oracle : Oracle)

/-- What a survey does at a definition: it passes over a value without integer type, it fails as the
oracle does, or it counts the answer and keeps it unless it says nothing. -/
theorem cons_cases (d : Definition) (rest : List Definition) :
    ((f.valueType? d.value).bind Ty.intWidth? = none ∧ ∃ events,
      ofDefinitions f oracle (d :: rest)
        = { ofDefinitions f oracle rest with events := events }) ∨
    ∃ ty width, f.valueType? d.value = some ty ∧ ty.intWidth? = some width ∧
      ((∃ failure, oracle.finding d ty width = .error failure ∧
          ofDefinitions f oracle (d :: rest) = { nothing with failure? := some failure }) ∨
        ∃ finding, oracle.finding d ty width = .ok finding ∧
          ofDefinitions f oracle (d :: rest) = { ofDefinitions f oracle rest with
            findings := if finding.isTrivial then (ofDefinitions f oracle rest).findings
              else finding :: (ofDefinitions f oracle rest).findings
            stats := (finding.stats width).add (ofDefinitions f oracle rest).stats }) := by
  rw [ofDefinitions]
  cases hty : f.valueType? d.value with
  | none => exact .inl ⟨rfl, _, rfl⟩
  | some ty =>
    dsimp only
    cases hwidth : ty.intWidth? with
    | none => exact .inl ⟨hwidth, _, rfl⟩
    | some width =>
      refine .inr ⟨ty, width, rfl, hwidth, ?_⟩
      dsimp only
      cases hfinding : oracle.finding d ty width with
      | error failure => exact .inl ⟨failure, rfl, rfl⟩
      | ok finding => exact .inr ⟨finding, rfl, rfl⟩

/-- A survey finds what there is to be found at the definitions in front of its failure, and at all
of them if it does not fail. -/
theorem findings_eq (definitions : List Definition) :
    ∃ seen, seen <+: definitions ∧
      (ofDefinitions f oracle definitions).findings = seen.filterMap (oracle.found f) ∧
      ((ofDefinitions f oracle definitions).failure? = none → seen = definitions) := by
  induction definitions with
  | nil => exact ⟨[], List.prefix_rfl, rfl, fun _ => rfl⟩
  | cons d rest ih =>
    obtain ⟨seen, hprefix, hfindings, hall⟩ := ih
    have hseen : d :: seen <+: d :: rest := List.cons_prefix_cons.2 ⟨rfl, hprefix⟩
    rcases cons_cases f oracle d rest with ⟨hnone, events, heq⟩ |
      ⟨ty, width, hty, hwidth, ⟨failure, -, heq⟩ | ⟨finding, hfinding, heq⟩⟩
    · refine ⟨d :: seen, hseen, ?_, fun h => ?_⟩
      · rw [heq, List.filterMap_cons_none (Oracle.found_eq_none hnone), ← hfindings]
      · rw [heq] at h
        rw [hall h]
    · -- Here it stops, and has seen nothing from this definition on.
      rw [heq]
      exact ⟨[], List.nil_prefix, rfl, fun h => nomatch h⟩
    · refine ⟨d :: seen, hseen, ?_, fun h => ?_⟩
      · rw [heq, List.filterMap_cons, Oracle.found_of_finding hty hwidth hfinding, ← hfindings]
        dsimp only
        split_ifs
        · rfl
        · rfl
      · rw [heq] at h
        rw [hall h]

end Survey

/-- A finding names the place of a definition and the declared type of its value, and has the width
of that type. -/
structure Finding.Describes (finding : Finding) (f : Function) (d : Definition) : Prop where
  block_eq : finding.block = d.block
  index_eq : finding.index = d.index
  value_eq : finding.value = d.value
  valueType?_eq : f.valueType? finding.value = some finding.ty
  intWidth?_eq : finding.ty.intWidth? = some finding.range.width
  known_width : finding.known.width = finding.range.width

/-- What is found at a definition describes it. -/
theorem Oracle.describes_of_found {oracle : Oracle} {f : Function} {d : Definition}
    {finding : Finding} (h : oracle.found f d = some finding) : finding.Describes f d := by
  obtain ⟨-, ty, width, hty, hwidth, h⟩ := found_eq_some_iff.1 h
  obtain ⟨known, -, hrange, hknown, rfl⟩ := finding_eq_ok_iff.1 h
  exact ⟨rfl, rfl, rfl, hty, by rw [hrange]; exact hwidth, hknown.trans hrange.symm⟩

/-- Findings of one block come in the order of their instructions. -/
theorem Function.pairwise_findings {f : Function} (hf : f.labels.Nodup) (oracle : Oracle) :
    (f.survey oracle).findings.Pairwise fun a b => a.block = b.block → a.index < b.index := by
  obtain ⟨seen, hprefix, hfindings, -⟩ := Survey.findings_eq f oracle f.definitions
  unfold Function.survey
  rw [hfindings]
  refine ((pairwise_definitions hf).sublist hprefix.sublist).filterMap _ ?_
  intro a b hab found hfound found' hfound'
  have h := Oracle.describes_of_found hfound
  have h' := Oracle.describes_of_found hfound'
  rw [h.block_eq, h'.block_eq, h.index_eq, h'.index_eq]
  exact hab

/-- A finding is found at a definition. -/
theorem Function.exists_definition {f : Function} {oracle : Oracle} {finding : Finding}
    (h : finding ∈ (f.survey oracle).findings) :
    ∃ d ∈ f.definitions, oracle.found f d = some finding := by
  obtain ⟨seen, hprefix, hfindings, -⟩ := Survey.findings_eq f oracle f.definitions
  unfold Function.survey at h
  rw [hfindings] at h
  obtain ⟨d, hd, hfound⟩ := List.mem_filterMap.1 h
  exact ⟨d, hprefix.subset hd, hfound⟩

/-- A claim about the countdown, for instances of what is shown of all oracles: it counts no further
down than to zero, so the counter stays below the greatest pattern. It does not hold if the
countdown starts at zero. -/
def countdownOracle : Oracle where
  range value _ := if value = "d" then ⟨8, 0, 255⟩ else .full (if value = "more" then 1 else 8)
  masks value := if value = "more" then (.zeros 1, .zeros 1) else (.zeros 8, .zeros 8)

end FactGuard
