import FactGuard.Proofs.Fact.Consistency
import FactGuard.Proofs.Site.Refusal

/-!
# What a report counts

The report on a guarded function counts its findings by the conditions that the settings ask for
(`Session.instrument_report`): those that get a guard, those among them whose guard always traps,
and those with nothing to check. What is inferred from a function never contradicts itself, so
guarding it against its own facts puts in no guard that always traps
(`FactSource.inferred_consistent`).
-/

namespace FactGuard

/-- What becomes of a finding with the condition. -/
def Condition.kind (condition : Condition) : SiteKind :=
  if condition.isVacuous then .skipped
  else match condition with
    | .always => .unconditional
    | .violated _ => .conditional

/-- A finding is skipped if there is nothing to check. -/
theorem Condition.kind_eq_skipped_iff {condition : Condition} :
    condition.kind = .skipped ↔ condition.isVacuous = true := by
  unfold kind
  cases condition with
  | always => simp [isVacuous]
  | violated guard => split_ifs with h <;> simp [h]

/-- The report on a function that is guarded by findings. -/
def Settings.report (settings : Settings) (findings : List Finding) : Report where
  functions := 1
  facts := findings.length
  sites := (settings.guards findings).length
  unconditionalSites := (settings.guards findings).countP fun call => call.2 = .always
  skipped := (settings.calls findings).countP fun call => call.2.isVacuous

variable {f : Function} {settings : Settings} {s s' : Splicer} {finding : Finding}
  {condition : Condition}

/-- What becomes of a finding depends on its condition only. -/
theorem Splicer.kind_eq_of_guard {kind : SiteKind}
    (h : s.guard finding condition = .ok (s', kind)) : kind = condition.kind := by
  unfold guard at h
  unfold Condition.kind
  split_ifs at h ⊢ with hvacuous
  · cases h
    rfl
  · cases hlocate : s.locate finding with
    | error failure =>
      rw [hlocate] at h
      cases h
    | ok place =>
      rw [hlocate] at h
      cases condition <;> cases h <;> rfl

/-- One finding more is counted by its condition. -/
theorem Settings.report_cons (settings : Settings) (finding : Finding) (rest : List Finding) :
    { settings.report (finding :: rest) with functions := 0, facts := 0 }
      = (settings.condition finding.range finding.known).kind.report.add
        { settings.report rest with functions := 0, facts := 0 } := by
  unfold report guards calls Condition.kind
  cases hcondition : settings.condition finding.range finding.known with
  | always =>
    simp [hcondition, Condition.isVacuous, SiteKind.report, Report.add, Report.zero, Nat.add_comm]
  | violated guard =>
    by_cases hvacuous : (Condition.violated guard).isVacuous
    · simp [hcondition, hvacuous, SiteKind.report, Report.add, Report.zero, Nat.add_comm]
    · simp [hcondition, hvacuous, SiteKind.report, Report.add, Report.zero, Nat.add_comm]

/-- If guarding all findings goes through, its report counts them by their conditions. -/
theorem Splicer.report_guardAll (settings : Settings) (s : Splicer) (findings : List Finding)
    (h : (s.guardAll settings findings).failure? = none) :
    (s.guardAll settings findings).report
      = { settings.report findings with functions := 0, facts := 0 } := by
  induction findings generalizing s with
  | nil => rfl
  | cons finding rest ih =>
    rw [Settings.report_cons]
    unfold guardAll at h ⊢
    cases hguard : s.guard finding (settings.condition finding.range finding.known) with
    | error failure =>
      rw [hguard] at h
      cases h
    | ok result =>
      rw [hguard] at h
      dsimp only at h ⊢
      rw [ih result.1 h, kind_eq_of_guard hguard]

/-- The report on a function that was guarded, or left alone because the settings skip it. -/
theorem Session.instrument_report {session : Session} {source : FactSource} {report : Report}
    (h : (session.instrument settings source f).result = .ok report) :
    (settings.skips f.name = true ∧ report = Report.zero) ∨
      (settings.skips f.name = false ∧ ∃ oracle, source f = .ok oracle ∧
        (f.survey oracle).failure? = none ∧
        report = settings.report (f.survey oracle).findings) := by
  rcases instrument_cases settings source f with ⟨hskip, heq⟩ |
    ⟨hskip, ⟨failure, -, heq⟩ | ⟨oracle, hsource, ⟨failure, -, heq⟩ | ⟨hsurvey, heq⟩⟩⟩
  · rw [heq] at h
    cases h
    exact .inl ⟨hskip, rfl⟩
  · rw [heq] at h
    cases h
  · rw [heq] at h
    cases h
  · rw [heq] at h
    unfold splice at h
    dsimp only at h
    cases hall : ((Splicer.start f).guardAll settings (f.survey oracle).findings).failure? with
    | some failure =>
      rw [hall] at h
      cases h
    | none =>
      rw [hall, Splicer.report_guardAll settings _ _ hall] at h
      refine .inr ⟨hskip, oracle, hsource, hsurvey, (Except.ok.inj h).symm.trans ?_⟩
      simp [Report.add, Report.zero, Settings.report]

/-! ## Guarding against inferred facts -/

/-- The answers about a value have one width and do not contradict themselves: masks have no bits
above the width and none in common, and the range and the masks share a word. -/
structure Oracle.Consistent (oracle : Oracle) (value block : String) (w : Nat) : Prop where
  isWidth : IsWidth w
  range_width : (oracle.range value block).width = w
  zero_width : (oracle.masks value).1.width = w
  one_width : (oracle.masks value).2.width = w
  zero_lt : (oracle.masks value).1.bits < 2 ^ w
  one_lt : (oracle.masks value).2.bits < 2 ^ w
  disjoint : (oracle.masks value).1.bits &&& (oracle.masks value).2.bits = 0
  not_isEmpty : (oracle.range value block).isEmpty = false
  exists_contains : ∃ v < 2 ^ w, (oracle.range value block).contains v = true ∧
    KnownBits.contains ⟨(oracle.masks value).1, (oracle.masks value).2⟩ v = true

/-- What is answered from inferred facts is consistent, at the width of the value. -/
theorem Oracle.consistent_ofFacts (f : Function) (value block : String) :
    ∃ w, (ofFacts f.facts).Consistent value block w ∧
      ∀ width, (f.latestType? value).bind Ty.intWidth? = some width → w = width := by
  obtain ⟨w, hw, hsat, hwidth⟩ := f.satisfiable_lookup value
  obtain ⟨v, -, hv⟩ := hsat.exists_describes
  have hzero := hsat.known.zero_lt
  have hone := hsat.known.one_lt
  have hcontains := hsat.exists_contains hw
  rw [hw.modulus_eq] at hzero hone hcontains
  exact ⟨w, ⟨hw, hsat.range.width_eq, hsat.known.zero_width, hsat.known.one_width, hzero, hone,
    hv.known.masks_disjoint, hsat.isEmpty, hcontains⟩, hwidth⟩

/-- What is inferred from a function, whatever its types, assignments and loops are, gives
consistent answers about every name: in particular no range is empty. So no instruction gets a guard
that always traps if the function is guarded against its own facts, and the report counts none. -/
theorem FactSource.inferred_consistent (f : Function) :
    ∃ oracle, inferred f = .ok oracle ∧
      (∀ value block, ∃ w, oracle.Consistent value block w) ∧
      ∀ settings : Settings,
        (∀ finding ∈ (f.survey oracle).findings,
          settings.condition finding.range finding.known ≠ .always) ∧
        ∀ (session : Session) report,
          (session.instrument settings inferred f).result = .ok report →
            report.unconditionalSites = 0 := by
  refine ⟨Oracle.ofFacts f.facts, rfl, fun value block => ?_, fun settings => ?_⟩
  · obtain ⟨w, hconsistent, -⟩ := Oracle.consistent_ofFacts f value block
    exact ⟨w, hconsistent⟩
  have hnever : ∀ finding ∈ (f.survey (Oracle.ofFacts f.facts)).findings,
      settings.condition finding.range finding.known ≠ .always := by
    intro finding hfinding halways
    -- The finding's range is what is answered about its value.
    obtain ⟨d, -, hfound⟩ := Function.exists_definition hfinding
    obtain ⟨-, ty, width, -, -, hanswer⟩ := Oracle.found_eq_some_iff.1 hfound
    obtain ⟨known, -, -, -, rfl⟩ := Oracle.finding_eq_ok_iff.1 hanswer
    obtain ⟨w, hconsistent, -⟩ := Oracle.consistent_ofFacts f d.value d.block
    have hempty := ((Settings.condition_eq_always_iff settings).1 halways).2
    rw [hconsistent.not_isEmpty] at hempty
    cases hempty
  refine ⟨hnever, fun session report h => ?_⟩
  rcases Session.instrument_report h with ⟨-, rfl⟩ | ⟨-, oracle, hsource, -, rfl⟩
  · rfl
  · cases hsource
    refine List.countP_eq_zero.2 fun call hcall => ?_
    obtain ⟨hfinding, hcondition, -⟩ := Settings.mem_guards.1 hcall
    rw [decide_eq_true_eq, hcondition]
    exact hnever call.1 hfinding

/-- The last decimal digit of an argument as a character, for instances of what is shown of all
functions: a remainder and a sum, about both of which something is inferred. -/
def digit : Function where
  name := "digit"
  params := [("n", .u8)]
  result := .u8
  locals := [("rest", .u8), ("char", .u8)]
  blocks := [⟨"entry", [
    .binary "rest" .mod (.place "n") (.constant (.int 10)),
    .binary "char" .add (.place "rest") (.constant (.int 48))], .ret (some (.place "char"))⟩]

/-- The digit gets two guards, and none of them always traps. -/
theorem FactSource.inferred_consistent_digit :
    ∃ report, (Session.start.instrument Settings.default inferred digit).result = .ok report ∧
      report.sites = 2 ∧ report.unconditionalSites = 0 := by
  obtain ⟨_, -, -, hsettings⟩ := inferred_consistent digit
  exact ⟨_, rfl, rfl, (hsettings Settings.default).2 Session.start _ rfl⟩

end FactGuard
