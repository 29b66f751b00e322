import FactGuard.Pass.Pipeline
import FactGuard.Proofs.Site.Report

/-!
# The standard pipeline against a direct run

A program can be guarded by the standard pipeline, or without any pipeline by
`Session.instrumentProgram`. The two have loops of their own and count differently: the pipeline
keeps totals of its pass and a summary by the names of passes, the direct run adds up reports. They
agree all the same on the program, on the counters and on the events, and one fails just as the
other does (`Pipeline.standard_agrees`).

The proof relates the sessions of both loops, which differ in the totals of the pass only
(`Session.Matches`). One function keeps this relation (`Pipeline.runFunction_matches`), and so do
all functions of a program (`Pipeline.runFunctions_matches`). The summary follows the reports, by
`Summary.countReport`.
-/

namespace FactGuard

/-- The sessions are the same up to the totals of the range-check pass. -/
structure Session.Matches (s t : Session) : Prop where
  stats_eq : s.stats = t.stats
  events_eq : s.events = t.events

/-- The first attempt does to its subject and its session what the second does, and its result is
the one of the second as `tell` puts it. -/
structure Attempt.Matches {σ α β : Type} (tell : α → β) (a : Attempt σ β) (b : Attempt σ α) :
    Prop where
  subject_eq : a.subject = b.subject
  session_matches : a.session.Matches b.session
  result_eq : a.result = b.result.map tell

/-! ## What is counted -/

/-- The table keeps the last value that is bound to a name. -/
theorem Bindings.insert_insert {α : Type} (name : String) (old new : α) (table : Bindings α) :
    (table.insert name old).insert name new = table.insert name new := by
  induction table with
  | nil => simp [insert]
  | cons entry rest ih =>
    obtain ⟨key, value⟩ := entry
    by_cases hkey : key = name
    · simp [insert, hkey]
    · simp [insert, hkey, ih]

/-- What a pipeline with no pass but the range-check pass says where a direct run reports: the pass
has a count only if it changed a function. -/
def Report.summary (functions : Nat) (report : Report) : Summary where
  functions := functions
  changed := if report.functions = 0 then [] else [(Pass.rangeCheckName, report.functions)]

namespace Summary

/-- Count functions on which the range-check pass reports. -/
def countReport (summary : Summary) (functions : Nat) (report : Report) : Summary where
  functions := summary.functions + functions
  changed :=
    if report.functions = 0 then summary.changed
    else summary.changed.insert Pass.rangeCheckName
      ((summary.changed.get? Pass.rangeCheckName).getD 0 + report.functions)

/-- Counting two reports, one after the other, is counting their sum. -/
theorem countReport_countReport (summary : Summary) (m n : Nat) (first later : Report) :
    (summary.countReport m first).countReport n later
      = summary.countReport (m + n) (first.add later) := by
  unfold countReport Report.add
  by_cases hfirst : first.functions = 0
  · simp [hfirst, Nat.add_assoc]
  · by_cases hlater : later.functions = 0
    · simp [hfirst, hlater, Nat.add_assoc]
    · simp [hfirst, hlater, Nat.add_assoc, Bindings.insert_insert, Bindings.get?_insert]

/-- Counted from nothing on, a report gives its own summary. -/
theorem countReport_zero (functions : Nat) (report : Report) :
    zero.countReport functions report = report.summary functions := by
  simp [zero, countReport, Report.summary, Bindings.insert]

end Summary

/-! ## One function -/

namespace Session.Matches

variable {s t : Session}

/-- Recording the same events keeps sessions alike. -/
theorem log (h : s.Matches t) (events : List Event) : (s.log events).Matches (t.log events) :=
  ⟨h.stats_eq, congrArg (· ++ events) h.events_eq⟩

/-- Counting the same bits keeps sessions alike. -/
theorem count (h : s.Matches t) (stats : Stats) : (s.count stats).Matches (t.count stats) :=
  ⟨congrArg (·.add stats) h.stats_eq, h.events_eq⟩

/-- Adding to the totals of the pass keeps sessions alike. -/
theorem addReport (h : s.Matches t) (report : Report) : (s.addReport report).Matches t :=
  ⟨h.stats_eq, h.events_eq⟩

/-- Guarding a function by a survey depends on nothing in which the sessions differ. -/
theorem splice (h : s.Matches t) (settings : Settings) (f : Function) (survey : Survey) :
    Attempt.Matches id (s.splice settings f survey) (t.splice settings f survey) := by
  unfold Session.splice
  dsimp only
  cases ((Splicer.start f).guardAll settings survey.findings).failure? with
  | some failure => exact ⟨rfl, (h.count _).log _, rfl⟩
  | none => exact ⟨rfl, ((h.count _).log _).log _, rfl⟩

/-- Guarding a function depends on nothing in which the sessions differ. -/
theorem instrument (h : s.Matches t) (settings : Settings) (source : FactSource) (f : Function) :
    Attempt.Matches id (s.instrument settings source f) (t.instrument settings source f) := by
  rcases Session.instrument_cases settings source f with ⟨-, heq⟩ |
    ⟨-, ⟨failure, -, heq⟩ | ⟨oracle, -, ⟨failure, -, heq⟩ | ⟨-, heq⟩⟩⟩
  · rw [heq, heq]
    exact ⟨rfl, h.log _, rfl⟩
  · rw [heq, heq]
    exact ⟨rfl, h, rfl⟩
  · rw [heq, heq]
    exact ⟨rfl, h.log _, rfl⟩
  · rw [heq, heq]
    exact h.splice settings f (f.survey oracle)

end Session.Matches

/-- A report on one function counts it once if it is guarded, and not at all if it is skipped. -/
theorem Session.functions_of_instrument {session : Session} {settings : Settings}
    {source : FactSource} {f : Function} {report : Report}
    (h : (session.instrument settings source f).result = .ok report) :
    report.functions = 0 ∨ report.functions = 1 := by
  rcases instrument_report h with ⟨-, rfl⟩ | ⟨-, oracle, -, -, rfl⟩
  · exact .inl rfl
  · exact .inr rfl

/-! ## A program -/

/-- Declaring an external function leaves the functions as they are. -/
theorem Program.functions_declareExtern (p : Program) (decl : Extern) :
    (p.declareExtern decl).functions = p.functions := by
  unfold declareExtern
  split_ifs <;> rfl

namespace Pipeline

variable {s t : Session}

/-- The standard pipeline has one pass. -/
theorem standard_eq (settings : Settings) : standard settings = [Pass.rangeCheck settings] := rfl

/-- A function that goes through the range-check pass is guarded. -/
theorem runFunction_matches (h : s.Matches t) (settings : Settings) (source : FactSource)
    (summary : Summary) (f : Function) :
    Attempt.Matches (summary.countReport 1)
      (runFunction (.ofSource source) f s summary [Pass.rangeCheck settings])
      (t.instrument settings source f) := by
  obtain ⟨hsubject, hsession, hresult⟩ := h.instrument settings source f
  rw [Except.map_id, id] at hresult
  simp only [runFunction, Pass.rangeCheck, Pass.runRangeCheck, Analyses.ofSource, hresult]
  cases hreport : (t.instrument settings source f).result with
  | error failure =>
    refine ⟨hsubject, hsession, ?_⟩
    rw [hreport]
    rfl
  | ok report =>
    refine ⟨hsubject, hsession.addReport report, ?_⟩
    rw [hreport]
    -- The pass says that it changed the function just if the report counts it.
    rcases Session.functions_of_instrument hreport with hzero | hone
    · simp [Except.map, Summary.countReport, Summary.countFunction, hzero]
    · simp [Except.map, Summary.countReport, Summary.countFunction, Summary.countPass, hone]

/-- Functions that go through the range-check pass are guarded, up to the first that fails. -/
theorem runFunctions_matches (h : s.Matches t) (settings : Settings) (source : FactSource)
    (summary : Summary) (functions : List Function) :
    Attempt.Matches (summary.countReport functions.length)
      (runFunctions [Pass.rangeCheck settings] (.ofSource source) s summary functions)
      (t.instrumentAll settings source functions) := by
  induction functions generalizing s t summary with
  | nil => exact ⟨rfl, h, rfl⟩
  | cons f rest ih =>
    obtain ⟨hsubject, hsession, hresult⟩ := runFunction_matches h settings source summary f
    unfold runFunctions Session.instrumentAll
    dsimp only
    cases hfirst : (t.instrument settings source f).result with
    | error failure =>
      rw [hfirst] at hresult
      rw [hresult]
      exact ⟨congrArg (· :: rest) hsubject, hsession, rfl⟩
    | ok report =>
      rw [hfirst] at hresult
      rw [hresult]
      -- The rest starts with the summary that the report of this function leads to.
      obtain ⟨hsubjects, hsessions, hresults⟩ := ih hsession (summary.countReport 1 report)
      refine ⟨congrArg₂ List.cons hsubject hsubjects, hsessions, hresults.trans ?_⟩
      dsimp only
      rw [List.length_cons, Nat.add_comm rest.length]
      cases ((t.instrument settings source f).session.instrumentAll settings source rest).result with
      | error failure => rfl
      | ok later => exact congrArg Except.ok (summary.countReport_countReport ..)

/-- A program that goes through the standard pipeline is guarded. -/
theorem run_standard_matches (settings : Settings) (source : FactSource) (p : Program)
    (session : Session) :
    Attempt.Matches (Report.summary p.functions.length)
      ((standard settings).run (.ofSource source) p session)
      (session.instrumentProgram settings source p) := by
  have hsummary : Summary.zero.countReport (p.declareExtern trapExtern).functions.length
      = Report.summary p.functions.length := by
    rw [Program.functions_declareExtern]
    exact funext (Summary.countReport_zero p.functions.length)
  obtain ⟨hsubject, hsession, hresult⟩ :=
    runFunctions_matches ⟨rfl, rfl⟩ settings source Summary.zero
      (p.declareExtern trapExtern).functions
  rw [standard_eq]
  refine ⟨congrArg ({ p.declareExtern trapExtern with functions := · }) hsubject, hsession,
    hresult.trans ?_⟩
  rw [hsummary]
  rfl

/-- The standard pipeline, given a source of facts, guards a program as a direct run does, from any
counters and totals on. It leaves the same program behind, also where it fails, the same counters
and the same events, and it fails with the same failure or counts what the direct run reports. Not
given a source, it fails at once and changes nothing. -/
theorem standard_agrees (settings : Settings) (source : FactSource) (p : Program)
    (session : Session) :
    let piped := (standard settings).run (.ofSource source) p session
    let direct := session.instrumentProgram settings source p
    piped.subject = direct.subject ∧
      piped.session.stats = direct.session.stats ∧
      piped.session.events = direct.session.events ∧
      piped.result = direct.result.map (Report.summary p.functions.length) ∧
      (standard settings).run .none p session
        = ⟨p, session, .error (.missingAnalysis Pass.rangeCheckName Analysis.valueRanges.name)⟩ := by
  obtain ⟨hsubject, hsession, hresult⟩ := run_standard_matches settings source p session
  exact ⟨hsubject, hsession.stats_eq, hsession.events_eq, hresult, rfl⟩

end Pipeline

end FactGuard
