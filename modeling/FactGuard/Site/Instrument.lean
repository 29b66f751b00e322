import FactGuard.Site.Splice

/-!
# Guarding functions and programs

A function is surveyed first and left as it is if the survey fails. Then it gets its trap block, and
a guard behind each instruction with a finding. A program is guarded function by function; a
function that fails ends this, and those before it stay guarded.

What is worked on is part of every result, since a failure can leave it changed.
-/

namespace FactGuard

/-- What became of something that was worked on, and of the session. -/
structure Attempt (σ α : Type) where
  subject : σ
  session : Session
  result : Except Failure α

namespace SiteKind

/-- What a site adds to the report. -/
def report : SiteKind → Report
  | conditional => { Report.zero with sites := 1 }
  | unconditional => { Report.zero with sites := 1, unconditionalSites := 1 }
  | skipped => { Report.zero with skipped := 1 }

/-- What a site records. -/
def events (finding : Finding) : SiteKind → List Event
  | skipped => []
  | _ => [.guarded finding.range finding.known finding.text]

end SiteKind

/-- What guarding a list of findings leads to, and the failure that ends it early. -/
structure Splicing where
  splicer : Splicer
  report : Report
  events : List Event
  failure? : Option Failure

/-- Guard the instructions of findings, one after another. -/
def Splicer.guardAll (settings : Settings) (s : Splicer) : List Finding → Splicing
  | [] => ⟨s, Report.zero, [], none⟩
  | finding :: rest =>
    match s.guard finding (settings.condition finding.range finding.known) with
    | .error failure => ⟨s, Report.zero, [], some failure⟩
    | .ok (next, kind) =>
      let later := next.guardAll settings rest
      { later with
        report := kind.report.add later.report
        events := kind.events finding ++ later.events }

/-- Guard a function by the findings of a survey. -/
def Session.splice (session : Session) (settings : Settings) (f : Function) (survey : Survey) :
    Attempt Function Report :=
  let done := (Splicer.start f).guardAll settings survey.findings
  let session := (session.count survey.stats).log (survey.events ++ done.events)
  match done.failure? with
  | some failure => ⟨done.splicer.function, session, .error failure⟩
  | none =>
    let report :=
      { Report.zero with functions := 1, facts := survey.findings.length }.add done.report
    ⟨done.splicer.function, session.log [.instrumented f.name report], .ok report⟩

/-- Guard a function against what a source claims of it. -/
def Session.instrument (session : Session) (settings : Settings) (source : FactSource)
    (f : Function) : Attempt Function Report :=
  if settings.skips f.name then ⟨f, session.log [.skipped f.name], .ok Report.zero⟩
  else
    match source f with
    | .error failure => ⟨f, session, .error failure⟩
    | .ok oracle =>
      let survey := f.survey oracle
      match survey.failure? with
      | some failure => ⟨f, session.log survey.events, .error failure⟩
      | none => session.splice settings f survey

/-- Guard functions, one after another. -/
def Session.instrumentAll (session : Session) (settings : Settings) (source : FactSource) :
    List Function → Attempt (List Function) Report
  | [] => ⟨[], session, .ok Report.zero⟩
  | f :: rest =>
    let first := session.instrument settings source f
    match first.result with
    | .error failure => ⟨first.subject :: rest, first.session, .error failure⟩
    | .ok report =>
      let later := first.session.instrumentAll settings source rest
      ⟨first.subject :: later.subject, later.session, later.result.map report.add⟩

/-- Guard every function of a program, and declare what trap blocks call. -/
def Session.instrumentProgram (session : Session) (settings : Settings) (source : FactSource)
    (p : Program) : Attempt Program Report :=
  let p := p.declareExtern trapExtern
  let done := session.instrumentAll settings source p.functions
  ⟨{ p with functions := done.subject }, done.session, done.result⟩

end FactGuard
