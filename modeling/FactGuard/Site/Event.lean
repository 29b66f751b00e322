import FactGuard.Site.Tally
import FactGuard.ValueRange.Basic

/-!
# Events

What happens while programs are guarded, in order, and the state that a run of the library carries
along: the counts so far and the events so far.
-/

namespace FactGuard

/-- Something that happens while programs are guarded. -/
inductive Event where
  /-- The settings leave a function as it is. -/
  | skipped (function : String)
  /-- A guard is put in after an instruction. -/
  | guarded (range : ValueRange) (known : KnownBits) (text : String)
  /-- A function has its guards. -/
  | instrumented (function : String) (report : Report)
  /-- An instruction defines a value without a declared type. -/
  | untypedResult (function value : String)
  /-- A remark of a pass. -/
  | note (text : String)
deriving DecidableEq, Repr

/-- The event as a line of a log. -/
def Event.text : Event → String
  | skipped function => "DEBUG skipped by configuration function=" ++ function
  | guarded range known text =>
    "DEBUG instrumenting " ++ range.text ++ " " ++ known.text ++ " at: " ++ text
  | instrumented function report =>
    "INFO instrumented function=" ++ function ++ " facts=" ++ toString report.facts
      ++ " sites=" ++ toString report.sites
      ++ " unconditional=" ++ toString report.unconditionalSites
  | untypedResult function value =>
    "WARN result has no declared type function=" ++ function ++ " value=" ++ value
  | note text => text

/-- What is counted and recorded over a run of the library. -/
structure Session where
  stats : Stats
  /-- What the range-check pass did to all functions that it ran on. -/
  total : Report
  events : List Event

namespace Session

/-- Nothing counted or recorded. -/
def start : Session := ⟨Stats.zero, Report.zero, []⟩

/-- Record events. -/
def log (session : Session) (events : List Event) : Session :=
  { session with events := session.events ++ events }

/-- Count the bits of inspected values. -/
def count (session : Session) (stats : Stats) : Session :=
  { session with stats := session.stats.add stats }

end Session

end FactGuard
