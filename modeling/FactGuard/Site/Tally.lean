import FactGuard.Word

/-!
# Tallies

Two kinds of counts. `Stats` adds up, over all values that were inspected, how many bits they have
and how many of these their oracle knew; its counters are words and wrap. `Report` counts what was
done to functions.
-/

namespace FactGuard

/-- How many bits were inspected, and how many of them were known. -/
structure Stats where
  totalBits : Nat
  knownBits : Nat
  intervalBits : Nat
deriving DecidableEq, Repr

namespace Stats

/-- Nothing inspected. -/
def zero : Stats := ⟨0, 0, 0⟩

/-- Add counts to the counters. -/
def add (a b : Stats) : Stats :=
  ⟨truncate 64 (a.totalBits + b.totalBits), truncate 64 (a.knownBits + b.knownBits),
    truncate 64 (a.intervalBits + b.intervalBits)⟩

/-- The counters as text, one on a line. -/
def text (stats : Stats) : String :=
  toString stats.totalBits ++ " TotalBits - Total bits of integer values inspected\n"
    ++ toString stats.knownBits ++ " KnownBits - Bits fixed by known-bits facts\n"
    ++ toString stats.intervalBits ++ " IntervalBits - Bits of information in range facts\n"

end Stats

/-- What was done to functions. -/
structure Report where
  /-- Functions that were guarded. -/
  functions : Nat
  /-- Facts that say something. -/
  facts : Nat
  /-- Guards that were put in. -/
  sites : Nat
  /-- Guards among them that always trap. -/
  unconditionalSites : Nat
  /-- Facts whose guard would check nothing. -/
  skipped : Nat
deriving DecidableEq, Repr

namespace Report

/-- Nothing done. -/
def zero : Report := ⟨0, 0, 0, 0, 0⟩

/-- What was done in two turns. -/
def add (a b : Report) : Report :=
  ⟨a.functions + b.functions, a.facts + b.facts, a.sites + b.sites,
    a.unconditionalSites + b.unconditionalSites, a.skipped + b.skipped⟩

end Report

end FactGuard
