import FactGuard.Claim.Table
import FactGuard.Fact.Infer

/-!
# Oracles

An oracle answers for one function what is claimed of its values: the range of a value where control
reaches a block, and the masks of its known bits. Masks are given as claimed and may contradict each
other or have different widths. A fact source gives the oracle of each function.

Two sources are built here: what can be inferred from the function itself, and a table of claims
laid over another source. A table answers for a value as far as it claims something of it,
separately for its range and its masks, and leaves the rest to the source below. The claims of a
function are checked when its oracle is asked for, those of the lower source first.
-/

namespace FactGuard

/-- What is claimed of the values of one function. -/
structure Oracle where
  /-- The range of a value where control reaches a block. -/
  range : (value block : String) → ValueRange
  /-- The bits of a value that are zero, and those that are one. -/
  masks : (value : String) → BitMask × BitMask

/-- The oracle of each function. -/
abbrev FactSource := Function → Except Failure Oracle

namespace Oracle

/-- The oracle that answers with what was inferred. -/
def ofFacts (facts : FactMap) : Oracle where
  range value _ := (facts.lookup value).range
  masks value := ((facts.lookup value).known.zero, (facts.lookup value).known.one)

/-- The oracle that answers with claims, and as `below` where nothing is claimed. -/
def override (claims : Bindings ResolvedClaim) (below : Oracle) : Oracle where
  range value block := ((claims.get? value).bind (·.range)).getD (below.range value block)
  masks value := ((claims.get? value).bind (·.known)).getD (below.masks value)

end Oracle

/-- A claim at the width of the value in a function. -/
def Function.resolveClaim (f : Function) (value : String) (claim : Claim) :
    Except Failure ResolvedClaim :=
  match (f.valueType? value).bind Ty.intWidth? with
  | none => .error (.invalidFact f.name value .notInteger)
  | some width => (claim.resolve width).mapError (.invalidFact f.name value ·)

/-- The claims about values of a function, each at the width of its value. -/
def Function.resolveClaims (f : Function) :
    Bindings Claim → Except Failure (Bindings ResolvedClaim)
  | [] => .ok []
  | (value, claim) :: rest => do
    let resolved ← f.resolveClaim value claim
    return (value, resolved) :: (← f.resolveClaims rest)

namespace FactSource

/-- What can be inferred from the function itself. -/
def inferred : FactSource := fun f => .ok (Oracle.ofFacts f.facts)

/-- A table of claims over another source. -/
def override (table : FactTable) (below : FactSource) : FactSource := fun f => do
  let oracle ← below f
  let claims ← f.resolveClaims (table.claims f.name)
  return oracle.override claims

/-- Tables over each other and over what can be inferred, the first table on top. -/
def layered (tables : List FactTable) : FactSource := tables.foldr override inferred

end FactSource

end FactGuard
