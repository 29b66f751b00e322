import FactGuard.Site.Event
import FactGuard.Oracle
import FactGuard.Program.Text

/-!
# Surveys

A survey asks an oracle about every integer value that an instruction of a function defines, phis
apart, in the order of the program. It checks that the answers have the width of the value and do
not contradict themselves, and stops at the first that does. What the answers say is a finding;
answers that say nothing are counted and dropped.
-/

namespace FactGuard

/-- An instruction that defines a value, with its place in a function. -/
structure Definition where
  block : String
  index : Nat
  instr : Instr
  value : String

/-- The definitions of a block, phis apart. -/
def Block.definitions (block : Block) : List Definition :=
  block.instrs.zipIdx.filterMap fun entry =>
    if entry.1.isPhi then none
    else entry.1.dest?.map fun value => ⟨block.label, entry.2, entry.1, value⟩

/-- The definitions of a function, phis apart, in the order of the program. -/
def Function.definitions (f : Function) : List Definition := f.blocks.flatMap Block.definitions

/-- What is claimed of the value that an instruction defines. -/
structure Finding where
  value : String
  block : String
  /-- The index of the instruction in its block before any guard is put in. -/
  index : Nat
  ty : Ty
  range : ValueRange
  known : KnownBits
  /-- The listing of the instruction. -/
  text : String
deriving DecidableEq, Repr

namespace Finding

/-- The place of the instruction. -/
def location (finding : Finding) : String :=
  finding.block ++ "[" ++ toString finding.index ++ "]"

/-- The width of the value. -/
def width (finding : Finding) : Nat := finding.range.width

/-- Nothing is claimed. -/
def isTrivial (finding : Finding) : Bool := finding.range.isFull && finding.known.isUnknown

/-- What the finding adds to the counters. -/
def stats (finding : Finding) (width : Nat) : Stats :=
  ⟨width, finding.known.knownCount, finding.range.informationBits⟩

end Finding

/-- The failure of an answer with masks that make no known bits. -/
def MaskError.failure (value : String) : MaskError → Failure
  | widthMismatch zeroWidth oneWidth => .knownBitsWidthMismatch value zeroWidth oneWidth
  | conflict overlap => .conflictingKnownBits value overlap

/-- The oracle's answer about a definition of type `ty` and width `width`. -/
def Oracle.finding (oracle : Oracle) (d : Definition) (ty : Ty) (width : Nat) :
    Except Failure Finding := do
  let range := oracle.range d.value d.block
  if range.width ≠ width then
    throw (.rangeWidthMismatch d.value range.width width)
  let masks := oracle.masks d.value
  let known ← (KnownBits.ofMasks masks.1 masks.2).mapError (MaskError.failure d.value)
  if known.width ≠ width then
    throw (.knownBitsWidthMismatch d.value known.width width)
  return ⟨d.value, d.block, d.index, ty, range, known, d.instr.text⟩

/-- What a survey finds, counts and records, and the failure that ends it early. -/
structure Survey where
  findings : List Finding
  stats : Stats
  events : List Event
  failure? : Option Failure

namespace Survey

/-- Nothing to survey. -/
def nothing : Survey := ⟨[], Stats.zero, [], none⟩

/-- Survey definitions of a function, one after another. -/
def ofDefinitions (f : Function) (oracle : Oracle) : List Definition → Survey
  | [] => nothing
  | d :: rest =>
    match f.valueType? d.value with
    | none =>
      let later := ofDefinitions f oracle rest
      { later with events := .untypedResult f.name d.value :: later.events }
    | some ty =>
      match ty.intWidth? with
      | none => ofDefinitions f oracle rest
      | some width =>
        match oracle.finding d ty width with
        | .error failure => { nothing with failure? := some failure }
        | .ok finding =>
          let later := ofDefinitions f oracle rest
          { later with
            findings := if finding.isTrivial then later.findings else finding :: later.findings
            stats := (finding.stats width).add later.stats }

end Survey

/-- Survey a function. -/
def Function.survey (f : Function) (oracle : Oracle) : Survey :=
  Survey.ofDefinitions f oracle f.definitions

end FactGuard
