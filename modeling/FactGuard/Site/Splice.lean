import FactGuard.Site.Survey
import FactGuard.Guard.Lower

/-!
# Putting guards into a function

A guarded instruction ends its block. The rest of the block moves into a continuation block at the
end of the function, and the block now branches to the function's trap block or to its continuation.

Findings name instructions by their place before any block was split. So each block that was split
has a `Cursor`: the label of the block that holds its rest now, and the index that the first
instruction there had at first. Findings of one block have to come in order.

Guarding fails before it changes anything.
-/

namespace FactGuard

/-- The outside function that a trap block calls. -/
def trapCallee : String := "__rangeguard_trap"

/-- The label of a trap block, if it is not in use. -/
def trapLabel : String := "trap"

/-- The declaration of the outside function that a trap block calls. -/
def trapExtern : Extern where
  moduleName := "intrinsics"
  name := trapCallee
  params := []
  result := .unit
  noReturn := true
  noUnwind := true

/-- The block that guards lead to. -/
def trapBlock (label : String) : Block := ⟨label, [.call none trapCallee [] false], .unreachable⟩

/-- The label `base` itself for `0`, and `base` with a number otherwise. -/
def numberedLabel (base : String) (number : Nat) : String :=
  if number = 0 then base else base ++ "." ++ toString number

/-- The first numbered label from `number` on that is not in use. As many are tried as labels are in
use, which is enough. -/
def unusedLabel (labels : List String) (base : String) (number : Nat) : Nat → String
  | 0 => numberedLabel base number
  | tries + 1 =>
    let candidate := numberedLabel base number
    if labels.contains candidate then unusedLabel labels base (number + 1) tries else candidate

/-- A label that no block has: `base`, or `base` with the least number that makes it free. -/
def Function.freshLabel (f : Function) (base : String) : String :=
  unusedLabel f.labels base 0 f.labels.length

/-- Let a phi take from the block `new` what it took from the block `old`. -/
def Instr.redirect (old new : String) : Instr → Instr
  | .phi dest values => .phi dest (values.map fun v => (v.1, if v.2 = old then new else v.2))
  | instr => instr

/-- Let the phis at the start of a block take from `new` what they took from `old`. -/
def Block.redirect (old new : String) (block : Block) : Block :=
  { block with instrs := block.phis.map (Instr.redirect old new) ++ block.body }

namespace Function

/-- Let the phis of the block `target` take from `new` what they took from `old`. -/
def redirect (old new : String) (f : Function) (target : String) : Function :=
  match f.position? target with
  | none => f
  | some index => { f with blocks := f.blocks.modify index (Block.redirect old new) }

/-- Split the block at index `host` behind its first `count` instructions. The rest moves into a new
block `label` at the end, which the phis of its successors now know it by. -/
def split (f : Function) (host count : Nat) (label : String) : Function :=
  match f.blocks[host]? with
  | none => f
  | some block =>
    let head : Block := ⟨block.label, block.instrs.take count, .goto label⟩
    let tail : Block := ⟨label, block.instrs.drop count, block.terminator⟩
    block.terminator.successors.foldl (redirect block.label label)
      { f with blocks := f.blocks.set host head ++ [tail] }

/-- End a block with further instructions and another terminator. -/
def endBlock (f : Function) (host : Nat) (instrs : List Instr) (terminator : Terminator) :
    Function :=
  { f with blocks := f.blocks.modify host fun block =>
      ⟨block.label, block.instrs ++ instrs, terminator⟩ }

end Function

/-- Where the rest of a block is that was split. -/
structure Cursor where
  label : String
  /-- The index that the first instruction there had before the block was split. -/
  base : Nat
deriving DecidableEq, Repr

/-- A function into which guards are put. -/
structure Splicer where
  function : Function
  /-- The label of the function's trap block. -/
  trap : String
  cursors : Bindings Cursor

/-- What became of a finding. -/
inductive SiteKind where
  /-- The block branches to the trap block if the value violates the finding. -/
  | conditional
  /-- The block always goes to the trap block. -/
  | unconditional
  /-- There is nothing to check. -/
  | skipped
deriving DecidableEq, Repr

namespace Splicer

/-- The function with its trap block, which it gets even if no guard needs it. -/
def start (f : Function) : Splicer :=
  let label := f.freshLabel trapLabel
  ⟨{ f with blocks := f.blocks ++ [trapBlock label] }, label, []⟩

/-- Where the rest of a block is. -/
def cursor (s : Splicer) (block : String) : Cursor := (s.cursors.get? block).getD ⟨block, 0⟩

/-- The index of the block that holds the instruction of a finding now, and the instruction's index
there. -/
def locate (s : Splicer) (finding : Finding) : Except Failure (Nat × Nat) := do
  let cursor := s.cursor finding.block
  if finding.index < cursor.base then
    throw (.outOfOrderFact finding.value finding.block finding.index)
  let index := finding.index - cursor.base
  let missing := Failure.missingSuccessor finding.value cursor.label
  match s.function.position? cursor.label with
  | none => throw missing
  | some host =>
    let instr? := (s.function.blocks[host]?).bind (·.instrs[index]?)
    if instr?.bind Instr.dest? = some finding.value then return (host, index) else throw missing

/-- Put in a guard behind an instruction that was located. -/
def insert (s : Splicer) (finding : Finding) (condition : Condition) (host index : Nat) :
    Splicer × SiteKind :=
  let rest := s.function.freshLabel (finding.block ++ ".cont")
  let f := s.function.split host (index + 1) rest
  let cursors := s.cursors.insert finding.block ⟨rest, finding.index + 1⟩
  match condition with
  | .always => (⟨f.endBlock host [] (.goto s.trap), s.trap, cursors⟩, .unconditional)
  | .violated guard =>
    let lowered := guard.lower finding.value finding.ty f
    (⟨lowered.1.function.endBlock host lowered.1.instrs (.branch lowered.2 s.trap rest), s.trap,
      cursors⟩, .conditional)

/-- Guard the instruction of a finding by a condition. -/
def guard (s : Splicer) (finding : Finding) (condition : Condition) :
    Except Failure (Splicer × SiteKind) :=
  if condition.isVacuous then .ok (s, .skipped)
  else do
    let (host, index) ← s.locate finding
    return s.insert finding condition host index

end Splicer

end FactGuard
