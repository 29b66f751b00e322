import FactGuard.Guard.Condition

/-!
# Guards as instructions

A guard becomes instructions that compute, from the value, a `bool` that is one exactly if a term
holds. Every instruction defines a fresh local of the function, so nothing of the function is
overwritten. Comparisons are made without sign, whatever the type of the value.
-/

namespace FactGuard

/-- A function that gains locals, and the instructions that define them. -/
structure Lowering where
  function : Function
  instrs : List Instr

namespace Lowering

/-- What the names of a guard's locals start with. -/
def stem : String := "rg"

/-- Append an operation whose result is a fresh local of type `ty`. -/
def emit (l : Lowering) (ty : Ty) (op : BinOp) (lhs rhs : Operand) : String × Lowering :=
  let fresh := l.function.freshLocal stem ty
  (fresh.1, ⟨fresh.2, l.instrs ++ [.binary fresh.1 op lhs rhs]⟩)

/-- Compare the value with a constant. -/
def compare (l : Lowering) (value : String) (op : BinOp) (constant : Nat) : String × Lowering :=
  l.emit .bool op (.place value) (.ofBits constant)

/-- Combine two truth values. -/
def combine (l : Lowering) (op : BinOp) (a b : String) : String × Lowering :=
  l.emit .bool op (.place a) (.place b)

/-- The bits of the value under a mask differ from those expected. -/
def maskedDiffers (l : Lowering) (value : String) (ty : Ty) (mask expected : Nat) :
    String × Lowering :=
  let masked := l.emit ty .band (.place value) (.ofBits mask)
  masked.2.emit .bool .ne (.place masked.1) (.ofBits expected)

/-- Two comparisons of the value, combined. -/
def compareBoth (l : Lowering) (value : String) (op : BinOp) (lower upper : Nat) :
    String × Lowering :=
  let below := l.compare value .ult lower
  let above := below.2.compare value .uge upper
  above.2.combine op below.1 above.1

/-- Compute a term. Comparisons that always have the same answer are left out. -/
def term (l : Lowering) (value : String) (ty : Ty) : Term → String × Lowering
  | .outsideRange lower upper =>
    if lower = 0 then l.compare value .uge upper else l.compareBoth value .or lower upper
  | .insideGap lower upper =>
    if upper = 0 then l.compare value .ult lower else l.compareBoth value .and lower upper
  | .forcedZeroSet mask => l.maskedDiffers value ty mask 0
  | .forcedOneClear mask => l.maskedDiffers value ty mask mask

/-- Compute further terms, and combine them with the result so far. -/
def furtherTerms (l : Lowering) (value : String) (ty : Ty) (result : String) :
    List Term → String × Lowering
  | [] => (result, l)
  | t :: rest =>
    let next := l.term value ty t
    let both := next.2.combine .or result next.1
    both.2.furtherTerms value ty both.1 rest

end Lowering

/-- The instructions that compute a guard on a value of type `ty`, the operand that holds the
result, and the function with the locals that they need. -/
def Guard.lower (guard : Guard) (value : String) (ty : Ty) (f : Function) : Lowering × Operand :=
  match guard.terms with
  | [] => (⟨f, []⟩, .constant (.bool false))
  | t :: rest =>
    let first := (Lowering.mk f []).term value ty t
    let all := first.2.furtherTerms value ty first.1 rest
    (all.2, .place all.1)

end FactGuard
