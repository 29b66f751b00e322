import FactGuard.Program.Basic

/-!
# The order of a visit

The blocks of a function in reverse postorder: a depth-first walk from the entry, each block listed
before the blocks that the walk reaches through it. The blocks that it does not reach follow as they
stand in the function. So a block comes before those that only it leads to, and values are seen
before their uses, except around loops.
-/

namespace FactGuard

/-- The blocks that a walk has entered, and those that it has left again, the last one first. -/
structure Walk where
  entered : List Nat
  left : List Nat

/-- Enter a block unless that was done, walk on from there along its edges, and leave it. The walk
is at most `depth` blocks deep. -/
def Walk.visit (edges : Nat → List Nat) : Nat → Walk → Nat → Walk
  | 0, walk, _ => walk
  | depth + 1, walk, block =>
    if walk.entered.contains block then walk
    else
      let inner := (edges block).foldl (fun walk next => Walk.visit edges depth walk next)
        { walk with entered := block :: walk.entered }
      { inner with left := block :: inner.left }

namespace Function

/-- The indices of the blocks that a block leads to, in the order of its edges. Labels of no block
are passed over. -/
def edges (f : Function) (block : Nat) : List Nat :=
  match f.blocks[block]? with
  | some block => block.terminator.successors.filterMap f.position?
  | none => []

/-- The indices of all blocks in the order in which they are visited. -/
def visitOrder (f : Function) : List Nat :=
  let count := f.blocks.length
  if count = 0 then []
  else
    let walk := Walk.visit f.edges count ⟨[], []⟩ 0
    walk.left ++ (List.range count).filter fun block => !walk.entered.contains block

end Function

end FactGuard
