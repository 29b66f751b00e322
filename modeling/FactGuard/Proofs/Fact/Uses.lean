import Mathlib.Tactic.IntervalCases
import FactGuard.Proofs.Fact.Dominance
import FactGuard.Proofs.Fact.Sweep

/-!
# Definitions are visited before their uses

A sweep comes to each instruction of a function at one point (`Function.SweepPoint`), with the facts
of those that it has visited before. If names are defined once, and every name that is used is
defined in a block that dominates the use, then the definition of each operand has been visited, and
the fact of the operand will not change any more (`SweepPoint.exists_fact`). Phis are left out,
since control comes to them also from blocks that are visited later.
-/

namespace FactGuard

/-- A sweep over instructions that define a name once gives it a fact, if it has a width. -/
theorem FactMap.exists_get?_sweep {instrs : List Instr} {m : FactMap} {name : String} {width : Nat}
    (hname : name ∈ instrs.filterMap Instr.dest?) (hwidth : m.width? name = some width)
    (hnodup : (instrs.filterMap Instr.dest?).Nodup) :
    ∃ fact, (instrs.foldl visitInstr m).get? name = some fact := by
  obtain ⟨instr, hinstr, hdest⟩ := List.mem_filterMap.1 hname
  obtain ⟨before, after, rfl⟩ := List.append_of_mem hinstr
  exact ⟨_, get?_sweep hdest hwidth hnodup⟩

namespace Function

variable {f : Function}

/-- An instruction of a function with all that a sweep visits before it: the blocks before its
block, and the instructions before it in its block. -/
structure SweepPoint (f : Function) where
  before : List Nat
  index : Nat
  after : List Nat
  block : Block
  done : List Instr
  instr : Instr
  rest : List Instr
  visitOrder_eq : f.visitOrder = before ++ index :: after
  getElem?_eq : f.blocks[index]? = some block
  instrs_eq : block.instrs = done ++ instr :: rest

namespace SweepPoint

/-- What has been inferred when the sweep comes to the instruction. -/
def facts (p : f.SweepPoint) : FactMap :=
  p.done.foldl FactMap.visitInstr
    ((p.before.filterMap (f.blocks[·]?)).foldl FactMap.visitBlock ⟨f.declarations, []⟩)

/-- The instructions that are visited before. -/
def visited (p : f.SweepPoint) : List Instr :=
  (p.before.filterMap (f.blocks[·]?)).flatMap (·.instrs) ++ p.done

/-- The instructions that are visited after. -/
def remaining (p : f.SweepPoint) : List Instr :=
  p.rest ++ (p.after.filterMap (f.blocks[·]?)).flatMap (·.instrs)

theorem facts_eq_sweep (p : f.SweepPoint) :
    p.facts = p.visited.foldl FactMap.visitInstr ⟨f.declarations, []⟩ := by
  unfold facts visited FactMap.visitBlock
  rw [List.foldl_append, List.foldl_flatMap]

theorem visitedInstrs_eq (p : f.SweepPoint) :
    f.visitedInstrs = p.visited ++ p.instr :: p.remaining := by
  unfold visitedInstrs visited remaining
  rw [p.visitOrder_eq, List.filterMap_append, List.filterMap_cons_some p.getElem?_eq,
    List.flatMap_append, List.flatMap_cons, p.instrs_eq]
  simp

/-- The sweep goes on with the instruction. -/
theorem facts_eq (p : f.SweepPoint) :
    f.facts = p.remaining.foldl FactMap.visitInstr (p.facts.visitInstr p.instr) := by
  rw [Function.facts_eq_sweep, p.visitedInstrs_eq, p.facts_eq_sweep, List.foldl_append,
    List.foldl_cons]

/-- The sweep comes to every instruction of every block. -/
theorem exists_of_getElem? {i k : Nat} {block : Block} {instr : Instr}
    (hblock : f.blocks[i]? = some block) (hinstr : block.instrs[k]? = some instr) :
    ∃ p : f.SweepPoint, p.index = i ∧ p.done.length = k ∧ p.instr = instr := by
  obtain ⟨hi, -⟩ := List.getElem?_eq_some_iff.1 hblock
  have hmem : i ∈ f.visitOrder := f.visitOrder_perm.mem_iff.2 (List.mem_range.2 hi)
  obtain ⟨before, after, horder⟩ := List.append_of_mem hmem
  obtain ⟨hk, rfl⟩ := List.getElem?_eq_some_iff.1 hinstr
  have hinstrs : block.instrs
      = block.instrs.take k ++ block.instrs[k] :: block.instrs.drop (k + 1) := by simp
  have hlength : (block.instrs.take k).length = k := by
    rw [List.length_take]
    omega
  exact ⟨⟨before, i, after, block, _, _, _, horder, hblock, hinstrs⟩, rfl, hlength, rfl⟩

end SweepPoint

/-- The instruction at an index of a block defines the name. -/
def Defines (f : Function) (i k : Nat) (name : String) : Prop :=
  ∃ block instr, f.blocks[i]? = some block ∧ block.instrs[k]? = some instr ∧
    instr.dest? = some name

/-- Wherever control can come, what an instruction other than a phi reads is a parameter, or it is
defined before the instruction in its block or in another block that dominates it. -/
def DominatedUses (f : Function) : Prop :=
  ∀ i block k instr, f.Reachable i → f.blocks[i]? = some block → block.instrs[k]? = some instr →
    instr.isPhi = false → ∀ name, .place name ∈ instr.operands →
      name ∈ f.params.map Prod.fst ∨
        ∃ j m, f.Defines j m name ∧ (j = i ∧ m < k ∨ j ≠ i ∧ f.Dominates j i)

namespace SweepPoint

/-- What is defined in a block that was visited, or before in the same block, was visited. -/
theorem mem_visited (p : f.SweepPoint) {j m : Nat} {name : String} (hdef : f.Defines j m name)
    (hbefore : j = p.index ∧ m < p.done.length ∨ j ∈ p.before) :
    name ∈ p.visited.filterMap Instr.dest? := by
  obtain ⟨block, instr, hblock, hinstr, hdest⟩ := hdef
  refine List.mem_filterMap.2 ⟨instr, List.mem_append.2 ?_, hdest⟩
  rcases hbefore with ⟨rfl, hlt⟩ | hmem
  · cases p.getElem?_eq.symm.trans hblock
    rw [p.instrs_eq, List.getElem?_append_left hlt] at hinstr
    exact .inr (List.mem_of_getElem? hinstr)
  · refine .inl (List.mem_flatMap.2 ⟨block, List.mem_filterMap.2 ⟨j, hmem, hblock⟩, ?_⟩)
    exact List.mem_of_getElem? hinstr

/-- What an instruction reads is a parameter, or was defined by an instruction that was visited. -/
theorem mem_params_or_mem_visited (p : f.SweepPoint) (huses : f.DominatedUses)
    (hreachable : f.Reachable p.index) (hphi : p.instr.isPhi = false) {name : String}
    (hname : .place name ∈ p.instr.operands) :
    name ∈ f.params.map Prod.fst ∨ name ∈ p.visited.filterMap Instr.dest? := by
  have hinstr : p.block.instrs[p.done.length]? = some p.instr := by simp [p.instrs_eq]
  refine (huses _ _ _ _ hreachable p.getElem?_eq hinstr hphi name hname).imp_right ?_
  rintro ⟨j, m, hdef, hbefore⟩
  refine p.mem_visited hdef (hbefore.imp_right fun ⟨hne, hdominates⟩ => ?_)
  -- The dominating block stands before this one, so it is among those before the point.
  have hnodup : f.visitOrder.Nodup := f.visitOrder_perm.nodup_iff.2 List.nodup_range
  have hprecedes := hdominates.precedes hreachable hne
  rw [p.visitOrder_eq] at hnodup hprecedes
  exact hprecedes.mem_left hnodup

/-- An operand of integer type is a parameter, or has a fact that will not change any more. -/
theorem exists_fact (p : f.SweepPoint) (hdefs : f.definedNames.Nodup) (huses : f.DominatedUses)
    (hreachable : f.Reachable p.index) (hphi : p.instr.isPhi = false) {name : String}
    (hname : .place name ∈ p.instr.operands)
    (hwidth : ((f.latestType? name).bind Ty.intWidth?).isSome) :
    name ∈ f.params.map Prod.fst ∨
      ∃ fact, p.facts.get? name = some fact ∧ f.facts.get? name = some fact := by
  refine (p.mem_params_or_mem_visited huses hreachable hphi hname).imp_right fun hvisited => ?_
  obtain ⟨width, hwidth⟩ := Option.isSome_iff_exists.1 hwidth
  have hnodup := (f.visitedInstrs_perm.filterMap Instr.dest?).nodup_iff.2 hdefs
  rw [p.visitedInstrs_eq] at hnodup
  -- The rest of the sweep defines other names, so it changes no fact.
  have hbelow := FactMap.below_sweep (m := ⟨f.declarations, []⟩) rfl hnodup
  rw [← p.visitedInstrs_eq, ← Function.facts_eq_sweep, ← p.facts_eq_sweep] at hbelow
  rw [List.filterMap_append] at hnodup
  obtain ⟨fact, hfact⟩ := FactMap.exists_get?_sweep (m := ⟨f.declarations, []⟩) hvisited hwidth
    (List.nodup_append.1 hnodup).1
  rw [← p.facts_eq_sweep] at hfact
  exact ⟨fact, hfact, hbelow name fact hfact⟩

end SweepPoint

/-- A sweep visits definitions before uses. It visits every block once, first the entry and the
others that control can reach, and then the rest as they are listed. A search with a stack makes the
walk from the entry and comes to its end. A block is visited before the others that it dominates,
and before those that it leads to, unless control can come back. So if names are defined once and
uses are dominated by definitions, then each operand of an instruction that control can reach, phis
apart, is a parameter or has its fact when the sweep comes to the instruction. -/
theorem definitions_visited_first (f : Function) :
    f.visitOrder.Perm (List.range f.blocks.length) ∧
    (0 < f.blocks.length → f.visitOrder.head? = some 0 ∧ ∃ walk others,
      Search.Becomes f.edges ⟨[(0, f.edges 0)], ⟨[0], []⟩⟩ ⟨[], walk⟩ ∧
      f.visitOrder = walk.left ++ others ∧ (∀ v, v ∈ walk.left ↔ f.Reachable v) ∧
      others.Pairwise (· < ·)) ∧
    (∀ u v, f.Reachable v → u ≠ v → f.Dominates u v → Precedes f.visitOrder u v) ∧
    (∀ u v, f.Reachable u → v ∈ f.edges u → ¬Reach f.edges v u → Precedes f.visitOrder u v) ∧
    (∀ i block k instr, f.blocks[i]? = some block → block.instrs[k]? = some instr →
      ∃ p : f.SweepPoint, p.index = i ∧ p.done.length = k ∧ p.instr = instr) ∧
    ∀ p : f.SweepPoint,
      f.facts = p.remaining.foldl FactMap.visitInstr (p.facts.visitInstr p.instr) ∧
      (f.definedNames.Nodup → f.DominatedUses → f.Reachable p.index → p.instr.isPhi = false →
        ∀ name, .place name ∈ p.instr.operands →
          ((f.latestType? name).bind Ty.intWidth?).isSome → name ∈ f.params.map Prod.fst ∨
            ∃ fact, p.facts.get? name = some fact ∧ f.facts.get? name = some fact) := by
  refine ⟨f.visitOrder_perm, fun hf => ⟨?_, ?_⟩, fun u v hv hne h => h.precedes hv hne,
    fun u v hu hedge hback => precedes_of_edge hu hedge hback,
    fun _ _ _ _ hblock hinstr => SweepPoint.exists_of_getElem? hblock hinstr,
    fun p => ⟨p.facts_eq, fun hdefs huses hreachable hphi _ hname hwidth =>
      p.exists_fact hdefs huses hreachable hphi hname hwidth⟩⟩
  · obtain ⟨inner, -, hwalk⟩ := exists_inner_walk hf
    rw [visitOrder_eq hf, hwalk]
    rfl
  · exact ⟨f.walk, _, becomes_walk hf, visitOrder_eq hf, fun _ => mem_left_walk_iff hf,
      List.pairwise_lt_range.filter _⟩

/-- A loop with two ways in, a block that loops to itself, a label of no block, two edges to one
block, and a block that control cannot reach, for instances of what is shown of all functions. -/
def tangle : Function where
  name := "tangle"
  params := [("n", .u8)]
  result := .u8
  locals := [("odd", .bool), ("low", .u8), ("high", .u8), ("sum", .u8), ("dead", .u8)]
  blocks := [
    ⟨"entry", [
      .binary "low" .band (.place "n") (.constant (.int 15)),
      .binary "odd" .ne (.place "low") (.constant (.int 0))],
      .branch (.place "odd") "left" "right"⟩,
    ⟨"dead", [.copy "dead" "sum"], .goto "right"⟩,
    ⟨"left", [], .goto "right"⟩,
    ⟨"right", [.binary "high" .bor (.place "low") (.constant (.int 16))],
      .switch (.place "n") [(0, "left"), (1, "right"), (2, "nowhere"), (3, "left")] "exit"⟩,
    ⟨"exit", [.binary "sum" .add (.place "high") (.place "low")], .ret (some (.place "sum"))⟩]

/-- Control can come to the last block only through the one before it. -/
theorem tangle_dominates : tangle.Dominates 3 4 := fun _ hpath =>
  hpath.mem_of_closed (· ∈ [0, 2]) (by decide) (by decide) (by decide)

/-- Control does not come back to the entry. -/
theorem tangle_not_reach : ¬Reach tangle.edges 3 0 := fun h =>
  absurd (h.of_closed (· ∈ [2, 3, 4]) (by decide) (by decide)) (by decide)

theorem tangle_not_reachable : ¬tangle.Reachable 1 := fun ⟨_, h⟩ =>
  absurd (h.of_closed (· ∈ [0, 2, 3, 4]) (by decide) (by decide)) (by decide)

theorem tangle_dominatedUses : tangle.DominatedUses := by
  intro i block k instr hreachable hblock hinstr _ name hname
  have hi : i < 5 := hreachable.1
  obtain ⟨hk, -⟩ := List.getElem?_eq_some_iff.1 hinstr
  -- The entry dominates all blocks, so what it defines can be used everywhere behind.
  have hlow : 0 = i ∧ 0 < k ∨ 0 ≠ i → ∃ j m, tangle.Defines j m "low" ∧
      (j = i ∧ m < k ∨ j ≠ i ∧ tangle.Dominates j i) := fun h =>
    ⟨0, 0, ⟨_, _, rfl, rfl, rfl⟩, h.imp_right fun hne => ⟨hne, fun _ hpath => hpath.first_mem⟩⟩
  interval_cases i
  · cases hblock
    have hk : k < 2 := hk
    interval_cases k
    · cases hinstr
      obtain rfl : name = "n" := by simpa [Instr.operands] using hname
      exact .inl (List.mem_singleton_self "n")
    · cases hinstr
      obtain rfl : name = "low" := by simpa [Instr.operands] using hname
      exact .inr (hlow (by decide))
  · exact absurd hreachable tangle_not_reachable
  · cases hblock
    exact absurd hk (Nat.not_lt_zero k)
  · cases hblock
    have hk : k < 1 := hk
    interval_cases k
    cases hinstr
    obtain rfl : name = "low" := by simpa [Instr.operands] using hname
    exact .inr (hlow (by decide))
  · cases hblock
    have hk : k < 1 := hk
    interval_cases k
    cases hinstr
    obtain rfl | rfl : name = "high" ∨ name = "low" := by simpa [Instr.operands] using hname
    · exact .inr ⟨3, 0, ⟨_, _, rfl, rfl, rfl⟩, .inr ⟨by decide, tangle_dominates⟩⟩
    · exact .inr (hlow (by decide))

/-- The loop of the tangle is visited between the entry and the last block, and the block that
control cannot reach at the end. In the last block, the fact of what the loop defines is known. -/
theorem definitions_visited_first_tangle :
    tangle.visitOrder = [0, 2, 3, 4, 1] ∧ tangle.Reachable 4 ∧ tangle.Dominates 3 4 ∧
      Precedes tangle.visitOrder 3 4 ∧ ¬Reach tangle.edges 3 0 ∧
      Precedes tangle.visitOrder 0 3 ∧ tangle.definedNames.Nodup ∧ tangle.DominatedUses ∧
      ∃ p : tangle.SweepPoint, p.index = 4 ∧ .place "high" ∈ p.instr.operands ∧
        ∃ fact, p.facts.get? "high" = some fact ∧ tangle.facts.get? "high" = some fact := by
  obtain ⟨-, -, hdominates, hedges, hpoints, hfacts⟩ := tangle.definitions_visited_first
  have hentry : tangle.Reachable 0 := ⟨by decide, .refl⟩
  have hlast : tangle.Reachable 4 :=
    ⟨by decide, .tail (.single (show 3 ∈ tangle.edges 0 by decide)) (by decide)⟩
  have hdefs : tangle.definedNames.Nodup := by decide
  obtain ⟨p, hindex, -, hinstr⟩ := hpoints 4 _ 0 _ rfl rfl
  have hoperand : .place "high" ∈ p.instr.operands := by
    rw [hinstr]
    exact List.mem_cons_self
  have hknown := (hfacts p).2 hdefs tangle_dominatedUses (by rwa [hindex]) (by rw [hinstr]; rfl)
    "high" hoperand rfl
  exact ⟨by decide, hlast, tangle_dominates, hdominates 3 4 hlast (by decide) tangle_dominates,
    tangle_not_reach, hedges 0 3 hentry (by decide) tangle_not_reach, hdefs,
    tangle_dominatedUses, p, hindex, hoperand, hknown.resolve_left (by decide)⟩

end Function

end FactGuard
