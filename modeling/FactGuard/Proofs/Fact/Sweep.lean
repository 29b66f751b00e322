import FactGuard.Proofs.Fact.Order
import FactGuard.Proofs.Program.WellFormed
import FactGuard.Fact.Infer

/-!
# The facts of a sweep

A sweep infers facts for one instruction after another, each from the facts inferred so far. Where
every name is defined once, these are among the facts of the whole sweep, so each fact in the end is
the transfer of its instruction over some of the facts in the end (`SingleDefs.exists_transfer`). A
name has no fact unless it has an integer type and an instruction defines it (`of_get?_facts`).
-/

namespace FactGuard

namespace FactMap

variable {m : FactMap}

/-- The facts of a table are among those of another. -/
def Below (m n : FactMap) : Prop := ∀ name fact, m.get? name = some fact → n.get? name = some fact

@[simp] theorem types_visitInstr (m : FactMap) (instr : Instr) :
    (m.visitInstr instr).types = m.types := by
  unfold visitInstr
  split
  · rfl
  · split <;> rfl

@[simp] theorem types_sweep (m : FactMap) (instrs : List Instr) :
    (instrs.foldl visitInstr m).types = m.types := by
  induction instrs generalizing m with
  | nil => rfl
  | cons instr rest ih => rw [List.foldl_cons, ih, types_visitInstr]

/-- An instruction is given a fact for the name that it defines, if the name has a width. -/
theorem get?_visitInstr (m : FactMap) (instr : Instr) (name : String) :
    (m.visitInstr instr).get? name
      = if instr.dest? = some name then ((m.width? name).map (m.transfer · instr)).or (m.get? name)
        else m.get? name := by
  unfold visitInstr
  cases hdest : instr.dest? with
  | none => simp
  | some dest =>
    dsimp only
    by_cases hname : dest = name
    · subst hname
      rw [if_pos rfl]
      cases hwidth : m.width? dest with
      | none => rfl
      | some width =>
        rw [Option.map_some, Option.some_or]
        exact (Bindings.get?_insert ..).trans (if_pos rfl)
    · rw [if_neg (by simpa using hname)]
      cases hwidth : m.width? dest with
      | none => rfl
      | some width => exact (Bindings.get?_insert ..).trans (if_neg hname)

/-- A sweep over instructions that do not define a name leaves its fact as it is. -/
theorem get?_sweep_of_not_mem {instrs : List Instr} {name : String}
    (h : name ∉ instrs.filterMap Instr.dest?) (m : FactMap) :
    (instrs.foldl visitInstr m).get? name = m.get? name := by
  induction instrs generalizing m with
  | nil => rfl
  | cons instr rest ih =>
    have hrest : name ∉ rest.filterMap Instr.dest? := fun hmem => by
      obtain ⟨other, hother, hdest⟩ := List.mem_filterMap.1 hmem
      exact h (List.mem_filterMap.2 ⟨other, List.mem_cons_of_mem _ hother, hdest⟩)
    have hdest : instr.dest? ≠ some name := fun hdest =>
      h (List.mem_filterMap.2 ⟨instr, List.mem_cons_self, hdest⟩)
    rw [List.foldl_cons, ih hrest, get?_visitInstr, if_neg hdest]

/-- A sweep gives facts to names that its instructions define, and that have a width. -/
theorem of_get?_sweep {instrs : List Instr} {name : String} {fact : ValueFact}
    (hm : m.get? name = none) (h : (instrs.foldl visitInstr m).get? name = some fact) :
    name ∈ instrs.filterMap Instr.dest? ∧ (m.width? name).isSome := by
  induction instrs generalizing m with
  | nil =>
    rw [List.foldl_nil, hm] at h
    cases h
  | cons instr rest ih =>
    have hwidth : (m.visitInstr instr).width? name = m.width? name := by
      unfold width? type?
      rw [types_visitInstr]
    -- Either this instruction gives the name its fact, or a later one does.
    cases hfirst : (m.visitInstr instr).get? name with
    | none =>
      obtain ⟨hmem, hsome⟩ := ih hfirst h
      rw [hwidth] at hsome
      obtain ⟨other, hother, hdest⟩ := List.mem_filterMap.1 hmem
      exact ⟨List.mem_filterMap.2 ⟨other, List.mem_cons_of_mem _ hother, hdest⟩, hsome⟩
    | some first =>
      rw [get?_visitInstr] at hfirst
      split_ifs at hfirst with hdest
      · refine ⟨List.mem_filterMap.2 ⟨instr, List.mem_cons_self, hdest⟩, ?_⟩
        cases hwidth : m.width? name with
        | none =>
          rw [hwidth, hm] at hfirst
          cases hfirst
        | some width => rfl
      · rw [hm] at hfirst
        cases hfirst

/-- A step of a sweep in which each name is defined once: what was inferred before the step is kept,
and the fact of the name that it defines is the transfer of its instruction. -/
theorem below_sweep {before after : List Instr} {instr : Instr} {m : FactMap}
    (hm : m.facts = []) (hnodup : ((before ++ instr :: after).filterMap Instr.dest?).Nodup) :
    (before.foldl visitInstr m).Below ((before ++ instr :: after).foldl visitInstr m) := by
  intro name fact hfact
  have hempty : m.get? name = none := by rw [get?, hm, Bindings.get?_nil]
  have hbefore := (of_get?_sweep hempty hfact).1
  rw [List.filterMap_append, List.nodup_append] at hnodup
  have hafter : name ∉ (instr :: after).filterMap Instr.dest? := fun hmem =>
    hnodup.2.2 name hbefore name hmem rfl
  rw [List.foldl_append, get?_sweep_of_not_mem hafter, hfact]

theorem get?_sweep {before after : List Instr} {instr : Instr} {m : FactMap} {name : String}
    (hdest : instr.dest? = some name) {width : Nat} (hwidth : m.width? name = some width)
    (hnodup : ((before ++ instr :: after).filterMap Instr.dest?).Nodup) :
    ((before ++ instr :: after).foldl visitInstr m).get? name
      = some ((before.foldl visitInstr m).transfer width instr) := by
  rw [List.filterMap_append, List.filterMap_cons_some hdest, List.nodup_append] at hnodup
  have hafter : name ∉ after.filterMap Instr.dest? := (List.nodup_cons.1 hnodup.2.1).1
  have hwidth' : (before.foldl visitInstr m).width? name = some width := by
    rw [← hwidth]
    unfold width? type?
    rw [types_sweep]
  rw [List.foldl_append, List.foldl_cons, get?_sweep_of_not_mem hafter, get?_visitInstr,
    if_pos hdest, hwidth', Option.map_some, Option.some_or]

end FactMap

namespace Function

variable {f : Function}

/-- The instructions of a function in the order in which a sweep visits them. -/
def visitedInstrs (f : Function) : List Instr :=
  (f.visitOrder.filterMap (f.blocks[·]?)).flatMap (·.instrs)

theorem visitedInstrs_perm (f : Function) : f.visitedInstrs.Perm f.instrs :=
  f.visited_perm.flatMap_right _

theorem facts_eq_sweep (f : Function) :
    f.facts = f.visitedInstrs.foldl FactMap.visitInstr ⟨f.declarations, []⟩ := by
  unfold Function.facts visitedInstrs FactMap.visitBlock
  rw [List.foldl_flatMap]

theorem SingleDefs.visited_nodup (hf : f.SingleDefs) :
    (f.visitedInstrs.filterMap Instr.dest?).Nodup :=
  (f.visitedInstrs_perm.filterMap _).nodup_iff.2 hf.definedNames_nodup

/-- Names that have a fact are defined by an instruction and have an integer type. -/
theorem of_get?_facts {name : String} {fact : ValueFact} (h : f.facts.get? name = some fact) :
    name ∈ f.definedNames ∧ ((f.latestType? name).bind Ty.intWidth?).isSome := by
  rw [facts_eq_sweep] at h
  obtain ⟨hmem, hwidth⟩ := FactMap.of_get?_sweep rfl h
  exact ⟨(f.visitedInstrs_perm.filterMap _).mem_iff.1 hmem, hwidth⟩

/-- The fact of a name is the transfer of the instruction that defines it, over facts that are also
facts in the end. -/
theorem SingleDefs.exists_transfer (hf : f.SingleDefs) {block : Block} (hblock : block ∈ f.blocks)
    {instr : Instr} (hinstr : instr ∈ block.instrs) {name : String}
    (hdest : instr.dest? = some name) {width : Nat}
    (hwidth : (f.latestType? name).bind Ty.intWidth? = some width) :
    ∃ m : FactMap, m.types = f.declarations ∧ m.Below f.facts ∧
      f.facts.get? name = some (m.transfer width instr) := by
  have hmem : instr ∈ f.visitedInstrs :=
    f.visitedInstrs_perm.mem_iff.2 (List.mem_flatMap.2 ⟨block, hblock, hinstr⟩)
  -- The transfer reads the facts of the instructions that are visited before.
  obtain ⟨before, after, hsplit⟩ := List.append_of_mem hmem
  have hnodup := hf.visited_nodup
  rw [facts_eq_sweep, hsplit]
  rw [hsplit] at hnodup
  exact ⟨before.foldl FactMap.visitInstr ⟨f.declarations, []⟩, FactMap.types_sweep _ _,
    FactMap.below_sweep rfl hnodup, FactMap.get?_sweep hdest hwidth hnodup⟩

end Function

end FactGuard
