import FactGuard.Proofs.Fact.Sweep
import FactGuard.Proofs.Fact.Walk

/-!
# Facts do not depend on how blocks are listed

The blocks behind the entry of a function may be listed in another order, and blocks that control
cannot reach may come or go (`Function.Relists`). The edges between the blocks that it can reach are
then the same, in the same order, so the walk from the entry comes to these blocks as it did before
(`Function.Relists.reached_eq`). It comes to all of them before the sweep goes on to others. So
whatever is defined in a block that can be reached keeps its fact (`Function.Relists.facts_agree`).
-/

namespace FactGuard

namespace Function

/-- Control can reach the block: it is the entry, or a block that control can reach leads to it. -/
inductive Reaches (f : Function) : Block → Prop
  | entry {block : Block} {rest : List Block} (h : f.blocks = block :: rest) : Reaches f block
  | step {block next : Block} (h : Reaches f block) (hnext : next ∈ f.blocks)
      (hedge : next.label ∈ block.terminator.successors) : Reaches f next

/-- The blocks of one function are those of the other but for blocks that control cannot reach, with
the same entry, and in any order behind it. Both declare the same names, no label stands twice, and
no name is defined twice. -/
structure Relists (f g : Function) : Prop where
  declarations_eq : g.declarations = f.declarations
  labels_nodup : f.labels.Nodup
  labels_nodup' : g.labels.Nodup
  definedNames_nodup : f.definedNames.Nodup
  definedNames_nodup' : g.definedNames.Nodup
  exists_blocks : ∃ entry rest rest' kept deleted added, f.blocks = entry :: rest ∧
    g.blocks = entry :: rest' ∧ rest.Perm (kept ++ deleted) ∧ rest'.Perm (kept ++ added) ∧
    (∀ block ∈ deleted, ¬f.Reaches block) ∧ ∀ block ∈ added, ¬g.Reaches block

variable {f g : Function}

theorem Reaches.mem {block : Block} (h : f.Reaches block) : block ∈ f.blocks := by
  cases h with
  | entry h => exact h ▸ List.mem_cons_self
  | step _ hnext _ => exact hnext

/-- Control cannot reach a block to which none leads, unless it is the entry. -/
theorem not_reaches_of_predecessors {block : Block} (hentry : f.blocks.head? ≠ some block)
    (hnone : f.predecessors block.label = []) : ¬f.Reaches block := by
  intro h
  cases h with
  | entry h =>
    rw [h] at hentry
    exact hentry rfl
  | @step before _ hbefore _ hedge =>
    have hmem : before.label ∈ f.predecessors block.label :=
      mem_predecessors.2 ⟨before, hbefore.mem, hedge, rfl⟩
    rw [hnone] at hmem
    cases hmem

/-! ## What control can reach -/

namespace Relists

/-- It does not matter which of the functions is relisted. -/
theorem symm (h : f.Relists g) : g.Relists f where
  declarations_eq := h.declarations_eq.symm
  labels_nodup := h.labels_nodup'
  labels_nodup' := h.labels_nodup
  definedNames_nodup := h.definedNames_nodup'
  definedNames_nodup' := h.definedNames_nodup
  exists_blocks := by
    obtain ⟨entry, rest, rest', kept, deleted, added, hf, hg, hrest, hrest', hdeleted, hadded⟩ :=
      h.exists_blocks
    exact ⟨entry, rest', rest, kept, added, deleted, hg, hf, hrest', hrest, hadded, hdeleted⟩

/-- A block that control can reach is a block of the relisted function. -/
theorem mem_of_reaches (h : f.Relists g) {block : Block} (hreaches : f.Reaches block) :
    block ∈ g.blocks := by
  obtain ⟨entry, rest, rest', kept, deleted, added, hf, hg, hrest, hrest', hdeleted, -⟩ :=
    h.exists_blocks
  have hmem := hreaches.mem
  rw [hf] at hmem
  rw [hg]
  rcases List.mem_cons.1 hmem with rfl | hmem
  · exact List.mem_cons_self
  · refine List.mem_cons_of_mem _ (hrest'.mem_iff.2 (List.mem_append_left _ ?_))
    exact (List.mem_append.1 (hrest.mem_iff.1 hmem)).resolve_right fun hnot =>
      hdeleted block hnot hreaches

/-- Control can reach what it could. -/
theorem reaches (h : f.Relists g) {block : Block} (hreaches : f.Reaches block) :
    g.Reaches block := by
  induction hreaches with
  | entry hblocks =>
    obtain ⟨entry, rest, rest', kept, deleted, added, hf, hg, -⟩ := h.exists_blocks
    rw [hblocks] at hf
    cases hf
    exact .entry hg
  | step hreaches hnext hedge ih =>
    exact .step ih (h.mem_of_reaches (.step hreaches hnext hedge)) hedge

end Relists

/-! ## The walk from the entry -/

/-- The walk comes to every block that control can reach. -/
theorem Reaches.exists_mem_walk (hf : f.labels.Nodup) {block : Block} (h : f.Reaches block) :
    ∃ i ∈ f.walk.left, f.blocks[i]? = some block := by
  have hpos : 0 < f.blocks.length := List.length_pos_of_mem h.mem
  have hwalk := explores_walk hpos
  induction h with
  | entry hblocks =>
    refine ⟨0, (mem_left_walk hpos 0).2 (hwalk.subset_entered List.mem_cons_self), ?_⟩
    rw [hblocks]
    rfl
  | @step block next _ hnext hedge ih =>
    obtain ⟨i, hi, hblock⟩ := ih
    obtain ⟨j, hj⟩ := List.mem_iff_getElem?.1 hnext
    have hposition : f.position? next.label = some j :=
      (position?_eq_some_iff hf next.label j).2 ⟨next, hj, rfl⟩
    have hmem : j ∈ f.edges i := by
      unfold edges
      rw [hblock]
      exact List.mem_filterMap.2 ⟨next.label, hedge, hposition⟩
    -- The walk has entered the block before, so it has entered this one too.
    have hclosed := hwalk.closed ((mem_left_walk hpos i).1 hi) List.not_mem_nil
    exact ⟨j, (mem_left_walk hpos j).2 (hclosed hmem), hj⟩

/-- The blocks that the walk from the entry comes to, in the order of the visit. -/
def reached (f : Function) : List Block := f.walk.left.filterMap (f.blocks[·]?)

/-- The instructions of these blocks. -/
def reachedInstrs (f : Function) : List Instr := f.reached.flatMap (·.instrs)

/-- A sweep visits the blocks that the walk comes to before all others. -/
theorem exists_visitedInstrs (hf : 0 < f.blocks.length) :
    ∃ others, f.visitedInstrs = f.reachedInstrs ++ others := by
  unfold visitedInstrs reachedInstrs reached
  rw [visitOrder_eq hf, List.filterMap_append, List.flatMap_append]
  exact ⟨_, rfl⟩

namespace Relists

/-- Indices in two functions of one block that control can reach. -/
def Same (f g : Function) (i j : Nat) : Prop :=
  ∃ block, f.Reaches block ∧ f.blocks[i]? = some block ∧ g.blocks[j]? = some block

theorem same_biUnique (h : f.Relists g) : Relator.BiUnique (Same f g) := by
  constructor
  · rintro i i' j ⟨block, -, hi, hj⟩ ⟨block', -, hi', hj'⟩
    rw [hj] at hj'
    cases hj'
    exact index_eq_of_label_eq h.labels_nodup hi hi' rfl
  · rintro i j j' ⟨block, -, hi, hj⟩ ⟨block', -, hi', hj'⟩
    rw [hi] at hi'
    cases hi'
    exact index_eq_of_label_eq h.labels_nodup' hj hj' rfl

/-- A label to which a block leads is that of the same block in both functions, or of none in both.
-/
theorem rel_position? (h : f.Relists g) {block : Block} (hblock : f.Reaches block) {label : String}
    (hlabel : label ∈ block.terminator.successors) :
    Option.Rel (Same f g) (f.position? label) (g.position? label) := by
  cases hposition : f.position? label with
  | some i =>
    obtain ⟨next, hnext, rfl⟩ := (position?_eq_some_iff h.labels_nodup label i).1 hposition
    have hreaches : f.Reaches next := .step hblock (List.mem_of_getElem? hnext) hlabel
    obtain ⟨j, hj⟩ := List.mem_iff_getElem?.1 (h.mem_of_reaches hreaches)
    rw [(position?_eq_some_iff h.labels_nodup' next.label j).2 ⟨next, hj, rfl⟩]
    exact .some ⟨next, hreaches, hnext, hj⟩
  | none =>
    have hnone : label ∉ g.labels := by
      intro hmem
      obtain ⟨next, hnext, rfl⟩ := mem_labels.1 hmem
      -- A block of this label could be reached, so it would be one of both functions.
      have hreaches : g.Reaches next := .step (h.reaches hblock) hnext hlabel
      exact (position?_eq_none_iff f next.label).1 hposition
        (mem_labels.2 ⟨next, h.symm.mem_of_reaches hreaches, rfl⟩)
    rw [(position?_eq_none_iff g label).2 hnone]
    exact .none

/-- Blocks that control can reach lead to the same blocks, in the same order. -/
theorem forall₂_edges (h : f.Relists g) {i j : Nat} (hij : Same f g i j) :
    List.Forall₂ (Same f g) (f.edges i) (g.edges j) := by
  obtain ⟨block, hreaches, hi, hj⟩ := hij
  unfold edges
  rw [hi, hj]
  have hlabels : List.Forall₂ (fun label label' => label = label' ∧
      label ∈ block.terminator.successors) block.terminator.successors
      block.terminator.successors := List.forall₂_same.2 fun label hlabel => ⟨rfl, hlabel⟩
  refine List.rel_filterMap ?_ hlabels
  rintro label _ ⟨rfl, hlabel⟩
  exact h.rel_position? hreaches hlabel

/-- The walk comes to the same blocks in the same order. -/
theorem reached_eq (h : f.Relists g) : f.reached = g.reached := by
  obtain ⟨entry, rest, rest', -, -, -, hf, hg, -⟩ := h.exists_blocks
  have hpos : 0 < f.blocks.length := by simp [hf]
  have hpos' : 0 < g.blocks.length := by simp [hg]
  have hentry : Same f g 0 0 := ⟨entry, .entry hf, by rw [hf]; rfl, by rw [hg]; rfl⟩
  -- The walk over the one function is a walk over the other, which has just one.
  obtain ⟨after, hafter, hrelated⟩ := (explores_walk hpos).transport h.same_biUnique
    (fun _ _ => h.forall₂_edges) (.start _) (.cons hentry .nil)
  have hsame : after = g.walk := hafter.eq (explores_walk hpos')
  rw [hsame] at hrelated
  have hblocks : List.Forall₂ Eq f.reached g.reached := by
    refine List.rel_filterMap ?_ hrelated.left
    rintro i j ⟨block, -, hi, hj⟩
    dsimp only
    rw [hi, hj]
    exact .some rfl
  rwa [List.forall₂_eq_eq_eq] at hblocks

end Relists

/-! ## Facts -/

/-- The fact of a name that is defined once, in a block to which the walk comes, is inferred from
these blocks alone. -/
theorem get?_facts_of_count_le_one {name : String} (hf : f.definedNames.count name ≤ 1)
    (hpos : 0 < f.blocks.length) (hname : name ∈ f.reachedInstrs.filterMap Instr.dest?) :
    f.facts.get? name
      = (f.reachedInstrs.foldl FactMap.visitInstr ⟨f.declarations, []⟩).get? name := by
  obtain ⟨others, hothers⟩ := f.exists_visitedInstrs hpos
  have hcount := (f.visitedInstrs_perm.filterMap Instr.dest?).count_eq name
  rw [hothers, List.filterMap_append, List.count_append] at hcount
  have hfirst := List.count_pos_iff.2 hname
  -- What is visited after these blocks defines other names.
  have hlater : name ∉ others.filterMap Instr.dest? := by
    intro hmem
    have hsecond := List.count_pos_iff.2 hmem
    unfold definedNames at hf
    omega
  rw [facts_eq_sweep, hothers, List.foldl_append]
  exact FactMap.get?_sweep_of_not_mem hlater _

/-- The fact of a name that is defined in a block to which the walk comes is inferred from these
blocks alone. -/
theorem get?_facts_of_reached (hf : f.definedNames.Nodup) (hpos : 0 < f.blocks.length)
    {name : String} (hname : name ∈ f.reachedInstrs.filterMap Instr.dest?) :
    f.facts.get? name
      = (f.reachedInstrs.foldl FactMap.visitInstr ⟨f.declarations, []⟩).get? name :=
  get?_facts_of_count_le_one (List.nodup_iff_count_le_one.1 hf name) hpos hname

/-- The walk comes to what a block defines that control can reach. -/
theorem Reaches.mem_reachedInstrs (hf : f.labels.Nodup) {block : Block} (h : f.Reaches block)
    {name : String} (hname : name ∈ block.instrs.filterMap Instr.dest?) :
    name ∈ f.reachedInstrs.filterMap Instr.dest? := by
  obtain ⟨i, hi, hblock⟩ := h.exists_mem_walk hf
  obtain ⟨instr, hinstr, hdest⟩ := List.mem_filterMap.1 hname
  have hreached : block ∈ f.reached := List.mem_filterMap.2 ⟨i, hi, hblock⟩
  exact List.mem_filterMap.2 ⟨instr, List.mem_flatMap.2 ⟨block, hreached, hinstr⟩, hdest⟩

/-- The fact of a name that is defined in a block that control can reach does not depend on how the
blocks of the function are listed, nor on the blocks that control cannot reach. -/
theorem Relists.facts_agree (h : f.Relists g) {block : Block} (hblock : f.Reaches block)
    {name : String} (hname : name ∈ block.instrs.filterMap Instr.dest?) :
    f.facts.get? name = g.facts.get? name := by
  have hpos : 0 < f.blocks.length := List.length_pos_of_mem hblock.mem
  have hpos' : 0 < g.blocks.length := List.length_pos_of_mem (h.reaches hblock).mem
  have hinstrs : f.reachedInstrs = g.reachedInstrs := by
    unfold reachedInstrs
    rw [h.reached_eq]
  have hmem := hblock.mem_reachedInstrs h.labels_nodup hname
  calc f.facts.get? name
      = (f.reachedInstrs.foldl FactMap.visitInstr ⟨f.declarations, []⟩).get? name :=
        get?_facts_of_reached h.definedNames_nodup hpos hmem
    _ = (g.reachedInstrs.foldl FactMap.visitInstr ⟨g.declarations, []⟩).get? name := by
        rw [hinstrs, h.declarations_eq]
    _ = g.facts.get? name :=
        (get?_facts_of_reached h.definedNames_nodup' hpos' (hinstrs ▸ hmem)).symm

/-- A phi that takes a value from a block that control cannot reach, for instances of what is shown
of all functions. -/
def fed : Function where
  name := "fed"
  params := []
  result := .u8
  locals := [("y", .u8), ("r", .u8)]
  blocks := [
    ⟨"entry", [], .goto "join"⟩,
    ⟨"dead", [.const "y" (.int 3)], .goto "join"⟩,
    ⟨"join", [.phi "r" [(.constant (.int 3), "entry"), (.place "y", "dead")]],
      .ret (some (.place "r"))⟩]

/-- The fact of the phi is the same if the block is deleted and another one is added. -/
theorem Relists.facts_agree_fed :
    let entry : Block := ⟨"entry", [], .goto "join"⟩
    let join : Block := ⟨"join", [.phi "r" [(.constant (.int 3), "entry"), (.place "y", "dead")]],
      .ret (some (.place "r"))⟩
    let spare : Block := ⟨"spare", [.const "x" (.int 5)], .goto "join"⟩
    let other : Function := { fed with blocks := [entry, join, spare] }
    fed.Relists other ∧ fed.Reaches join ∧ fed.facts.get? "r" = other.facts.get? "r" := by
  intro entry join spare other
  have hrelists : fed.Relists other := by
    refine ⟨rfl, by decide, by decide, by decide, by decide, entry, _, _, [join],
      [⟨"dead", [.const "y" (.int 3)], .goto "join"⟩], [spare], rfl, rfl, .swap _ _ [], .refl _,
      ?_, ?_⟩
    · intro block hblock
      rw [List.mem_singleton.1 hblock]
      exact not_reaches_of_predecessors (by decide) (by decide)
    · intro block hblock
      rw [List.mem_singleton.1 hblock]
      exact not_reaches_of_predecessors (by decide) (by decide)
  have hjoin : fed.Reaches join :=
    .step (.entry rfl) (by decide) (List.mem_singleton_self _)
  exact ⟨hrelists, hjoin, hrelists.facts_agree hjoin (List.mem_singleton_self "r")⟩

end Function

end FactGuard
