import FactGuard.Proofs.Site.Typing

/-!
# Guarded functions are valid

Beyond links and types, a guard keeps single assignments, since it defines fresh locals only, and
the phis of a block name the blocks that lead there, since both change alike when a block is cut
(`Splicer.Inserts.mem_predecessors`, `Splicer.Inserts.phi_labels_iff`). So a valid function stays
valid however often it is guarded (`Session.instrument_valid`).
-/

namespace FactGuard

/-- If the block branches, it does so on a truth value that it defines. -/
def Block.BranchesOwn (types : String → Option Ty) (block : Block) : Prop :=
  ∀ cond ifTrue ifFalse, block.terminator = .branch cond ifTrue ifFalse →
    ∃ name, cond = .place name ∧ types name = some .bool ∧ name ∈ block.definedNames

namespace Splicer

variable {f : Function} {s s' : Splicer} {finding : Finding} {condition : Condition} {host : Nat}
  {c : Cut}

/-! ## Single assignments -/

/-- Every name is still defined once at most. -/
theorem Inserts.singleDefs (h : Inserts s finding condition s' host c)
    (hfits : Fits s finding condition c) (htyped : s.function.Typed)
    (hs : s.function.SingleDefs) : s'.function.SingleDefs := by
  obtain ⟨temps, hgains, -⟩ := h.exists_gains hfits.valueType? hfits.isVacuous
  have hperm := Cut.definedNames_perm h.host_eq h.blocks_eq
  rw [hgains.filterMap_dest?] at hperm
  constructor
  · refine hperm.nodup_iff.2 (List.nodup_append'.2 ⟨hs.definedNames_nodup, hgains.names_nodup, ?_⟩)
    -- The names of a guard were not declared before, and what is defined is declared.
    intro name hname htemp
    obtain ⟨instr, hinstr, hdest⟩ := List.mem_filterMap.1 hname
    obtain ⟨block, hblock, hinstr⟩ := List.mem_flatMap.1 hinstr
    exact hgains.names_not_mem name htemp
      (htyped.instr_names_mem block hblock instr hinstr name (by simp [Instr.names, hdest]))
  · intro name hname hdefined
    have hparams : s'.function.params = s.function.params := by
      show s'.function.header.params = _
      rw [hgains.header_eq]
      rfl
    rw [hparams] at hname
    rcases List.mem_append.1 (hperm.mem_iff.1 hdefined) with hold | htemp
    · exact hs.params_not_mem name hname hold
    · refine hgains.names_not_mem name htemp ?_
      show name ∈ Bindings.names (s.function.params ++ s.function.locals)
      rw [Bindings.names_append]
      exact List.mem_append_left _ hname

/-! ## Predecessors and phis -/

/-- The blocks that lead to a label after a guard: the first part of the cut leads where the guard
does, the second part where the block did, and other blocks where they did. -/
theorem Inserts.mem_predecessors (h : Inserts s finding condition s' host c)
    (hs : s.function.labels.Nodup) {label pred : String} :
    pred ∈ s'.function.predecessors label ↔
      (label ∈ c.terminator.successors ∧ pred = c.block.label) ∨
      (label ∈ c.block.terminator.successors ∧ pred = c.label) ∨
      (pred ∈ s.function.predecessors label ∧ pred ≠ c.block.label) := by
  rw [Function.mem_predecessors, Function.mem_predecessors]
  constructor
  · rintro ⟨block, hblock, hsucc, rfl⟩
    rcases (h.mem_blocks hs).1 hblock with rfl | rfl | ⟨b, hb, hne, rfl⟩
    · exact .inl ⟨hsucc, c.label_head⟩
    · rw [Cut.terminator_tail] at hsucc
      exact .inr (.inl ⟨hsucc, c.label_tail⟩)
    · rw [Cut.terminator_rewire] at hsucc
      rw [Cut.label_rewire]
      exact .inr (.inr ⟨⟨b, hb, hsucc, rfl⟩, hne⟩)
  · rintro (⟨hsucc, rfl⟩ | ⟨hsucc, rfl⟩ | ⟨⟨b, hb, hsucc, rfl⟩, hne⟩)
    · exact ⟨c.head, (h.mem_blocks hs).2 (.inl rfl), hsucc, rfl⟩
    · exact ⟨c.tail, (h.mem_blocks hs).2 (.inr (.inl rfl)), by rwa [c.terminator_tail],
        c.label_tail⟩
    · exact ⟨c.rewire b, (h.mem_blocks hs).2 (.inr (.inr ⟨b, hb, hne, rfl⟩)),
        by rwa [c.terminator_rewire], c.label_rewire b⟩

/-- The block that is cut leads to a label of its successors. -/
theorem Inserts.block_mem_predecessors_iff (h : Inserts s finding condition s' host c)
    (hs : s.function.labels.Nodup) (label : String) :
    c.block.label ∈ s.function.predecessors label ↔ label ∈ c.block.terminator.successors := by
  rw [Function.mem_predecessors]
  constructor
  · rintro ⟨block, hblock, hsucc, hlabel⟩
    rwa [Function.eq_of_label_eq hs hblock h.block_mem hlabel] at hsucc
  · intro hsucc
    exact ⟨c.block, h.block_mem, hsucc, rfl⟩

/-- A block with phis is not where a guard leads: it is neither the trap block nor new. -/
theorem Inserts.not_mem_successors (h : Inserts s finding condition s' host c)
    (hfits : Fits s finding condition c) (hs : s.function.labels.Nodup) {block : Block}
    (hblock : block ∈ s.function.blocks) {dest : String} {values : List (Operand × String)}
    (hphi : .phi dest values ∈ block.instrs) : block.label ∉ c.terminator.successors := by
  intro hsucc
  rcases h.successors_subset hfits hsucc with htrap | hlabel
  · have : block = trapBlock s.trap := Function.eq_of_label_eq hs hblock hfits.trap_mem htrap
    rw [this] at hphi
    simp [trapBlock] at hphi
  · exact h.label_not_mem (Function.mem_labels.2 ⟨block, hblock, hlabel⟩)

/-- A rewired phi names exactly the blocks that lead to its block after a guard, if it did so
before: where the block that was cut led here, its second part does now. -/
theorem Inserts.phi_labels_rewire (h : Inserts s finding condition s' host c)
    (hfits : Fits s finding condition c) (hs : s.function.Valid) {block part : Block}
    (hblock : block ∈ s.function.blocks) (hpart : part.label = block.label)
    (hsub : ∀ instr ∈ part.instrs, instr ∈ block.instrs) (hfirst : part.PhisFirst) {dest : String}
    {values : List (Operand × String)} (hphi : .phi dest values ∈ (c.rewire part).instrs)
    (label : String) :
    label ∈ values.map Prod.snd ↔ label ∈ s'.function.predecessors block.label := by
  have hnodup := hs.labels_nodup
  obtain ⟨old, hold, hvalues⟩ := Cut.exists_phi_of_mem_rewire hfirst hphi
  have hnamed := hs.phi_labels_iff block hblock dest old (hsub _ hold)
  -- A guard itself leads to no block with phis, so it adds no predecessor here.
  have hguard := h.not_mem_successors hfits hnodup hblock (hsub _ hold)
  have hcut := h.block_mem_predecessors_iff hnodup block.label
  rw [hvalues, h.mem_predecessors hnodup, List.mem_map, hpart]
  unfold Cut.arrival
  constructor
  · rintro ⟨pred, hpred, rfl⟩
    rw [hnamed] at hpred
    by_cases hredirect : block.label ∈ c.block.terminator.successors ∧ pred = c.block.label
    · rw [if_pos hredirect]
      exact .inr (.inl ⟨hredirect.1, rfl⟩)
    · rw [if_neg hredirect]
      refine .inr (.inr ⟨hpred, fun heq => hredirect ⟨?_, heq⟩⟩)
      rw [← hcut, ← heq]
      exact hpred
  · rintro (⟨hsucc, -⟩ | ⟨hsucc, rfl⟩ | ⟨hpred, hne⟩)
    · exact absurd hsucc hguard
    · exact ⟨c.block.label, (hnamed _).2 (hcut.2 hsucc), if_pos ⟨hsucc, rfl⟩⟩
    · exact ⟨label, (hnamed _).2 hpred, if_neg fun hredirect => hne hredirect.2⟩

/-- Phis still name exactly the blocks that lead to theirs. -/
theorem Inserts.phi_labels_iff (h : Inserts s finding condition s' host c)
    (hfits : Fits s finding condition c) (hs : s.function.Valid) {block : Block}
    (hblock : block ∈ s'.function.blocks) {dest : String} {values : List (Operand × String)}
    (hphi : .phi dest values ∈ block.instrs) (label : String) :
    label ∈ values.map Prod.snd ↔ label ∈ s'.function.predecessors block.label := by
  rcases (h.mem_blocks hs.labels_nodup).1 hblock with rfl | rfl | ⟨b, hb, -, rfl⟩
  · rcases List.mem_append.1 hphi with hphi | hextra
    · have hfront : c.front.label = c.block.label := rfl
      exact h.phi_labels_rewire hfits hs h.block_mem hfront (fun _ => List.mem_of_mem_take)
        (Cut.phisFirst_front (hs.phis_first c.block h.block_mem)) hphi label
    · obtain ⟨_, hgains, -⟩ := h.exists_gains hfits.valueType? hfits.isVacuous
      cases hgains.isPhi_eq_false _ hextra
  · cases hfits.isPhi_tail _ hphi
  · rw [Cut.label_rewire]
    exact h.phi_labels_rewire hfits hs hb rfl (fun _ => id) (hs.phis_first b hb) hphi label

/-- A guard keeps a function valid. -/
theorem Inserts.valid (h : Inserts s finding condition s' host c)
    (hfits : Fits s finding condition c) (hs : s.function.Valid) : s'.function.Valid where
  toLinked := h.linked hfits hs.toLinked
  toTyped := h.typed hfits hs.labels_nodup hs.toTyped
  toSingleDefs := h.singleDefs hfits hs.toTyped hs.toSingleDefs
  phi_labels_iff := fun _ hblock _ _ hphi => h.phi_labels_iff hfits hs hblock hphi

/-! ## The trap block -/

/-- The trap block defines nothing. -/
theorem definedNames_start (f : Function) : (start f).function.definedNames = f.definedNames := by
  rw [Function.definedNames_eq, Function.definedNames_eq]
  show (f.blocks ++ [_]).flatMap _ = _
  simp [trapBlock, Block.definedNames, Instr.dest?]

/-- The trap block leads nowhere. -/
theorem predecessors_start (f : Function) (label : String) :
    (start f).function.predecessors label = f.predecessors label := by
  show ((f.blocks ++ [_]).filter _).map _ = _
  simp [trapBlock, Terminator.successors, Function.predecessors]

/-- With its trap block, a function stays valid. -/
theorem valid_start (hf : f.Valid) : (start f).function.Valid where
  toLinked := linked_start hf.toLinked
  toTyped := typed_start hf.toTyped
  definedNames_nodup := by
    rw [definedNames_start]
    exact hf.definedNames_nodup
  params_not_mem := by
    rw [definedNames_start]
    exact hf.params_not_mem
  phi_labels_iff := by
    intro block hblock dest values hphi label
    rw [predecessors_start]
    rcases mem_blocks_start.1 hblock with hblock | rfl
    · exact hf.phi_labels_iff block hblock dest values hphi label
    · simp [trapBlock] at hphi

/-! ## Guarding a function -/

/-- What guards keep of the function that a splicer started from: it is valid, its blocks have their
labels and places, its names their types, and blocks end as they did or branch on a truth value that
they define. -/
structure Keeps (f : Function) (s : Splicer) : Prop where
  valid : s.function.Valid
  labels_prefix : f.labels <+: s.function.labels
  valueType? : ∀ name ty, f.valueType? name = some ty → s.function.valueType? name = some ty
  branches : ∀ block ∈ s.function.blocks, (∃ b ∈ f.blocks, b.terminator = block.terminator) ∨
    block.BranchesOwn s.function.valueType?

/-- Nothing but the trap block is added at the start. -/
theorem keeps_start (hf : f.Valid) : Keeps f (start f) where
  valid := valid_start hf
  labels_prefix := by
    rw [labels_start]
    exact List.prefix_append _ _
  valueType? := fun _ _ h => h
  branches := by
    intro block hblock
    rcases mem_blocks_start.1 hblock with hblock | rfl
    · exact .inl ⟨block, hblock, rfl⟩
    · exact .inr fun _ _ _ h => by cases h

/-- A guard keeps what guards keep. -/
theorem Inserts.keeps (h : Inserts s finding condition s' host c) (ht : Tracks f s)
    (hs : Keeps f s) (hfits : Fits s finding condition c) (hfinding : finding.block ∈ f.labels) :
    Keeps f s' := by
  obtain ⟨temps, hgains, hterm⟩ := h.exists_gains hfits.valueType? hfits.isVacuous
  refine ⟨h.valid hfits hs.valid, ?_, fun name ty hname => ?_, ?_⟩
  · rw [h.labels_eq]
    exact hs.labels_prefix.trans (List.prefix_append _ _)
  · exact hgains.valueType?_of_some (hs.valueType? name ty hname)
  · intro block hblock
    -- The first part ends with the guard, the second as the block did, others as before.
    rcases (h.mem_blocks ht.labels_nodup).1 hblock with rfl | rfl | ⟨b, hb, -, rfl⟩
    · refine .inr fun cond ifTrue ifFalse hbranch => ?_
      rw [Cut.terminator_head] at hbranch
      rcases hterm with hterm | ⟨result, hterm, htype, hmem⟩
      · rw [hterm] at hbranch
        cases hbranch
      · rw [hterm] at hbranch
        cases hbranch
        refine ⟨result, rfl, htype, ?_⟩
        rw [Cut.definedNames_head]
        obtain ⟨instr, hinstr, hdest⟩ := List.mem_map.1 hmem
        exact List.mem_append_right _ (List.mem_filterMap.2 ⟨instr, hinstr, hdest⟩)
    · obtain ⟨block, hmem, hlabel⟩ := Function.mem_labels.1 hfinding
      refine .inl ⟨block, hmem, ?_⟩
      rw [Cut.terminator_tail, (h.block_eq ht hmem hlabel).2]
    · rw [Cut.terminator_rewire]
      refine (hs.branches b hb).imp_right fun hown cond ifTrue ifFalse hbranch => ?_
      rw [Cut.terminator_rewire] at hbranch
      obtain ⟨name, hcond, htype, hmem⟩ := hown cond ifTrue ifFalse hbranch
      refine ⟨name, hcond, hgains.valueType?_of_some htype, ?_⟩
      rwa [Block.definedNames_congr (c.map_unlabelled_rewire b)]

end Splicer

/-- A guarded function is valid if the function is: linked, typed and in single-assignment form,
with phis that name exactly the blocks that lead to theirs. It is still entered at the same block,
and wherever it branches as the function does not, it does so on a truth value defined in the same
block. -/
theorem Session.instrument_valid {session : Session} {settings : Settings} {source : FactSource}
    {f : Function} {report : Report} (hf : f.Valid)
    (h : (session.instrument settings source f).result = .ok report) :
    (session.instrument settings source f).subject.Valid ∧
    (∀ entry, f.blocks.head? = some entry →
      ∃ entry', (session.instrument settings source f).subject.blocks.head? = some entry' ∧
        entry'.label = entry.label) ∧
    ∀ block ∈ (session.instrument settings source f).subject.blocks,
      (∀ b ∈ f.blocks, b.terminator ≠ block.terminator) →
        block.BranchesOwn (session.instrument settings source f).subject.valueType? := by
  rcases instrument_eq_ok hf.labels_nodup h with ⟨-, hsubject⟩ | ⟨-, oracle, s, -, -, hs, hsubject⟩
  · rw [hsubject]
    exact ⟨hf, fun entry hentry => ⟨entry, hentry, rfl⟩,
      fun block hblock hother => absurd rfl (hother block hblock)⟩
  · have hawaits := Splicer.awaits_start hf.labels_nodup oracle
    rw [← settings.map_fst_calls (f.survey oracle).findings] at hawaits
    -- The invariant holds at the start, and every guard keeps it.
    have hkeeps : Splicer.Keeps f s := by
      refine (Splicer.tracks_start hf.labels_nodup).guardEach_induction
        (P := fun _ => Splicer.Keeps f)
        [] hawaits hs (Splicer.keeps_start hf) (fun _ _ _ _ _ hkeeps => hkeeps)
        fun _ t t' call host c hcall hvacuous htracks hc hkeeps => ?_
      obtain ⟨d, hd, hdescribes⟩ := hawaits.exists_definition call.1 (List.mem_map_of_mem hcall)
      have hlabel : call.1.block ∈ f.labels := by
        rw [hdescribes.block_eq]
        exact Function.mem_labels_of_mem_definitions hd
      have hfits :=
        hc.fits htracks hkeeps.valid.toLinked hkeeps.valueType? hvacuous hd hdescribes
      exact hc.keeps htracks hkeeps hfits hlabel
    rw [hsubject]
    refine ⟨hkeeps.valid, fun entry hentry => ?_, fun block hblock hother => ?_⟩
    · -- New labels come behind those of the function, so its entry is still the first block.
      obtain ⟨more, hmore⟩ := hkeeps.labels_prefix
      have hlabels : s.function.labels.head? = some entry.label := by
        rw [← hmore, List.head?_append, Function.labels, List.head?_map, hentry]
        rfl
      rw [Function.labels, List.head?_map] at hlabels
      exact Option.map_eq_some_iff.1 hlabels
    · rcases hkeeps.branches block hblock with ⟨b, hb, heq⟩ | hown
      · exact absurd heq (hother b hb)
      · exact hown

/-- The guarded countdown is valid. -/
theorem Session.instrument_valid_countdown : countdown.Valid ∧ ∃ report,
    (start.instrument Settings.default (fun _ => .ok countdownOracle) countdown).result
      = .ok report ∧
    (start.instrument Settings.default (fun _ => .ok countdownOracle) countdown).subject.Valid :=
  ⟨countdown_valid, _, rfl, (instrument_valid countdown_valid rfl).1⟩

end FactGuard
