import FactGuard.Proofs.Site.Findings
import FactGuard.Proofs.Site.Insertion
import FactGuard.Site.Instrument

/-!
# Where a splicer finds its instructions

A splicer keeps track of every block of the function that it started from: the block of the cursor's
label holds the instructions from the cursor's base on, up to the labels that its phis name
(`Splicer.Tracks`). Guards keep this up, so the findings of a survey, taken in their order, are all
found where they are looked for, and guarding them does not fail.
-/

namespace FactGuard

namespace Splicer

/-- What a splicer knows of the function that it started from: it has a trap block, the block of a
cursor's label holds the rest of the cursor's block and ends as that does, and no two blocks have
their rests in the same place. -/
structure Tracks (f : Function) (s : Splicer) : Prop where
  labels_nodup : s.function.labels.Nodup
  trap_mem : trapBlock s.trap ∈ s.function.blocks
  exists_rest : ∀ block ∈ f.blocks, ∃ rest ∈ s.function.blocks,
    rest.label = (s.cursor block.label).label ∧
    rest.instrs.map Instr.unlabelled
      = (block.instrs.map Instr.unlabelled).drop (s.cursor block.label).base ∧
    rest.terminator = block.terminator
  cursor_injective : ∀ a ∈ f.labels, ∀ b ∈ f.labels,
    (s.cursor a).label = (s.cursor b).label → a = b

/-- The findings describe definitions that the splicer has not passed, in their order. -/
structure Awaits (f : Function) (s : Splicer) (findings : List Finding) : Prop where
  exists_definition : ∀ finding ∈ findings, ∃ d ∈ f.definitions, finding.Describes f d
  base_le : ∀ finding ∈ findings, (s.cursor finding.block).base ≤ finding.index
  pairwise : findings.Pairwise fun a b => a.block = b.block → a.index < b.index

variable {f : Function} {s s' : Splicer} {finding : Finding} {condition : Condition}

/-- The cursors after a guard: that of the finding's block has moved on. -/
theorem Inserts.cursor_eq {host : Nat} {c : Cut} (h : Inserts s finding condition s' host c)
    (block : String) :
    s'.cursor block
      = if finding.block = block then ⟨c.label, finding.index + 1⟩ else s.cursor block := by
  unfold cursor
  rw [h.cursors_eq, Bindings.get?_insert]
  split_ifs <;> rfl

/-- The label of the second part is new. -/
theorem Inserts.label_not_mem {host : Nat} {c : Cut} (h : Inserts s finding condition s' host c) :
    c.label ∉ s.function.labels := by
  rw [h.label_eq]
  exact s.function.freshLabel_not_mem _

/-- A guard adds one label at the end. -/
theorem Inserts.labels_eq {host : Nat} {c : Cut} (h : Inserts s finding condition s' host c) :
    s'.function.labels = s.function.labels ++ [c.label] := by
  unfold Function.labels
  rw [h.blocks_eq, c.map_label_blocks h.host_eq]

/-- Labels stay distinct. -/
theorem Inserts.labels_nodup {host : Nat} {c : Cut} (h : Inserts s finding condition s' host c)
    (hs : s.function.labels.Nodup) : s'.function.labels.Nodup := by
  rw [h.labels_eq]
  exact List.nodup_append'.2 ⟨hs, by simp, by simpa using h.label_not_mem⟩

/-- A block of the function after a guard is a part of the block that was cut, or a rewired one. -/
theorem Inserts.mem_blocks {host : Nat} {c : Cut} (h : Inserts s finding condition s' host c)
    (hs : s.function.labels.Nodup) {block : Block} :
    block ∈ s'.function.blocks ↔ block = c.head ∨ block = c.tail ∨
      ∃ b ∈ s.function.blocks, b.label ≠ c.block.label ∧ block = c.rewire b := by
  rw [h.blocks_eq]
  exact Cut.mem_blocks hs h.host_eq

/-- The block that is cut is one of the function. -/
theorem Inserts.block_mem {host : Nat} {c : Cut} (h : Inserts s finding condition s' host c) :
    c.block ∈ s.function.blocks := List.mem_of_getElem? h.host_eq

/-! ## Tracking -/

/-- The trap block comes last. -/
theorem labels_start (f : Function) : (start f).function.labels = f.labels ++ [(start f).trap] :=
  List.map_append

/-- The label of the trap block is new. -/
theorem trap_start_not_mem (f : Function) : (start f).trap ∉ f.labels :=
  f.freshLabel_not_mem trapLabel

/-- At the start, every block is its own rest. -/
theorem tracks_start (hf : f.labels.Nodup) : Tracks f (start f) where
  labels_nodup := by
    rw [labels_start]
    exact List.nodup_append'.2 ⟨hf, by simp, by simpa using trap_start_not_mem f⟩
  trap_mem := List.mem_append_right _ (List.mem_singleton_self _)
  exists_rest := fun block hblock =>
    ⟨block, List.mem_append_left _ hblock, rfl, List.drop_zero.symm, rfl⟩
  cursor_injective := fun _ _ _ _ h => h

/-- The label of a cursor is that of a block. -/
theorem Tracks.cursor_mem (h : Tracks f s) {block : String} (hblock : block ∈ f.labels) :
    (s.cursor block).label ∈ s.function.labels := by
  obtain ⟨b, hb, rfl⟩ := Function.mem_labels.1 hblock
  obtain ⟨rest, hrest, hlabel, -⟩ := h.exists_rest b hb
  exact Function.mem_labels.2 ⟨rest, hrest, hlabel⟩

/-- The block that a guard cuts is the rest of the finding's block. -/
theorem Inserts.block_eq {host : Nat} {c : Cut} (h : Inserts s finding condition s' host c)
    (hs : Tracks f s) {block : Block} (hblock : block ∈ f.blocks)
    (hlabel : block.label = finding.block) :
    c.block.instrs.map Instr.unlabelled
      = (block.instrs.map Instr.unlabelled).drop (s.cursor finding.block).base ∧
    c.block.terminator = block.terminator := by
  obtain ⟨rest, hrest, hrestLabel, hinstrs, hterm⟩ := hs.exists_rest block hblock
  have hcut : c.block = rest := by
    refine Function.eq_of_label_eq hs.labels_nodup (List.mem_of_getElem? h.host_eq) hrest ?_
    rw [h.label_block, hrestLabel, hlabel]
  rw [hcut, ← hlabel]
  exact ⟨hinstrs, hterm⟩

/-- A guard keeps track of all blocks: the rest of the block that it cuts is the second part, and
other rests are rewired at most. -/
theorem Inserts.tracks {host : Nat} {c : Cut} (h : Inserts s finding condition s' host c)
    (hs : Tracks f s) (hfinding : finding.block ∈ f.labels) : Tracks f s' where
  labels_nodup := h.labels_nodup hs.labels_nodup
  trap_mem := by
    rw [h.trap_eq]
    refine (h.mem_blocks hs.labels_nodup).2 (.inr (.inr ⟨_, hs.trap_mem, fun hlabel => ?_, ?_⟩))
    · -- The trap block defines nothing, so it is not the block that is cut.
      have hcut := Function.eq_of_label_eq hs.labels_nodup hs.trap_mem h.block_mem hlabel
      have hdefines := h.defines
      obtain ⟨instr, hinstr, hdest⟩ := Option.bind_eq_some_iff.1 hdefines
      have hmem := List.mem_of_getElem? hinstr
      rw [← hcut, trapBlock, List.mem_singleton] at hmem
      rw [hmem] at hdest
      cases hdest
    · unfold Cut.rewire Block.redirectIn
      split_ifs <;> rfl
  exists_rest := by
    intro block hblock
    rw [h.cursor_eq]
    split_ifs with heq
    · -- The block was cut, and what is left of it now is the second part.
      obtain ⟨hinstrs, hterm⟩ := h.block_eq hs hblock heq.symm
      have hbase := h.base_le
      refine ⟨c.tail, (h.mem_blocks hs.labels_nodup).2 (.inr (.inl rfl)), c.label_tail, ?_, ?_⟩
      · rw [Cut.tail, Cut.map_unlabelled_rewire, List.map_drop, hinstrs, List.drop_drop, h.count_eq]
        congr 1
        show _ = finding.index + 1
        omega
      · rw [c.terminator_tail, hterm]
    · obtain ⟨rest, hrest, hlabel, hinstrs, hterm⟩ := hs.exists_rest block hblock
      have hne : rest.label ≠ c.block.label := by
        rw [hlabel, h.label_block]
        intro hsame
        exact heq (hs.cursor_injective _ hfinding _
          (Function.mem_labels.2 ⟨block, hblock, rfl⟩) hsame.symm)
      refine ⟨c.rewire rest,
        (h.mem_blocks hs.labels_nodup).2 (.inr (.inr ⟨rest, hrest, hne, rfl⟩)), ?_, ?_, ?_⟩
      · rw [Cut.label_rewire, hlabel]
      · rw [Cut.map_unlabelled_rewire, hinstrs]
      · rw [Cut.terminator_rewire, hterm]
  cursor_injective := by
    intro a ha b hb hab
    rw [h.cursor_eq, h.cursor_eq] at hab
    split_ifs at hab with hfa hfb hfb
    · exact hfa.symm.trans hfb
    · exact absurd (by rw [show c.label = _ from hab]; exact hs.cursor_mem hb) h.label_not_mem
    · exact absurd (by rw [show c.label = _ from hab.symm]; exact hs.cursor_mem ha) h.label_not_mem
    · exact hs.cursor_injective a ha b hb hab

/-! ## Awaited findings -/

/-- An instruction of a block that is no phi is in the rest of the block. -/
theorem getElem?_rest {rest block : Block} {base index : Nat} {instr : Instr}
    (hinstrs : rest.instrs.map Instr.unlabelled = (block.instrs.map Instr.unlabelled).drop base)
    (hle : base ≤ index) (hget : block.instrs[index]? = some instr) (hphi : instr.isPhi = false) :
    rest.instrs[index - base]? = some instr := by
  have hsame : (rest.instrs.map Instr.unlabelled)[index - base]? = some instr.unlabelled := by
    rw [hinstrs, List.getElem?_drop, List.getElem?_map, Nat.add_sub_cancel' hle, hget,
      Option.map_some]
  rw [List.getElem?_map] at hsame
  obtain ⟨other, hother, heq⟩ := Option.map_eq_some_iff.1 hsame
  rw [hother, Instr.eq_of_unlabelled_eq heq hphi]

/-- Where a finding that is not too late is looked for, the rest of its block has an instruction
that defines its value just if the block has one at its index. -/
theorem Tracks.locate_eq (hs : Tracks f s) {block : Block} (hblock : block ∈ f.blocks)
    (hlabel : block.label = finding.block)
    (hle : (s.cursor finding.block).base ≤ finding.index) :
    ∃ host, s.locate finding
      = if block.instrs[finding.index]?.bind Instr.dest? = some finding.value
        then .ok (host, finding.index - (s.cursor finding.block).base)
        else .error (.missingSuccessor finding.value (s.cursor finding.block).label) := by
  obtain ⟨rest, hrest, hrestLabel, hinstrs, -⟩ := hs.exists_rest block hblock
  rw [hlabel] at hrestLabel hinstrs
  obtain ⟨host, hhost⟩ := List.mem_iff_getElem?.1 hrest
  have hposition : s.function.position? (s.cursor finding.block).label = some host :=
    (Function.position?_eq_some_iff hs.labels_nodup _ _).2 ⟨rest, hhost, hrestLabel⟩
  -- Labels of phis apart, the instruction there is the one at the index in the block.
  have hsame : ∀ (instrs : List Instr) (i : Nat),
      (instrs.map Instr.unlabelled)[i]?.bind Instr.dest? = instrs[i]?.bind Instr.dest? :=
    fun instrs i => by rw [List.getElem?_map]; cases instrs[i]? <;> simp
  have hdest : rest.instrs[finding.index - (s.cursor finding.block).base]?.bind Instr.dest?
      = block.instrs[finding.index]?.bind Instr.dest? := by
    rw [← hsame, hinstrs, List.getElem?_drop, Nat.add_sub_cancel' hle, hsame]
  refine ⟨host, ?_⟩
  unfold locate
  dsimp only
  rw [if_neg (by omega), hposition]
  dsimp only
  rw [hhost, Option.bind_some, hdest]
  rfl

/-- A finding that a splicer awaits is located. -/
theorem Tracks.exists_locate (hs : Tracks f s) {rest : List Finding}
    (hawaits : Awaits f s (finding :: rest)) : ∃ place, s.locate finding = .ok place := by
  obtain ⟨d, hd, hblock, hindex, hvalue, -⟩ := hawaits.exists_definition finding (by simp)
  obtain ⟨block, hmem, hdef⟩ := Function.mem_definitions.1 hd
  obtain ⟨hlabel, hinstr, hphi, hdest⟩ := Block.mem_definitions.1 hdef
  obtain ⟨host, hlocate⟩ := hs.locate_eq hmem (hlabel.symm.trans hblock.symm)
    (hawaits.base_le finding (by simp))
  have hdefines : block.instrs[finding.index]?.bind Instr.dest? = some finding.value := by
    rw [hindex, hinstr, Option.bind_some, hdest, hvalue]
  exact ⟨_, by rw [hlocate, if_pos hdefines]⟩

/-- Findings that are not guarded any more are awaited by whoever awaits more. -/
theorem Awaits.sublist {findings more : List Finding} (h : Awaits f s more)
    (hsub : findings.Sublist more) : Awaits f s findings where
  exists_definition := fun finding hfinding => h.exists_definition finding (hsub.subset hfinding)
  base_le := fun finding hfinding => h.base_le finding (hsub.subset hfinding)
  pairwise := h.pairwise.sublist hsub

/-- A guard passes no finding that comes after it. -/
theorem Inserts.awaits {host : Nat} {c : Cut} (h : Inserts s finding condition s' host c)
    {rest : List Finding} (hawaits : Awaits f s (finding :: rest)) : Awaits f s' rest where
  exists_definition := fun other hother => hawaits.exists_definition other (by simp [hother])
  base_le := by
    intro other hother
    rw [h.cursor_eq]
    split_ifs with heq
    · exact (List.pairwise_cons.1 hawaits.pairwise).1 other hother heq
    · exact hawaits.base_le other (by simp [hother])
  pairwise := (List.pairwise_cons.1 hawaits.pairwise).2

/-- At the start, all findings of a survey are awaited. -/
theorem awaits_start (hf : f.labels.Nodup) (oracle : Oracle) :
    Awaits f (start f) (f.survey oracle).findings where
  exists_definition := by
    intro finding hfinding
    obtain ⟨d, hd, hfound⟩ := Function.exists_definition hfinding
    exact ⟨d, hd, Oracle.describes_of_found hfound⟩
  base_le := fun _ _ => Nat.zero_le _
  pairwise := Function.pairwise_findings hf oracle

end Splicer

end FactGuard
