import FactGuard.Proofs.Site.Atomicity
import FactGuard.Proofs.Site.Rewired

/-!
# Guarded functions are linked and typed

The first part of a cut ends with the instructions of a guard and goes to the trap block
(`Splicer.Inserts.exists_gains`). Labels and locals are fresh, so they stay distinct, and the
instructions of a guard come with their types. So a function stays linked and typed when it gets its
trap block, and with every guard that is put in (`Splicer.Inserts.linked`, `Splicer.Inserts.typed`).
-/

namespace FactGuard

/-! ## What a guard adds -/

theorem Function.declarations_of_header_eq {f g : Function} (h : g.header = f.header) :
    g.declarations = f.declarations := by
  show g.header.declarations = f.header.declarations
  rw [h]

/-- What a function gains does not depend on its blocks. -/
theorem Function.Gains.congr {f f' g g' : Function} {temps : Bindings Ty} {instrs : List Instr}
    (h : f.Gains f' temps instrs) (hg : g.header = f.header) (hg' : g'.header = f'.header) :
    g.Gains g' temps instrs where
  header_eq := by
    have hlocals : g.locals = f.locals := by
      show g.header.locals = f.header.locals
      rw [hg]
    rw [hg', hg, h.header_eq, hlocals]
  names_nodup := h.names_nodup
  names_not_mem := by
    rw [Function.declarations_of_header_eq hg]
    exact h.names_not_mem
  dests_eq := h.dests_eq
  isPhi_eq_false := h.isPhi_eq_false
  instr_names_mem := by
    rw [Function.declarations_of_header_eq hg']
    exact h.instr_names_mem
  fitsTypes := by
    unfold Function.valueType?
    rw [Function.declarations_of_header_eq hg']
    exact h.fitsTypes

/-- The names that gained instructions define are those of the gained locals. -/
theorem Function.Gains.filterMap_dest? {f f' : Function} {temps : Bindings Ty} {instrs : List Instr}
    (h : f.Gains f' temps instrs) : instrs.filterMap Instr.dest? = temps.names := by
  calc instrs.filterMap Instr.dest?
      = (instrs.map Instr.dest?).filterMap id := by
        rw [List.filterMap_map]
        rfl
    _ = temps.names := by
        rw [h.dests_eq, List.filterMap_map]
        exact List.filterMap_some

namespace Splicer

variable {f : Function} {s s' : Splicer} {finding : Finding} {condition : Condition} {host : Nat}
  {c : Cut}

/-- The first part of the cut goes to the trap block, always or if a truth value that it defines is
one, and the function gains the locals of its instructions. -/
theorem Inserts.exists_gains (h : Inserts s finding condition s' host c)
    (hty : s.function.valueType? finding.value = some finding.ty)
    (hvacuous : condition.isVacuous = false) :
    ∃ temps, s.function.Gains s'.function temps c.extra ∧
      (c.terminator = .goto s.trap ∨
        ∃ result, c.terminator = .branch (.place result) s.trap c.label ∧
        s'.function.valueType? result = some .bool ∧ some result ∈ c.extra.map Instr.dest?) := by
  cases condition with
  | always =>
    obtain ⟨hextra, hterm, hheader⟩ := h.always rfl
    refine ⟨[], ?_, .inl hterm⟩
    rw [hextra]
    exact (Function.Gains.refl s.function).congr rfl hheader
  | violated guard =>
    obtain ⟨g, hg, hextra, hterm, hheader⟩ := h.violated guard rfl
    have hterms : guard.terms ≠ [] := by simpa [Condition.isVacuous] using hvacuous
    -- Splitting leaves the declarations alone, so the guard finds the type of the value.
    have hvalue : g.valueType? finding.value = some finding.ty := by
      unfold Function.valueType? at hty ⊢
      rw [Function.declarations_of_header_eq hg, hty]
    obtain ⟨temps, result, hgains, hresult, htype, hmem⟩ := Guard.lower_gains hterms hvalue
    refine ⟨temps, ?_, .inr ⟨result, by rw [hterm, hresult], ?_, by rw [hextra]; exact hmem⟩⟩
    · rw [hextra]
      exact hgains.congr hg.symm hheader
    · unfold Function.valueType? at htype ⊢
      rw [Function.declarations_of_header_eq hheader, htype]

/-- The labels of the function stay. -/
theorem Inserts.mem_labels (h : Inserts s finding condition s' host c) {label : String}
    (hlabel : label ∈ s.function.labels) : label ∈ s'.function.labels := by
  rw [h.labels_eq]
  exact List.mem_append_left _ hlabel

/-! ## What stays valid -/

/-- What a guard needs to keep a function valid: there is a trap block, the value of the finding has
its type, the instruction behind which the block is cut is no phi, and there is something to check.
-/
structure Fits (s : Splicer) (finding : Finding) (condition : Condition) (c : Cut) : Prop where
  trap_mem : trapBlock s.trap ∈ s.function.blocks
  valueType? : s.function.valueType? finding.value = some finding.ty
  isVacuous : condition.isVacuous = false
  isPhi_tail : ∀ instr ∈ c.tail.instrs, instr.isPhi = false

/-- A guard for a finding that describes a definition fits: the value has its type, and the
instruction that defines it is no phi. -/
theorem Inserts.fits (h : Inserts s finding condition s' host c) (ht : Tracks f s)
    (hs : s.function.Linked)
    (htypes : ∀ name ty, f.valueType? name = some ty → s.function.valueType? name = some ty)
    (hvacuous : condition.isVacuous = false) {d : Definition} (hd : d ∈ f.definitions)
    (hdescribes : finding.Describes f d) :
    Fits s finding condition c where
  trap_mem := ht.trap_mem
  valueType? := htypes _ _ hdescribes.valueType?_eq
  isVacuous := hvacuous
  isPhi_tail := by
    obtain ⟨block, hmem, hdef⟩ := Function.mem_definitions.1 hd
    obtain ⟨hlabel, hinstr, hphi, -⟩ := Block.mem_definitions.1 hdef
    obtain ⟨hinstrs, -⟩ := h.block_eq ht hmem (hlabel.symm.trans hdescribes.block_eq.symm)
    have hget := getElem?_rest hinstrs (hdescribes.index_eq ▸ h.base_le) hinstr hphi
    exact Cut.isPhi_tail (hs.phis_first c.block h.block_mem) hget hphi
      (by rw [h.count_eq, hdescribes.index_eq])

/-- Where the first part of a cut leads. -/
theorem Inserts.successors_subset (h : Inserts s finding condition s' host c)
    (hfits : Fits s finding condition c) {label : String} (hlabel : label ∈ c.terminator.successors) :
    label = s.trap ∨ label = c.label := by
  obtain ⟨_, -, hterm | ⟨_, hterm, -⟩⟩ := h.exists_gains hfits.valueType? hfits.isVacuous
  · rw [hterm, Terminator.successors, List.mem_singleton] at hlabel
    exact .inl hlabel
  · rw [hterm] at hlabel
    simpa [Terminator.successors] using hlabel

/-- The function stays linked. -/
theorem Inserts.linked (h : Inserts s finding condition s' host c)
    (hfits : Fits s finding condition c) (hs : s.function.Linked) : s'.function.Linked where
  labels_nodup := h.labels_nodup hs.labels_nodup
  targets_mem := by
    intro block hblock label hlabel
    rcases (h.mem_blocks hs.labels_nodup).1 hblock with rfl | rfl | ⟨b, hb, -, rfl⟩
    · rcases h.successors_subset hfits hlabel with rfl | rfl
      · exact h.mem_labels (Function.mem_labels.2 ⟨_, hfits.trap_mem, rfl⟩)
      · rw [h.labels_eq]
        exact List.mem_append_right _ (List.mem_singleton_self _)
    · rw [Cut.terminator_tail] at hlabel
      exact h.mem_labels (hs.targets_mem c.block h.block_mem label hlabel)
    · rw [Cut.terminator_rewire] at hlabel
      exact h.mem_labels (hs.targets_mem b hb label hlabel)
  phis_first := by
    intro block hblock
    obtain ⟨_, hgains, -⟩ := h.exists_gains hfits.valueType? hfits.isVacuous
    rcases (h.mem_blocks hs.labels_nodup).1 hblock with rfl | rfl | ⟨b, hb, -, rfl⟩
    · exact Cut.phisFirst_head (hs.phis_first c.block h.block_mem) hgains.isPhi_eq_false
    · exact Cut.phisFirst_tail (hs.phis_first c.block h.block_mem)
    · exact (hs.phis_first b hb).congr (c.map_unlabelled_rewire b)

/-- An instruction of the function after a guard is one of the function before, up to labels, or one
of the guard. -/
theorem Inserts.exists_of_mem_instrs (h : Inserts s finding condition s' host c)
    (hs : s.function.labels.Nodup) {block : Block} (hblock : block ∈ s'.function.blocks)
    {instr : Instr} (hinstr : instr ∈ block.instrs) :
    (∃ b ∈ s.function.blocks, ∃ old ∈ b.instrs, old.unlabelled = instr.unlabelled) ∨
      instr ∈ c.extra := by
  rcases (h.mem_blocks hs).1 hblock with rfl | rfl | ⟨b, hb, -, rfl⟩
  · rcases Cut.exists_of_mem_head hinstr with hold | hextra
    · exact .inl ⟨c.block, h.block_mem, hold⟩
    · exact .inr hextra
  · exact .inl ⟨c.block, h.block_mem, Cut.exists_of_mem_tail hinstr⟩
  · exact .inl ⟨b, hb, Cut.exists_of_mem_rewire hinstr⟩

/-- The function stays typed. -/
theorem Inserts.typed (h : Inserts s finding condition s' host c)
    (hfits : Fits s finding condition c) (hnodup : s.function.labels.Nodup)
    (hs : s.function.Typed) : s'.function.Typed := by
  obtain ⟨temps, hgains, hterm⟩ := h.exists_gains hfits.valueType? hfits.isVacuous
  -- Instructions are old ones up to labels, or those of the guard.
  constructor
  · exact hgains.nodup hs.names_nodup
  · intro block hblock instr hinstr name hname
    rcases h.exists_of_mem_instrs hnodup hblock hinstr with ⟨b, hb, old, hold, heq⟩ | hextra
    · rw [← Instr.names_unlabelled, ← heq, Instr.names_unlabelled] at hname
      exact hgains.mem_names (hs.instr_names_mem b hb old hold name hname)
    · exact hgains.instr_names_mem instr hextra name hname
  · intro block hblock name hname
    rcases (h.mem_blocks hnodup).1 hblock with rfl | rfl | ⟨b, hb, -, rfl⟩
    · -- The new terminator reads the result of the guard, or nothing.
      rcases hterm with hterm | ⟨result, hterm, htype, -⟩
      · rw [Cut.terminator_head, hterm] at hname
        simp [Terminator.names, Terminator.operands] at hname
      · rw [Cut.terminator_head, hterm] at hname
        simp only [Terminator.names, Terminator.operands, List.flatMap_cons, List.flatMap_nil,
          List.append_nil, Operand.names, List.mem_singleton] at hname
        subst hname
        exact (Bindings.isSome_get?_iff _ _).1 (Option.isSome_of_eq_some htype)
    · rw [Cut.terminator_tail] at hname
      exact hgains.mem_names (hs.terminator_names_mem c.block h.block_mem name hname)
    · rw [Cut.terminator_rewire] at hname
      exact hgains.mem_names (hs.terminator_names_mem b hb name hname)
  · intro block hblock instr hinstr
    rcases h.exists_of_mem_instrs hnodup hblock hinstr with ⟨b, hb, old, hold, heq⟩ | hextra
    · rw [← Instr.fitsTypes_unlabelled, ← heq, Instr.fitsTypes_unlabelled]
      exact (hs.fitsTypes b hb old hold).congr fun name hname =>
        hgains.valueType?_eq (hs.instr_names_mem b hb old hold name hname)
    · exact hgains.fitsTypes instr hextra

/-! ## The trap block -/

theorem mem_blocks_start {block : Block} : block ∈ (start f).function.blocks ↔
    block ∈ f.blocks ∨ block = trapBlock (start f).trap := by
  show block ∈ f.blocks ++ [_] ↔ _
  rw [List.mem_append, List.mem_singleton]
  rfl

/-- With its trap block, a function stays linked. -/
theorem linked_start (hf : f.Linked) : (start f).function.Linked where
  labels_nodup := (tracks_start hf.labels_nodup).labels_nodup
  targets_mem := by
    intro block hblock label hsucc
    rw [labels_start]
    rcases mem_blocks_start.1 hblock with hblock | rfl
    · exact List.mem_append_left _ (hf.targets_mem block hblock label hsucc)
    · simp [trapBlock, Terminator.successors] at hsucc
  phis_first := by
    intro block hblock
    rcases mem_blocks_start.1 hblock with hblock | rfl
    · exact hf.phis_first block hblock
    · simp [Block.PhisFirst, trapBlock, Block.body, Instr.isPhi]

/-- With its trap block, a function stays typed. -/
theorem typed_start (hf : f.Typed) : (start f).function.Typed where
  names_nodup := hf.names_nodup
  instr_names_mem := by
    intro block hblock instr hinstr name hname
    rcases mem_blocks_start.1 hblock with hblock | rfl
    · exact hf.instr_names_mem block hblock instr hinstr name hname
    · rw [List.mem_singleton.1 hinstr] at hname
      simp [Instr.names, Instr.dest?, Instr.operands] at hname
  terminator_names_mem := by
    intro block hblock name hname
    rcases mem_blocks_start.1 hblock with hblock | rfl
    · exact hf.terminator_names_mem block hblock name hname
    · simp [trapBlock, Terminator.names, Terminator.operands] at hname
  fitsTypes := by
    intro block hblock instr hinstr
    rcases mem_blocks_start.1 hblock with hblock | rfl
    · exact hf.fitsTypes block hblock instr hinstr
    · rw [List.mem_singleton.1 hinstr]
      trivial

end Splicer

end FactGuard
