import FactGuard.Proofs.Site.Chain
import FactGuard.Proofs.Site.Report

/-!
# What guarding makes of a function

A guarded function holds the pieces of every block, in place of which the first piece stands, and
one block more, the trap block (`Function.Guarded`). Every guard keeps this up, dividing one piece
(`Splicer.Divides.chained`), so it is what guarding a function leads to, with as many pieces more
as the report counts guards (`Session.instrument_guarded`).
-/

namespace FactGuard

/-- The pieces of a block in their order. -/
structure Chain where
  /-- Those that end with a guard. -/
  guarded : List Block
  /-- What is left of the block. -/
  last : Block

namespace Chain

/-- All pieces. -/
def blocks (chain : Chain) : List Block := chain.guarded ++ [chain.last]

/-- The pieces after a cut of another block. -/
def rewire (chain : Chain) (c : Cut) : Chain := ⟨chain.guarded.map c.rewire, c.rewire chain.last⟩

/-- The pieces after a cut of the last one. -/
def divide (chain : Chain) (c : Cut) : Chain := ⟨chain.guarded.map c.rewire ++ [c.head], c.tail⟩

theorem blocks_rewire (chain : Chain) (c : Cut) :
    (chain.rewire c).blocks = chain.blocks.map c.rewire := by
  simp [blocks, rewire]

/-- The pieces after a cut of the last one of a block. -/
def after (chain : String → Chain) (block : String) (c : Cut) (label : String) : Chain :=
  if block = label then (chain label).divide c else (chain label).rewire c

theorem blocks_divide (chain : Chain) (c : Cut) :
    (chain.divide c).blocks = chain.guarded.map c.rewire ++ [c.head, c.tail] := by
  simp [blocks, divide]

end Chain

namespace Function

/-- The label by which the phis of the block `label` know the block `pred`: that of its last piece
if it leads there. -/
def arrival (f : Function) (chain : String → Chain) (label pred : String) : String :=
  if pred ∈ f.predecessors label then (chain pred).last.label else pred

/-- What guards make of a function: it has more locals, under new names, and for every block the
pieces that its guards divide it into, the first one in its place, where phis know blocks by their
last pieces. There is one block more, which is the trap block. -/
structure Guarded (f : Function) (calls : List (Finding × Condition)) (trap : String)
    (temps : Bindings Ty) (chain : String → Chain) (g : Function) : Prop where
  header_eq : g.header = { f.header with locals := f.locals ++ temps }
  temps_nodup : temps.names.Nodup
  temps_not_mem : ∀ name ∈ temps.names, name ∉ f.declarations.names
  labels_nodup : g.labels.Nodup
  trap_not_mem : trap ∉ f.labels
  blocks_perm : g.blocks.Perm
    (f.blocks.flatMap (fun block => (chain block.label).blocks) ++ [trapBlock trap])
  exists_first : ∀ (i : Nat) (block : Block), f.blocks[i]? = some block → ∃ first : Block,
    (chain block.label).blocks.head? = some first ∧ first.label = block.label ∧
    g.blocks[i]? = some first
  divided : ∀ block ∈ f.blocks, Divided trap temps.names block.terminator block.label 0
    (calls.filter fun call => call.1.block = block.label)
    (block.instrs.map (Instr.relabel (f.arrival chain block.label)))
    (chain block.label).guarded (chain block.label).last

variable {f g : Function} {calls : List (Finding × Condition)} {trap : String}
  {temps : Bindings Ty} {chain : String → Chain}

/-- Every block as its only piece. -/
def chains (f : Function) (label : String) : Chain := ⟨[], (f.block? label).getD default⟩

/-- The first block with a label is the only one. -/
theorem block?_of_mem (hf : f.labels.Nodup) {block : Block} (hblock : block ∈ f.blocks) :
    f.block? block.label = some block := by
  unfold block?
  cases hfind : f.blocks.find? (·.label == block.label) with
  | none => exact absurd (List.find?_eq_none.1 hfind block hblock) (by simp)
  | some other =>
    have hlabel : other.label = block.label := by simpa using List.find?_some hfind
    rw [eq_of_label_eq hf (List.mem_of_find?_eq_some hfind) hblock hlabel]

namespace Guarded

/-- The pieces of a block are blocks of the function. -/
theorem mem_blocks (h : f.Guarded calls trap temps chain g) {block piece : Block}
    (hblock : block ∈ f.blocks) (hpiece : piece ∈ (chain block.label).blocks) :
    piece ∈ g.blocks :=
  h.blocks_perm.symm.subset (List.mem_append_left _ (List.mem_flatMap.2 ⟨block, hblock, hpiece⟩))

/-- The last piece of a block is a block of the function. -/
theorem last_mem (h : f.Guarded calls trap temps chain g) {block : Block}
    (hblock : block ∈ f.blocks) : (chain block.label).last ∈ g.blocks :=
  h.mem_blocks hblock (List.mem_append_right _ (List.mem_singleton_self _))

/-- Labels of the function stay. -/
theorem mem_labels (h : f.Guarded calls trap temps chain g) {label : String}
    (hlabel : label ∈ f.labels) : label ∈ g.labels := by
  obtain ⟨block, hblock, rfl⟩ := Function.mem_labels.1 hlabel
  obtain ⟨i, hi⟩ := List.mem_iff_getElem?.1 hblock
  obtain ⟨first, -, hfirst, hget⟩ := h.exists_first i block hi
  exact Function.mem_labels.2 ⟨first, List.mem_of_getElem? hget, hfirst⟩

/-- The new locals are declared behind all others. -/
theorem declarations_eq (h : f.Guarded calls trap temps chain g) :
    g.declarations = f.declarations ++ temps := by
  show g.header.declarations = _
  rw [h.header_eq]
  exact (List.append_assoc ..).symm

end Guarded

end Function

namespace Splicer

/-- What a splicer has made of the function that it started from, when it is done with some
findings: the rest of a block is its last piece, which has an old label only if the block has no
other pieces. -/
structure Chained (f : Function) (done : List (Finding × Condition)) (temps : Bindings Ty)
    (chain : String → Chain) (s : Splicer) : Prop
    extends f.Guarded done s.trap temps chain s.function where
  length_eq : s.function.blocks.length = f.blocks.length + 1 + done.length
  label_last : ∀ label ∈ f.labels, (chain label).last.label = (s.cursor label).label
  base_eq : ∀ label ∈ f.labels,
    (s.cursor label).base = endIndex 0 (done.filter fun call => call.1.block = label)
  undivided : ∀ label ∈ f.labels, (s.cursor label).label ∈ f.labels →
    (s.cursor label).label = label ∧ (chain label).guarded = []

variable {f : Function} {s s' : Splicer} {finding : Finding} {condition : Condition}
  {done : List (Finding × Condition)} {temps : Bindings Ty} {chain : String → Chain}
  {host : Nat} {c : Cut} {found : Block} {instr : Instr}

/-- Phis know a block by where the splicer has its rest. -/
theorem arrival_eq_of_label_last
    (h : ∀ label ∈ f.labels, (chain label).last.label = (s.cursor label).label)
    (label pred : String) : f.arrival chain label pred = s.arrival f label pred := by
  unfold Function.arrival arrival
  split_ifs with hleads
  · obtain ⟨block, hblock, -, rfl⟩ := Function.mem_predecessors.1 hleads
    exact h _ (Function.mem_labels.2 ⟨block, hblock, rfl⟩)
  · rfl

/-! ## The start -/

/-- At the start, every block is its only piece. -/
theorem chained_start (hf : f.labels.Nodup) : Chained f [] [] f.chains (start f) := by
  have hlast : ∀ block ∈ f.blocks, f.chains block.label = ⟨[], block⟩ := fun block hblock => by
    rw [Function.chains, Function.block?_of_mem hf hblock, Option.getD_some]
  have hlabel : ∀ label ∈ f.labels, (f.chains label).last.label = label := by
    intro label hlabel
    obtain ⟨block, hblock, rfl⟩ := Function.mem_labels.1 hlabel
    rw [hlast block hblock]
  have hblocks : f.blocks.flatMap (fun block => (f.chains block.label).blocks) = f.blocks := by
    calc f.blocks.flatMap (fun block => (f.chains block.label).blocks)
        = f.blocks.flatMap List.singleton :=
          List.flatMap_congr fun block hblock => by
            rw [hlast block hblock]
            rfl
      _ = f.blocks := List.flatMap_singleton' _
  -- No block has moved, so phis know every block by its own label.
  have harrival : ∀ label pred, f.arrival f.chains label pred = pred := by
    intro label pred
    unfold Function.arrival
    split_ifs with hleads
    · obtain ⟨other, hother, -, rfl⟩ := Function.mem_predecessors.1 hleads
      exact hlabel _ (Function.mem_labels.2 ⟨other, hother, rfl⟩)
    · rfl
  refine ⟨⟨?_, by simp, by simp, ?_, trap_start_not_mem f, ?_, ?_, ?_⟩, ?_, hlabel, ?_, ?_⟩
  · simp [start, Function.header]
  · exact (tracks_start hf).labels_nodup
  · rw [hblocks]
    exact List.Perm.refl _
  · intro i block hget
    refine ⟨block, by rw [hlast block (List.mem_of_getElem? hget)]; rfl, rfl, ?_⟩
    obtain ⟨hlt, -⟩ := List.getElem?_eq_some_iff.1 hget
    show (f.blocks ++ _)[i]? = _
    rw [List.getElem?_append_left hlt, hget]
  · intro block hblock
    have hsame : block.instrs.map (Instr.relabel (f.arrival f.chains block.label))
        = block.instrs := by
      refine (List.map_congr_left fun instr _ => ?_).trans (List.map_id _)
      cases instr <;> simp [Instr.relabel, harrival]
    rw [hsame, hlast block hblock]
    exact .last block.label 0 block.instrs
  · show (f.blocks ++ [_]).length = _
    rw [List.length_append]
    rfl
  · exact fun _ _ => rfl
  · exact fun _ _ _ => ⟨rfl, rfl⟩

/-! ## One more guard -/

/-- A guard is put in behind the instruction of a finding, in a function whose phis stand first and
name its own blocks. -/
structure Divides (f : Function) (s : Splicer) (finding : Finding) (condition : Condition)
    (s' : Splicer) (host : Nat) (c : Cut) (found : Block) (instr : Instr) : Prop
    extends Inserts s finding condition s' host c where
  labels_nodup : f.labels.Nodup
  phis_first : ∀ block ∈ f.blocks, block.PhisFirst
  phi_labels_mem : ∀ block ∈ f.blocks, ∀ instr ∈ block.instrs, ∀ label ∈ instr.phiLabels,
    label ∈ f.labels
  tracks : Tracks f s
  found_mem : found ∈ f.blocks
  found_label : found.label = finding.block
  getElem?_eq : found.instrs[finding.index]? = some instr
  not_isPhi : instr.isPhi = false
  dest?_eq : instr.dest? = some finding.value
  valueType?_eq : f.valueType? finding.value = some finding.ty
  isVacuous : condition.isVacuous = false

/-- A guard of a finding that describes a definition is put in behind the instruction there. -/
theorem Inserts.exists_divides (h : Inserts s finding condition s' host c)
    (hf : f.labels.Nodup) (hphis : ∀ block ∈ f.blocks, block.PhisFirst)
    (hlabels : ∀ block ∈ f.blocks, ∀ instr ∈ block.instrs, ∀ label ∈ instr.phiLabels,
      label ∈ f.labels)
    (hs : Tracks f s) (hvacuous : condition.isVacuous = false) {d : Definition}
    (hd : d ∈ f.definitions) (hdescribes : finding.Describes f d) :
    ∃ found instr, Divides f s finding condition s' host c found instr := by
  obtain ⟨found, hfound, hdef⟩ := Function.mem_definitions.1 hd
  obtain ⟨hlabel, hinstr, hphi, hdest⟩ := Block.mem_definitions.1 hdef
  exact ⟨found, d.instr, h, hf, hphis, hlabels, hs, hfound,
    hlabel.symm.trans hdescribes.block_eq.symm, by rw [hdescribes.index_eq, hinstr], hphi,
    by rw [hdest, hdescribes.value_eq], hdescribes.valueType?_eq, hvacuous⟩

namespace Divides

theorem finding_mem (h : Divides f s finding condition s' host c found instr) :
    finding.block ∈ f.labels := Function.mem_labels.2 ⟨found, h.found_mem, h.found_label⟩

/-- The block that is cut is the last piece of the finding's block. -/
theorem last_eq (h : Divides f s finding condition s' host c found instr)
    (hs : Chained f done temps chain s) : (chain finding.block).last = c.block := by
  refine Function.eq_of_label_eq h.tracks.labels_nodup ?_ h.block_mem ?_
  · rw [← h.found_label]
    exact hs.last_mem h.found_mem
  · rw [hs.label_last _ h.finding_mem, h.label_block]

/-- The block that is cut holds the guarded instruction. -/
theorem getElem?_block (h : Divides f s finding condition s' host c found instr) :
    c.block.instrs[finding.index - (s.cursor finding.block).base]? = some instr :=
  getElem?_rest (h.block_eq h.tracks h.found_mem h.found_label).1 h.base_le h.getElem?_eq
    h.not_isPhi

/-- The last piece holds instructions of the block that is cut, so its phis stand first. -/
theorem phisFirst_block (h : Divides f s finding condition s' host c found instr) :
    c.block.PhisFirst := by
  have hinstrs := (h.block_eq h.tracks h.found_mem h.found_label).1
  rw [← List.map_drop] at hinstrs
  have hdrop : Block.PhisFirst ⟨found.label, found.instrs.drop (s.cursor finding.block).base,
      found.terminator⟩ := by
    have hfound := h.phis_first found h.found_mem
    rw [Block.phisFirst_iff] at hfound ⊢
    exact hfound.sublist (List.drop_sublist _ _)
  exact hdrop.congr hinstrs

/-- The cut is behind the guarded instruction, which comes as far behind the cursor as the finding
says. -/
theorem exists_slice (h : Divides f s finding condition s' host c found instr)
    (hextra : ∀ instr ∈ c.extra, instr.isPhi = false) :
    ∃ slice rest, c.block.instrs = slice ++ instr :: rest ∧
      (s.cursor finding.block).base + slice.length = finding.index ∧
      c.head = c.rewire ⟨c.block.label, slice ++ instr :: c.extra, c.terminator⟩ ∧
      c.tail = c.rewire ⟨c.label, rest, c.block.terminator⟩ := by
  obtain ⟨hlt, hget⟩ := List.getElem?_eq_some_iff.1 h.getElem?_block
  have hbase := h.base_le
  refine ⟨c.block.instrs.take (finding.index - (s.cursor finding.block).base),
    c.block.instrs.drop c.count, ?_, ?_, ?_, rfl⟩
  · rw [h.count_eq, ← hget, List.getElem_cons_drop, List.take_append_drop]
  · rw [List.length_take]
    omega
  · rw [Cut.head_eq h.phisFirst_block hextra, h.count_eq, List.take_succ_eq_append_getElem hlt,
      hget, List.append_assoc, List.singleton_append]

/-- The function gains the locals of the guard, and the first part of the cut ends with it. -/
theorem exists_exits (h : Divides f s finding condition s' host c found instr)
    (hs : Chained f done temps chain s) :
    ∃ more, s.function.Gains s'.function more c.extra ∧
      condition.Exits s.trap c.label c.extra c.terminator := by
  have hty : s.function.valueType? finding.value = some finding.ty := by
    unfold Function.valueType?
    rw [hs.declarations_eq]
    exact Bindings.get?_append_of_some _ h.valueType?_eq
  obtain ⟨more, hgains, hexit⟩ := h.exists_gains hty h.isVacuous
  refine ⟨more, hgains, ?_⟩
  cases condition with
  | always =>
    obtain ⟨hextra, hterminator, -⟩ := h.always rfl
    rw [hextra, hterminator]
    exact .always
  | violated guard =>
    obtain ⟨_, -, -, hterminator, -⟩ := h.violated guard rfl
    rcases hexit with hgoto | ⟨result, hbranch, -, hresult⟩
    · rw [hterminator] at hgoto
      cases hgoto
    · rw [hbranch]
      exact .violated hresult

/-- Labels of last pieces are still those of cursors. -/
theorem label_last (h : Divides f s finding condition s' host c found instr)
    (hs : Chained f done temps chain s) {label : String} (hlabel : label ∈ f.labels) :
    (Chain.after chain finding.block c label).last.label = (s'.cursor label).label := by
  unfold Chain.after
  rw [h.cursor_eq]
  split_ifs
  · exact c.label_tail
  · exact (c.label_rewire _).trans (hs.label_last label hlabel)

/-- Phis are relabelled as the cut does it. -/
theorem map_relabel (h : Divides f s finding condition s' host c found instr)
    (hs : Chained f done temps chain s) {block : Block} (hblock : block ∈ f.blocks) :
    block.instrs.map (Instr.relabel (f.arrival (Chain.after chain finding.block c) block.label))
      = (block.instrs.map (Instr.relabel (f.arrival chain block.label))).map
          (Instr.relabel (c.arrival block.label)) := by
  rw [List.map_map]
  refine List.map_congr_left fun instr hinstr => ?_
  rw [Function.comp_apply, Instr.relabel_relabel]
  refine Instr.relabel_congr fun label hnamed => ?_
  have hlabel := h.phi_labels_mem block hblock instr hinstr label hnamed
  have hcursor := fun hmem => (hs.undivided finding.block h.finding_mem hmem).1
  calc f.arrival (Chain.after chain finding.block c) block.label label
      = s'.arrival f block.label label :=
        arrival_eq_of_label_last (fun _ hpred => h.label_last hs hpred) block.label label
    _ = c.arrival block.label (s.arrival f block.label label) :=
        h.toInserts.arrival_eq h.tracks h.labels_nodup h.found_mem h.found_label hcursor _ hlabel
    _ = c.arrival block.label (f.arrival chain block.label label) := by
        rw [arrival_eq_of_label_last hs.label_last]

/-- Guards still divide every block. -/
theorem divided (h : Divides f s finding condition s' host c found instr)
    (hs : Chained f done temps chain s) {more : Bindings Ty}
    (hgains : s.function.Gains s'.function more c.extra)
    (hexits : condition.Exits s.trap c.label c.extra c.terminator) {block : Block}
    (hblock : block ∈ f.blocks) :
    Divided s'.trap (temps ++ more).names block.terminator block.label 0
      ((done ++ [(finding, condition)]).filter fun call => call.1.block = block.label)
      (block.instrs.map
        (Instr.relabel (f.arrival (Chain.after chain finding.block c) block.label)))
      (Chain.after chain finding.block c block.label).guarded
      (Chain.after chain finding.block c block.label).last := by
  have hlabel : block.label ∈ f.labels := Function.mem_labels.2 ⟨block, hblock, rfl⟩
  have hfirst : (block.instrs.map (Instr.relabel (f.arrival chain block.label))).Pairwise
      fun a b => b.isPhi = true → a.isPhi = true := by
    rw [List.pairwise_map]
    simpa only [Instr.isPhi_relabel] using Block.phisFirst_iff.1 (h.phis_first block hblock)
  have hdivided := (hs.divided block hblock).mono
    (List.subset_append_left temps.names more.names)
  rw [h.map_relabel hs hblock, h.trap_eq, Bindings.names_append, List.filter_append]
  unfold Chain.after
  by_cases heq : finding.block = block.label
  · -- The block has one guard more, which divides its last piece.
    have hcalls : [(finding, condition)].filter (fun call => call.1.block = block.label)
        = [(finding, condition)] := by simp [heq]
    rw [if_pos heq, hcalls]
    obtain ⟨slice, rest, hinstrs, hindex, hhead, htail⟩ := h.exists_slice hgains.isPhi_eq_false
    rw [heq, hs.base_eq _ hlabel] at hindex
    rw [← heq, h.last_eq hs, heq] at hdivided
    have hextra : ∀ other ∈ c.extra, other.isPhi = false ∧
        ∃ name ∈ temps.names ++ more.names, other.dest? = some name := by
      intro other hother
      have hdest : other.dest? ∈ more.names.map some := by
        rw [← hgains.dests_eq]
        exact List.mem_map_of_mem hother
      obtain ⟨name, hname, hdest⟩ := List.mem_map.1 hdest
      exact ⟨hgains.isPhi_eq_false other hother, name, List.mem_append_right _ hname, hdest.symm⟩
    have hcut := (hdivided.cut (finding, condition) hinstrs hindex h.dest?_eq h.not_isPhi hextra
      hexits).rewire hfirst c
    rw [List.map_append, List.map_singleton, ← hhead, ← hdivided.terminator_last, ← htail] at hcut
    rw [← hdivided.terminator_last]
    exact hcut
  · have hcalls : [(finding, condition)].filter (fun call => call.1.block = block.label) = [] := by
      simp [heq]
    rw [if_neg heq, hcalls, List.append_nil]
    exact hdivided.rewire hfirst c

/-- The function still consists of the pieces of all blocks and the trap block. -/
theorem blocks_perm (h : Divides f s finding condition s' host c found instr)
    (hs : Chained f done temps chain s) :
    s'.function.blocks.Perm (f.blocks.flatMap
      (fun block => (Chain.after chain finding.block c block.label).blocks)
        ++ [trapBlock s'.trap]) := by
  obtain ⟨before, behind, hblocks⟩ := List.append_of_mem h.found_mem
  -- The blocks before and behind that of the finding have other labels.
  have hlabels := h.labels_nodup
  unfold Function.labels at hlabels
  rw [hblocks, List.map_append, List.map_cons, List.nodup_append', List.nodup_cons] at hlabels
  obtain ⟨-, ⟨hbehind, -⟩, hbefore⟩ := hlabels
  have hothers : ∀ blocks : List Block, found.label ∉ blocks.map (·.label) →
      blocks.flatMap (fun block => (Chain.after chain finding.block c block.label).blocks)
        = (blocks.flatMap fun block => (chain block.label).blocks).map c.rewire := by
    intro blocks hnot
    rw [List.map_flatMap]
    refine List.flatMap_congr fun block hblock => ?_
    have hne : finding.block ≠ block.label := fun heq =>
      hnot (List.mem_map.2 ⟨block, hblock, by rw [← heq, h.found_label]⟩)
    rw [Chain.after, if_neg hne, Chain.blocks_rewire]
  have hfound : (Chain.after chain finding.block c found.label).blocks
      = (chain found.label).guarded.map c.rewire ++ [c.head, c.tail] := by
    rw [Chain.after, if_pos h.found_label.symm, Chain.blocks_divide]
  have hlast : (chain found.label).last = c.block := by rw [h.found_label, h.last_eq hs]
  have hperm := hs.blocks_perm
  rw [hblocks, List.flatMap_append, List.flatMap_cons, Chain.blocks, hlast] at hperm
  have hcut := c.blocks_perm
    (before.flatMap (fun block => (chain block.label).blocks) ++ (chain found.label).guarded)
    (behind.flatMap (fun block => (chain block.label).blocks) ++ [trapBlock s.trap])
    h.host_eq (by simpa using hperm)
  have htrap : c.rewire (trapBlock s.trap) = trapBlock s.trap :=
    Cut.rewire_of_isPhi_eq_false fun instr hinstr => by
      rw [List.mem_singleton.1 hinstr]
      rfl
  rw [h.blocks_eq, h.trap_eq, hblocks, List.flatMap_append, List.flatMap_cons, hfound,
    hothers before fun hmem => hbefore hmem List.mem_cons_self, hothers behind hbehind]
  simpa [htrap] using hcut

/-- The first piece of a block still stands in its place. -/
theorem exists_first (h : Divides f s finding condition s' host c found instr)
    (hs : Chained f done temps chain s) {i : Nat} {block : Block}
    (hblock : f.blocks[i]? = some block) :
    ∃ first, (Chain.after chain finding.block c block.label).blocks.head? = some first ∧
      first.label = block.label ∧ s'.function.blocks[i]? = some first := by
  obtain ⟨first, hhead, hlabel, hget⟩ := hs.exists_first i block hblock
  have hmem : block.label ∈ f.labels :=
    Function.mem_labels.2 ⟨block, List.mem_of_getElem? hblock, rfl⟩
  obtain ⟨hlt, -⟩ := List.getElem?_eq_some_iff.1 hget
  have hset : s'.function.blocks[i]? = if host = i then some c.head else some (c.rewire first) := by
    rw [h.blocks_eq, Cut.blocks, List.getElem?_append_left (by simpa using hlt), List.getElem?_set,
      List.getElem?_map, hget]
    split_ifs with hhost hlen
    · rfl
    · rw [hhost, List.length_map] at hlen
      exact absurd hlt hlen
    · rfl
  -- If the first piece is the one that is cut, the block is that of the finding, and undivided.
  have hcut : host = i → (s.cursor finding.block).label = block.label ∧ first = c.block := by
    rintro rfl
    rw [h.host_eq] at hget
    have hsame := Option.some.inj hget
    exact ⟨by rw [← h.label_block, hsame, hlabel], hsame.symm⟩
  unfold Chain.after
  by_cases heq : finding.block = block.label
  · rw [if_pos heq, Chain.blocks_divide]
    cases hguarded : (chain block.label).guarded with
    | nil =>
      have hlast := h.last_eq hs
      rw [heq] at hlast
      rw [Chain.blocks, hguarded, List.nil_append, List.head?_cons, hlast] at hhead
      cases hhead
      have hhost : host = i :=
        Function.index_eq_of_label_eq h.tracks.labels_nodup h.host_eq hget rfl
      exact ⟨c.head, rfl, by rw [Cut.label_head, hlabel], by rw [hset, if_pos hhost]⟩
    | cons piece pieces =>
      have hhost : host ≠ i := fun hhost => by
        have hundivided := (hs.undivided _ h.finding_mem (by rwa [(hcut hhost).1])).2
        rw [heq, hguarded] at hundivided
        cases hundivided
      rw [Chain.blocks, hguarded, List.cons_append, List.head?_cons] at hhead
      cases hhead
      exact ⟨c.rewire first, rfl, by rw [Cut.label_rewire, hlabel], by rw [hset, if_neg hhost]⟩
  · have hhost : host ≠ i := fun hhost => by
      have hcursor := (hcut hhost).1
      exact heq ((hs.undivided _ h.finding_mem (by rwa [hcursor])).1.symm.trans hcursor)
    rw [if_neg heq, Chain.blocks_rewire, List.head?_map, hhead]
    exact ⟨c.rewire first, rfl, by rw [Cut.label_rewire, hlabel], by rw [hset, if_neg hhost]⟩

/-- A guard divides one more piece and leaves everything else as it is. -/
theorem chained (h : Divides f s finding condition s' host c found instr)
    (hs : Chained f done temps chain s) {more : Bindings Ty}
    (hgains : s.function.Gains s'.function more c.extra)
    (hexits : condition.Exits s.trap c.label c.extra c.terminator) :
    Chained f (done ++ [(finding, condition)]) (temps ++ more)
      (Chain.after chain finding.block c) s' where
  header_eq := by
    have hlocals : s.function.locals = f.locals ++ temps := by
      show s.function.header.locals = _
      rw [hs.header_eq]
    rw [hgains.header_eq, hs.header_eq, hlocals, List.append_assoc]
  temps_nodup := by
    rw [Bindings.names_append]
    refine List.nodup_append'.2 ⟨hs.temps_nodup, hgains.names_nodup, fun name hold hnew => ?_⟩
    refine hgains.names_not_mem name hnew ?_
    rw [hs.declarations_eq, Bindings.names_append]
    exact List.mem_append_right _ hold
  temps_not_mem := by
    intro name hname hold
    rw [Bindings.names_append] at hname
    rcases List.mem_append.1 hname with hname | hname
    · exact hs.temps_not_mem name hname hold
    · refine hgains.names_not_mem name hname ?_
      rw [hs.declarations_eq, Bindings.names_append]
      exact List.mem_append_left _ hold
  labels_nodup := h.toInserts.labels_nodup h.tracks.labels_nodup
  trap_not_mem := by
    rw [h.trap_eq]
    exact hs.trap_not_mem
  blocks_perm := h.blocks_perm hs
  exists_first := fun _ _ => h.exists_first hs
  divided := fun _ => h.divided hs hgains hexits
  length_eq := by
    have hlength : s'.function.blocks.length = s.function.blocks.length + 1 := by
      rw [h.blocks_eq, Cut.blocks]
      simp
    rw [hlength, hs.length_eq, List.length_append]
    rfl
  label_last := fun _ => h.label_last hs
  base_eq := by
    intro label hlabel
    rw [h.cursor_eq, List.filter_append]
    split_ifs with heq
    · have hcall : [(finding, condition)].filter (fun call => call.1.block = label)
          = [(finding, condition)] := by simp [heq]
      rw [hcall, endIndex_append_singleton]
    · have hcall : [(finding, condition)].filter (fun call => call.1.block = label) = [] := by
        simp [heq]
      rw [hcall, List.append_nil]
      exact hs.base_eq label hlabel
  undivided := by
    intro label hlabel
    rw [h.cursor_eq, Chain.after]
    split_ifs with heq
    · -- The last piece of the finding's block has a new label.
      exact fun hmem => absurd (hs.mem_labels hmem) h.label_not_mem
    · intro hmem
      obtain ⟨hcursor, hguarded⟩ := hs.undivided label hlabel hmem
      exact ⟨hcursor, by rw [Chain.rewire, hguarded, List.map_nil]⟩

end Divides

/-! ## All guards -/

/-- Guarding the findings of a survey divides blocks by the guards that are put in. -/
theorem exists_chained (hf : f.labels.Nodup) (hphis : ∀ block ∈ f.blocks, block.PhisFirst)
    (hlabels : ∀ block ∈ f.blocks, ∀ instr ∈ block.instrs, ∀ label ∈ instr.phiLabels,
      label ∈ f.labels)
    {settings : Settings} {oracle : Oracle}
    (h : (start f).guardEach (settings.calls (f.survey oracle).findings) = .ok s) :
    ∃ temps chain, Chained f (settings.guards (f.survey oracle).findings) temps chain s := by
  have hawaits := awaits_start hf oracle
  rw [← settings.map_fst_calls (f.survey oracle).findings] at hawaits
  refine (tracks_start hf).guardEach_induction (P := fun done t => ∃ temps chain,
    Chained f (done.filter fun call => !call.2.isVacuous) temps chain t) [] hawaits h
    ⟨[], f.chains, chained_start hf⟩ ?_ ?_
  · intro done t call _ hvacuous ht
    simpa [hvacuous] using ht
  · rintro done t t' ⟨finding, condition⟩ host c hcall hvacuous htracks hinserts ⟨temps, chain, ht⟩
    obtain ⟨other, hfinding, heq⟩ := List.mem_map.1 hcall
    cases heq
    obtain ⟨d, hd, hfound⟩ := Function.exists_definition hfinding
    obtain ⟨found, instr, hdivides⟩ := hinserts.exists_divides hf hphis hlabels htracks hvacuous hd
      (Oracle.describes_of_found hfound)
    obtain ⟨more, hgains, hexits⟩ := hdivides.exists_exits ht
    exact ⟨_, _, by simpa [hvacuous] using hdivides.chained ht hgains hexits⟩

end Splicer

namespace Session

/-- What guarding makes of a function whose phis stand first and name blocks of the function, if it
goes through and the function is not skipped: nothing is lost, duplicated or reordered. Every block
becomes a chain of pieces, divided behind the instructions that have a guard, and there is one block
more and one for each guard that the report counts. -/
theorem instrument_guarded (session : Session) (settings : Settings) (source : FactSource)
    {f : Function} (hf : f.labels.Nodup) (hphis : ∀ block ∈ f.blocks, block.PhisFirst)
    (hlabels : ∀ block ∈ f.blocks, ∀ instr ∈ block.instrs, ∀ label ∈ instr.phiLabels,
      label ∈ f.labels)
    (hskip : settings.skips f.name = false) {report : Report}
    (h : (session.instrument settings source f).result = .ok report) :
    ∃ oracle trap temps chain, source f = .ok oracle ∧
      f.Guarded (settings.guards (f.survey oracle).findings) trap temps chain
        (session.instrument settings source f).subject ∧
      (session.instrument settings source f).subject.blocks.length
        = f.blocks.length + 1 + report.sites := by
  rcases instrument_eq_ok hf h with ⟨hskipped, -⟩ | ⟨-, oracle, s, hsource, -, hguards, hsubject⟩
  · rw [hskip] at hskipped
    cases hskipped
  rcases instrument_report h with ⟨hskipped, -⟩ | ⟨-, oracle', hsource', -, hreport⟩
  · rw [hskip] at hskipped
    cases hskipped
  rw [hsource] at hsource'
  cases hsource'
  obtain ⟨temps, chain, hs⟩ := Splicer.exists_chained hf hphis hlabels hguards
  rw [hsubject, hreport]
  exact ⟨oracle, s.trap, temps, chain, hsource, hs.toGuarded, hs.length_eq⟩

/-- The countdown has one guard, so its loop becomes two pieces, and there are five blocks. -/
theorem instrument_guarded_countdown :
    countdown.labels.Nodup ∧ (∀ block ∈ countdown.blocks, block.PhisFirst) ∧
      (∀ block ∈ countdown.blocks, ∀ instr ∈ block.instrs, ∀ label ∈ instr.phiLabels,
        label ∈ countdown.labels) ∧
      Settings.default.skips countdown.name = false ∧
      ∃ report trap temps chain,
        (start.instrument Settings.default (fun _ => .ok countdownOracle) countdown).result
          = .ok report ∧ report.sites = 1 ∧
        countdown.Guarded
          (Settings.default.guards (countdown.survey countdownOracle).findings) trap temps chain
          (start.instrument Settings.default (fun _ => .ok countdownOracle) countdown).subject ∧
        (start.instrument Settings.default
          (fun _ => .ok countdownOracle) countdown).subject.blocks.length = 5 := by
  have hlabels : ∀ block ∈ countdown.blocks, ∀ instr ∈ block.instrs,
      ∀ label ∈ instr.phiLabels, label ∈ countdown.labels := by decide
  have hskip : Settings.default.skips countdown.name = false := rfl
  obtain ⟨oracle, trap, temps, chain, hsource, hguarded, hlength⟩ :=
    start.instrument_guarded Settings.default (fun _ => .ok countdownOracle)
      countdown_valid.labels_nodup countdown_valid.phis_first hlabels hskip rfl
  cases hsource
  exact ⟨countdown_valid.labels_nodup, countdown_valid.phis_first, hlabels, hskip, _, trap, temps,
    chain, rfl, rfl, hguarded, hlength⟩

end Session

end FactGuard
