import FactGuard.Proofs.Site.Layout

/-!
# Spreading a block over pieces

A guard that is put in behind an instruction (`Splicer.Cuts`) moves what follows into a new piece.
Each part of `Splicer.Spread` is kept by that (`Cuts.extension`, `Cuts.places`, `Cuts.pieces`,
`Cuts.homes`), and so, from the start on, by guarding all findings (`Splicer.exists_guards`).
-/

namespace FactGuard

namespace Splicer

/-- A guard is put in behind the instruction of a finding, which is that of a block of the function
that the splicer started from. -/
structure Cuts (f : Function) (s : Splicer) (finding : Finding) (condition : Condition)
    (s' : Splicer) (host : Nat) (c : Cut) (found : Block) (instr : Instr) : Prop
    extends Inserts s finding condition s' host c, Fits s finding condition c where
  labels_nodup : f.labels.Nodup
  tracks : Tracks f s
  linked : s.function.Linked
  found_mem : found ∈ f.blocks
  found_label : found.label = finding.block
  getElem?_eq : found.instrs[finding.index]? = some instr
  not_isPhi : instr.isPhi = false

variable {f : Function} {s s' : Splicer} {finding : Finding} {condition : Condition}
  {layout : Layout} {done : List (Finding × Condition)} {host : Nat} {c : Cut} {found : Block}
  {instr : Instr}

namespace Cuts

theorem finding_mem (h : Cuts f s finding condition s' host c found instr) :
    finding.block ∈ f.labels := Function.mem_labels.2 ⟨found, h.found_mem, h.found_label⟩

/-- A block with the label of the finding's block is that block. -/
theorem eq_found (h : Cuts f s finding condition s' host c found instr) {block : Block}
    (hblock : block ∈ f.blocks) (hlabel : finding.block = block.label) : block = found :=
  Function.eq_of_label_eq h.labels_nodup hblock h.found_mem (hlabel.symm.trans h.found_label.symm)

/-- A label of the function is not the new one. -/
theorem label_ne (h : Cuts f s finding condition s' host c found instr) (hs : Extends f s)
    {label : String} (hlabel : label ∈ f.labels) : label ≠ c.label := fun heq =>
  h.label_not_mem (heq ▸ hs.mem_labels hlabel)

/-- No instruction was in the new piece. -/
theorem place_ne_label (h : Cuts f s finding condition s' host c found instr)
    (hs : Places f done layout s) {label : String} (hlabel : label ∈ f.labels) (index : Nat) :
    (layout.place label index).1 ≠ c.label := fun heq =>
  h.label_not_mem (heq ▸ hs.place_mem label hlabel index)

/-- The block that is cut holds the instructions from the cursor on. -/
theorem getElem?_block (h : Cuts f s finding condition s' host c found instr) {index : Nat}
    (hbase : (s.cursor finding.block).base ≤ index) {other : Instr}
    (hget : found.instrs[index]? = some other) (hphi : other.isPhi = false) :
    c.block.instrs[index - (s.cursor finding.block).base]? = some other :=
  getElem?_rest (h.block_eq h.tracks h.found_mem h.found_label).1 hbase hget hphi

/-! ## What a guard does to phis -/

/-- Phis still know a block by the label of its last piece. -/
theorem arrival_eq (h : Cuts f s finding condition s' host c found instr)
    (hs : Places f done layout s) (label : String) {pred : String} (hpred : pred ∈ f.labels) :
    s'.arrival f label pred = c.arrival label (s.arrival f label pred) :=
  h.toInserts.arrival_eq h.tracks h.labels_nodup h.found_mem h.found_label
    (hs.cursor_mem _ h.finding_mem) label hpred

/-- The first piece of a block still has its phis. -/
theorem exists_first (h : Cuts f s finding condition s' host c found instr)
    (hs : Spread f done layout s) (hf : f.WellFormed) {block : Block} (hblock : block ∈ f.blocks) :
    ∃ piece ∈ s'.function.blocks, piece.label = block.label ∧
      piece.phis = block.phis.map (Instr.relabel (s'.arrival f block.label)) := by
  obtain ⟨piece, hpiece, hlabel, hphis⟩ := hs.exists_first block hblock
  -- Relabelling once more for this cut is relabelling for all cuts so far.
  have hrelabel : piece.phis.map (Instr.relabel (c.arrival piece.label))
      = block.phis.map (Instr.relabel (s'.arrival f block.label)) := by
    rw [hphis, List.map_map]
    refine List.map_congr_left fun phi hphi => ?_
    rw [Function.comp_apply, Instr.relabel_relabel, hlabel]
    refine Instr.relabel_congr fun label hnamed => ?_
    refine (h.arrival_eq hs.toPlaces block.label ?_).symm
    exact hf.phi_labels_mem block hblock phi ((List.takeWhile_prefix _).subset hphi) label hnamed
  by_cases hcut : piece.label = c.block.label
  · -- The first piece is the one that is cut, behind its phis.
    have hsame := Function.eq_of_label_eq h.tracks.labels_nodup hpiece h.block_mem hcut
    refine ⟨c.head, (h.mem_blocks h.tracks.labels_nodup).2 (.inl rfl), ?_, ?_⟩
    · rw [Cut.label_head, ← hcut, hlabel]
    · have hget := h.getElem?_block h.base_le h.getElem?_eq h.not_isPhi
      rw [Cut.phis_head hget h.not_isPhi h.count_eq, ← hrelabel, hsame]
  · refine ⟨c.rewire piece,
      (h.mem_blocks h.tracks.labels_nodup).2 (.inr (.inr ⟨piece, hpiece, hcut, rfl⟩)), ?_, ?_⟩
    · rw [Cut.label_rewire, hlabel]
    · rw [Cut.phis_rewire, hrelabel]

/-! ## What a guard does to the piece that is cut -/

/-- The first part holds the instructions up to the guarded one. -/
theorem getElem?_head (h : Cuts f s finding condition s' host c found instr) {index : Nat}
    (hbase : (s.cursor finding.block).base ≤ index) (hle : index ≤ finding.index) {other : Instr}
    (hget : found.instrs[index]? = some other) (hphi : other.isPhi = false) :
    c.head.instrs[index - (s.cursor finding.block).base]? = some other := by
  have hcut := h.getElem?_block hbase hget hphi
  have hfront : c.front.instrs[index - (s.cursor finding.block).base]? = some other := by
    have hcount := h.count_eq
    show (c.block.instrs.take c.count)[_]? = _
    rw [List.getElem?_take_of_lt (by omega), hcut]
  have hrewired := c.getElem?_rewire hfront hphi
  obtain ⟨hlt, -⟩ := List.getElem?_eq_some_iff.1 hrewired
  show ((c.rewire c.front).instrs ++ c.extra)[_]? = _
  rw [List.getElem?_append_left hlt, hrewired]

/-- Behind the guarded instruction, the first part holds the instructions of the guard and no other.
-/
theorem drop_head (h : Cuts f s finding condition s' host c found instr) :
    c.head.instrs.drop (finding.index - (s.cursor finding.block).base) = instr :: c.extra := by
  have hhead := h.getElem?_head h.base_le (Nat.le_refl _) h.getElem?_eq h.not_isPhi
  have hcut := h.getElem?_block h.base_le h.getElem?_eq h.not_isPhi
  obtain ⟨hlt, -⟩ := List.getElem?_eq_some_iff.1 hcut
  -- The cut is right behind the instruction, so what is added follows it.
  have hlength : (c.rewire c.front).instrs.length
      = finding.index - (s.cursor finding.block).base + 1 := by
    have hcount := h.count_eq
    have hsame := congrArg List.length (c.map_unlabelled_rewire c.front)
    have htake : c.front.instrs.length = min c.count c.block.instrs.length := List.length_take
    rw [List.length_map, List.length_map] at hsame
    omega
  refine drop_eq_cons_iff.2 ⟨hhead, ?_⟩
  show ((c.rewire c.front).instrs ++ c.extra).drop _ = _
  rw [← hlength, List.drop_left]

/-- Up to the guarded instruction, the instructions from the cursor on are in the first part. -/
theorem place_head (h : Cuts f s finding condition s' host c found instr)
    (hs : Places f done layout s) {index : Nat} (hbase : (s.cursor finding.block).base ≤ index)
    (hle : index ≤ finding.index) :
    (layout.move finding.block finding.index c.label).place finding.block index
      = (c.head.label, index - (s.cursor finding.block).base) := by
  rw [Layout.place_move_of_le fun _ => hle, hs.place_cursor _ h.finding_mem index hbase,
    Cut.label_head, h.label_block]

/-- The guarded instruction is followed by its guard. -/
theorem follows_head (h : Cuts f s finding condition s' host c found instr)
    (hs : Spread f done layout s) :
    (layout.move finding.block finding.index c.label).Follows f s'.function s'.trap
      (done ++ [(finding, condition)]) finding.block finding.index instr c.head := by
  have hcall : (finding, condition) ∈ done ++ [(finding, condition)] := by simp
  have hplace := h.place_head hs.toPlaces h.base_le (Nat.le_refl _)
  have hdrop := h.drop_head
  have hvacuous := h.isVacuous
  cases condition with
  | always =>
    obtain ⟨hextra, hterminator, -⟩ := h.always rfl
    refine .always hcall rfl rfl ?_ ?_
    · rw [hplace, hdrop, hextra]
    · rw [Cut.terminator_head, hterminator, h.trap_eq]
  | violated guard =>
    obtain ⟨g, hg, hextra, hterminator, hheader⟩ := h.violated guard rfl
    have hterms : guard.terms ≠ [] := by simpa [Condition.isVacuous] using hvacuous
    have hbefore : f.declarations <+: g.declarations := by
      rw [Function.declarations_of_header_eq hg]
      exact hs.declarations_prefix
    have hafter : (guard.lower finding.value finding.ty g).1.function.declarations
        <+: s'.function.declarations :=
      ⟨[], by rw [List.append_nil, Function.declarations_of_header_eq hheader]⟩
    have hnext : (layout.move finding.block finding.index c.label).place finding.block
        (finding.index + 1) = (c.label, 0) := by
      rw [Layout.place_move_of_lt (Nat.lt_succ_self _), Nat.sub_self]
    refine .violated hcall rfl rfl hterms hbefore hafter ?_ ?_ hnext
      fun hmem => h.label_ne hs.toExtends hmem rfl
    · rw [hplace, hdrop, hextra]
    · rw [Cut.terminator_head, hterminator, h.trap_eq]

/-- An instruction between the cursor and the guarded one is followed by what follows it in its
block. -/
theorem plain_head (h : Cuts f s finding condition s' host c found instr)
    (hs : Places f done layout s) {index : Nat} (hbase : (s.cursor finding.block).base ≤ index)
    (hlt : index < finding.index) {other : Instr} (hget : found.instrs[index]? = some other)
    (hphi : other.isPhi = false) :
    (layout.move finding.block finding.index c.label).Follows f s'.function s'.trap
      (done ++ [(finding, condition)]) finding.block index other c.head := by
  have hplace := h.place_head hs hbase (Nat.le_of_lt hlt)
  refine .plain (fun call hcall heq => ?_) ?_ ?_
  · rcases List.mem_append.1 hcall with hcall | hcall
    · have hdone := hs.index_lt call hcall
      rw [heq] at hdone
      omega
    · rw [List.mem_singleton.1 hcall]
      exact Nat.ne_of_gt hlt
  · rw [hplace]
    exact h.getElem?_head hbase (Nat.le_of_lt hlt) hget hphi
  · rw [hplace, h.place_head hs (Nat.le_succ_of_le hbase) hlt]
    congr 1
    omega

/-- What follows the instructions in front of the cursors. -/
theorem exists_follows (h : Cuts f s finding condition s' host c found instr)
    (hs : Spread f done layout s) {block : Block} (hblock : block ∈ f.blocks) {index : Nat}
    (hlt : index < (s'.cursor block.label).base) {other : Instr}
    (hget : block.instrs[index]? = some other) (hphi : other.isPhi = false) :
    ∃ piece ∈ s'.function.blocks,
      piece.label = ((layout.move finding.block finding.index c.label).place block.label index).1 ∧
      (layout.move finding.block finding.index c.label).Follows f s'.function s'.trap
        (done ++ [(finding, condition)]) block.label index other piece := by
  have hmem : block.label ∈ f.labels := Function.mem_labels.2 ⟨block, hblock, rfl⟩
  have hbase := h.base_le
  rw [h.cursor_eq] at hlt
  by_cases hpassed : index < (s.cursor block.label).base
  · -- The piece is not the one that is cut.
    obtain ⟨piece, hpiece, hlabel, hfollows⟩ := hs.passed block hblock index hpassed other hget hphi
    have hne : piece.label ≠ c.block.label := by
      rw [hlabel, h.label_block]
      exact hs.place_ne _ hmem index hpassed _ h.finding_mem
    have hearlier : block.label = finding.block → index < finding.index := fun heq => by
      rw [heq] at hpassed
      omega
    obtain ⟨temps, hgains, -⟩ := h.exists_gains h.valueType? h.isVacuous
    refine ⟨c.rewire piece,
      (h.mem_blocks h.linked.labels_nodup).2 (.inr (.inr ⟨piece, hpiece, hne, rfl⟩)), ?_, ?_⟩
    · rw [Cut.label_rewire, hlabel, Layout.place_move_of_le fun heq => Nat.le_of_lt (hearlier heq)]
    · rw [h.trap_eq]
      refine hfollows.rewire c (h.linked.phis_first piece hpiece) hphi ?_
        (Layout.place_move_of_le fun heq => Nat.le_of_lt (hearlier heq))
        (Layout.place_move_of_le fun heq => hearlier heq)
        fun heq => Nat.ne_of_gt (hearlier heq.symm)
      rw [hgains.declarations_eq]
      exact List.prefix_append _ _
  · -- The block is that of the finding, and the instruction is in the piece that is cut.
    have hlabel : finding.block = block.label := by
      by_contra hne
      rw [if_neg hne] at hlt
      exact hpassed hlt
    rw [if_pos hlabel] at hlt
    rw [← hlabel, Nat.not_lt] at hpassed
    rw [h.eq_found hblock hlabel] at hget
    have hle : index ≤ finding.index := Nat.le_of_lt_succ hlt
    rw [← hlabel]
    refine ⟨c.head, (h.mem_blocks h.linked.labels_nodup).2 (.inl rfl), ?_, ?_⟩
    · rw [h.place_head hs.toPlaces hpassed hle]
    rcases Nat.eq_or_lt_of_le hle with rfl | hearlier
    · cases h.getElem?_eq.symm.trans hget
      exact h.follows_head hs
    · exact h.plain_head hs.toPlaces hpassed hearlier hget hphi

/-! ## What a guard keeps -/

/-- The new label is not empty. -/
theorem label_ne_empty (h : Cuts f s finding condition s' host c found instr) : c.label ≠ "" := by
  rw [h.label_eq]
  refine s.function.freshLabel_ne_empty fun hnil => ?_
  exact absurd (String.append_eq_empty_iff.1 hnil).2 (by decide)

theorem extension (h : Cuts f s finding condition s' host c found instr)
    (hs : Extends f s) : Extends f s' := by
  obtain ⟨temps, hgains, -⟩ := h.exists_gains h.valueType? h.isVacuous
  have hheader := hgains.header_eq
  constructor
  case params_eq => exact (congrArg Function.params hheader).trans hs.params_eq
  case result_eq => exact (congrArg Function.result hheader).trans hs.result_eq
  case declarations_prefix =>
    rw [hgains.declarations_eq]
    exact hs.declarations_prefix.trans (List.prefix_append _ _)
  case labels_prefix =>
    rw [h.labels_eq]
    exact hs.labels_prefix.trans (List.prefix_append _ _)
  case empty_not_mem =>
    rw [h.labels_eq, List.mem_append, List.mem_singleton]
    rintro (hempty | hempty)
    · exact hs.empty_not_mem hempty
    · exact h.label_ne_empty hempty.symm
  case trap_not_mem =>
    rw [h.trap_eq]
    exact hs.trap_not_mem

theorem places (h : Cuts f s finding condition s' host c found instr)
    (hs : Spread f done layout s) :
    Places f (done ++ [(finding, condition)])
      (layout.move finding.block finding.index c.label) s' := by
  have hbase := h.base_le
  constructor
  case base_le =>
    intro block hblock
    rw [h.cursor_eq]
    split_ifs with heq
    · rw [h.eq_found hblock heq]
      exact (List.getElem?_eq_some_iff.1 h.getElem?_eq).1
    · exact hs.base_le block hblock
  case index_lt =>
    intro call hcall
    rw [h.cursor_eq]
    rcases List.mem_append.1 hcall with hcall | hcall
    · have hlt := hs.index_lt call hcall
      split_ifs with heq
      · show call.1.index < finding.index + 1
        rw [← heq] at hlt
        omega
      · exact hlt
    · rw [List.mem_singleton.1 hcall, if_pos rfl]
      exact Nat.lt_succ_self _
  case cursor_mem =>
    -- The cut block continues under a new label.
    intro label hlabel hcursor
    rw [h.cursor_eq] at hcursor ⊢
    split_ifs at hcursor ⊢ with heq
    · exact absurd rfl (h.label_ne hs.toExtends hcursor)
    · exact hs.cursor_mem label hlabel hcursor
  case place_cursor =>
    intro label hlabel index hle
    rw [h.cursor_eq] at hle ⊢
    split_ifs at hle ⊢ with heq
    · rw [← heq]
      exact Layout.place_move_of_lt hle
    · rw [Layout.place_move_of_le fun hother => absurd hother.symm heq]
      exact hs.place_cursor label hlabel index hle
  case place_ne =>
    intro label hlabel index hlt other hother
    rw [h.cursor_eq] at hlt
    have hmoved : label = finding.block → index ≤ finding.index := fun heq => by
      rw [if_pos heq.symm] at hlt
      exact Nat.le_of_lt_succ hlt
    rw [Layout.place_move_of_le hmoved, h.cursor_eq other]
    split_ifs with hcut
    · -- No instruction in front of a cursor is in the new piece.
      exact h.place_ne_label hs.toPlaces hlabel index
    · by_cases hpassed : index < (s.cursor label).base
      · exact hs.place_ne label hlabel index hpassed other hother
      · -- The piece was the last of its block, which is the one that is cut.
        have hblock : finding.block = label := by
          by_contra hne
          rw [if_neg hne] at hlt
          exact hpassed hlt
        rw [hs.place_cursor label hlabel index (Nat.le_of_not_lt hpassed)]
        intro hcursor
        exact hcut (hblock.trans (h.tracks.cursor_injective _ hlabel _ hother hcursor))
  case place_mem =>
    intro label hlabel index
    rw [h.labels_eq, List.mem_append, List.mem_singleton]
    by_cases hmoved : label = finding.block ∧ finding.index < index
    · rw [hmoved.1, Layout.place_move_of_lt hmoved.2]
      exact .inr rfl
    · rw [Layout.place_move_of_le fun heq => Nat.le_of_not_lt fun hlt => hmoved ⟨heq, hlt⟩]
      exact .inl (hs.place_mem label hlabel index)
  case place_first =>
    intro block hblock
    rw [Layout.place_move_of_le fun heq => ?_]
    · exact hs.place_first block hblock
    · rw [h.eq_found hblock heq.symm]
      exact Block.length_phis_le h.getElem?_eq h.not_isPhi

theorem pieces (h : Cuts f s finding condition s' host c found instr) (hs : Spread f done layout s)
    (hf : f.WellFormed) :
    Pieces f (done ++ [(finding, condition)])
      (layout.move finding.block finding.index c.label) s' where
  passed := fun _ hblock _ hlt _ hget hphi => h.exists_follows hs hblock hlt hget hphi
  exists_first := fun _ hblock => h.exists_first hs hf hblock
  isPhi_eq_false := by
    intro piece hpiece hlabel other hother
    obtain ⟨temps, hgains, -⟩ := h.exists_gains h.valueType? h.isVacuous
    rcases (h.mem_blocks h.tracks.labels_nodup).1 hpiece with rfl | rfl | ⟨b, hb, -, rfl⟩
    · rcases Cut.exists_of_mem_head hother with ⟨old, hold, heq⟩ | hextra
      · rw [← Instr.isPhi_unlabelled, ← heq, Instr.isPhi_unlabelled]
        exact hs.isPhi_eq_false c.block h.block_mem hlabel old hold
      · exact hgains.isPhi_eq_false other hextra
    · exact h.isPhi_tail other hother
    · obtain ⟨old, hold, heq⟩ := Cut.exists_of_mem_rewire hother
      rw [Cut.label_rewire] at hlabel
      rw [← Instr.isPhi_unlabelled, ← heq, Instr.isPhi_unlabelled]
      exact hs.isPhi_eq_false b hb hlabel old hold

theorem homes (h : Cuts f s finding condition s' host c found instr) (hs : Spread f done layout s) :
    Homes f (layout.move finding.block finding.index c.label) s' where
  home_place := by
    intro label hlabel index
    by_cases hmoved : label = finding.block ∧ finding.index < index
    · rw [hmoved.1, Layout.place_move_of_lt hmoved.2]
      exact Layout.home_move_self
    · rw [Layout.place_move_of_le fun heq => Nat.le_of_not_lt fun hlt => hmoved ⟨heq, hlt⟩,
        Layout.home_move_of_ne (h.place_ne_label hs.toPlaces hlabel index)]
      exact hs.home_place label hlabel index
  home_empty := by
    rw [Layout.home_move_of_ne (Ne.symm h.label_ne_empty)]
    exact hs.home_empty
  home_trap := by
    rw [h.trap_eq, Layout.home_move_of_ne]
    · exact hs.home_trap
    · exact fun heq => h.label_not_mem (heq ▸ Function.mem_labels.2 ⟨_, h.trap_mem, rfl⟩)
  home_of_mem := by
    intro label hlabel
    rw [Layout.home_move_of_ne (h.label_ne hs.toExtends hlabel)]
    exact hs.home_of_mem label hlabel

/-- A guard spreads its block over one more piece. -/
theorem spread (h : Cuts f s finding condition s' host c found instr) (hs : Spread f done layout s)
    (hf : f.WellFormed) :
    Spread f (done ++ [(finding, condition)])
      (layout.move finding.block finding.index c.label) s' :=
  ⟨h.extension hs.toExtends, h.places hs, h.pieces hs hf, h.homes hs⟩

end Cuts

/-! ## Guarding all findings -/

/-- What a splicer has made of a function when it is done with all findings. -/
structure Guards (f : Function) (calls : List (Finding × Condition)) (layout : Layout)
    (s : Splicer) : Prop where
  tracks : Tracks f s
  linked : s.function.Linked
  typed : s.function.Typed
  spread : Spread f calls layout s

/-- Guarding awaited findings spreads the blocks over pieces, with a guard for each finding that
there is something to check of. -/
theorem exists_guards (hf : f.WellFormed) {calls : List (Finding × Condition)}
    (hawaits : Awaits f (start f) (calls.map Prod.fst)) (h : (start f).guardEach calls = .ok s) :
    ∃ layout, Guards f (calls.filter fun call => !call.2.isVacuous) layout s := by
  have hstart : Guards f [] .start (start f) :=
    ⟨tracks_start hf.labels_nodup, linked_start hf.toLinked, typed_start hf.toTyped,
      spread_start hf⟩
  refine (tracks_start hf.labels_nodup).guardEach_induction
    (P := fun done t => ∃ layout, Guards f (done.filter fun call => !call.2.isVacuous) layout t)
    [] hawaits h ⟨_, hstart⟩ ?_ ?_
  · intro done t call _ hvacuous hguards
    simpa [List.filter_append, hvacuous] using hguards
  · rintro done t t' call host c hcall hvacuous htracks hc ⟨layout, hguards⟩
    obtain ⟨d, hd, hdescribes⟩ := hawaits.exists_definition call.1 (List.mem_map_of_mem hcall)
    obtain ⟨found, hfound, hdef⟩ := Function.mem_definitions.1 hd
    obtain ⟨hlabel, hinstr, hphi, -⟩ := Block.mem_definitions.1 hdef
    rw [← hdescribes.block_eq] at hlabel
    rw [← hdescribes.index_eq] at hinstr
    have hfinding : call.1.block ∈ f.labels := Function.mem_labels.2 ⟨found, hfound, hlabel.symm⟩
    have hfits := hc.fits htracks hguards.linked (fun _ _ => hguards.spread.valueType?) hvacuous hd
      hdescribes
    have hcuts : Cuts f t call.1 call.2 t' host c found d.instr :=
      ⟨hc, hfits, hf.labels_nodup, htracks, hguards.linked, hfound, hlabel.symm, hinstr, hphi⟩
    rw [List.filter_append, List.filter_singleton, hvacuous]
    exact ⟨_, hc.tracks htracks hfinding, hc.linked hfits hguards.linked,
      hc.typed hfits htracks.labels_nodup hguards.typed,
      hcuts.spread hguards.spread hf⟩

namespace Guards

variable {calls : List (Finding × Condition)} {block : Block} {index : Nat}

/-- What follows an instruction in the piece that holds it. -/
theorem exists_follows (hs : Guards f calls layout s) (hblock : block ∈ f.blocks) {instr : Instr}
    (hget : block.instrs[index]? = some instr) (hphi : instr.isPhi = false) :
    ∃ piece ∈ s.function.blocks, piece.label = (layout.place block.label index).1 ∧
      layout.Follows f s.function s.trap calls block.label index instr piece := by
  have hlabel : block.label ∈ f.labels := Function.mem_labels.2 ⟨block, hblock, rfl⟩
  by_cases hpassed : index < (s.cursor block.label).base
  · exact hs.spread.passed block hblock index hpassed instr hget hphi
  · -- From the cursor on there are no guards.
    have hbase := Nat.le_of_not_lt hpassed
    have hplace := hs.spread.place_cursor _ hlabel
    obtain ⟨rest, hrest, hrestLabel, hinstrs, -⟩ := hs.tracks.exists_rest block hblock
    refine ⟨rest, hrest, by rw [hplace index hbase, hrestLabel],
      .plain (fun call hcall heq => ?_) ?_ ?_⟩
    · have hdone := hs.spread.index_lt call hcall
      rw [heq] at hdone
      omega
    · rw [hplace index hbase]
      exact getElem?_rest hinstrs hbase hget hphi
    · rw [hplace index hbase, hplace (index + 1) (by omega), hrestLabel]
      congr 1
      omega

/-- At its end, a block is in its last piece, which ends there and as the block does. -/
theorem exists_end (hs : Guards f calls layout s) (hblock : block ∈ f.blocks) :
    layout.place block.label block.instrs.length = ((s.cursor block.label).label,
      block.instrs.length - (s.cursor block.label).base) ∧
    ∃ piece ∈ s.function.blocks, piece.label = (s.cursor block.label).label ∧
      piece.instrs.drop (layout.place block.label block.instrs.length).2 = [] ∧
      piece.terminator = block.terminator := by
  have hlabel : block.label ∈ f.labels := Function.mem_labels.2 ⟨block, hblock, rfl⟩
  have hplace := hs.spread.place_cursor _ hlabel _ (hs.spread.base_le block hblock)
  obtain ⟨rest, hrest, hrestLabel, hinstrs, hterminator⟩ := hs.tracks.exists_rest block hblock
  refine ⟨hplace, rest, hrest, hrestLabel, ?_, hterminator⟩
  have hlength := congrArg List.length hinstrs
  rw [List.length_map, List.length_drop, List.length_map] at hlength
  rw [List.drop_eq_nil_iff, hplace]
  exact Nat.le_of_eq hlength

end Guards

end Splicer

end FactGuard
