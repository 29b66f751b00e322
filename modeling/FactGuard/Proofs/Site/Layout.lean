import FactGuard.Proofs.Site.Typing

/-!
# Where a block is after guarding

Guards spread a block over pieces: the first piece has its label and its phis, and each guard ends a
piece and starts the next. A `Layout` says where each instruction is, and `Layout.Follows` what
comes behind it there. `Splicer.Spread` says in four parts what a splicer has made of a function so
far: an instruction with a guard is followed by that guard, any other by what follows it in its
block, and phis know a block by the label of its last piece.
-/

namespace FactGuard

/-! ## Layouts -/

/-- Behind a place, a list holds the element there and what follows it. -/
theorem drop_eq_cons_iff {α : Type} {l rest : List α} {k : Nat} {x : α} :
    l.drop k = x :: rest ↔ l[k]? = some x ∧ l.drop (k + 1) = rest := by
  constructor
  · intro h
    have hhead := congrArg List.head? h
    have htail := congrArg List.tail h
    rw [List.head?_drop] at hhead
    rw [List.tail_drop] at htail
    exact ⟨hhead, htail⟩
  · rintro ⟨hget, rfl⟩
    obtain ⟨hlt, rfl⟩ := List.getElem?_eq_some_iff.1 hget
    exact List.drop_eq_getElem_cons hlt

/-- Where the instructions of a function are. -/
structure Layout where
  /-- The label of the piece that holds the instruction at an index of a block, and its index there.
  -/
  place : (block : String) → Nat → String × Nat
  /-- The block of which the piece of a label is one. -/
  home : String → String

namespace Layout

/-- Every block is its only piece. -/
def start : Layout := ⟨Prod.mk, id⟩

/-- What a block holds behind an index moves into a new piece. -/
def move (layout : Layout) (block : String) (index : Nat) (label : String) : Layout where
  place other i :=
    if other = block ∧ index < i then (label, i - (index + 1)) else layout.place other i
  home other := if other = label then block else layout.home other

variable {layout : Layout} {block label : String} {index : Nat}

/-- What is not behind the index stays in its place. -/
theorem place_move_of_le {other : String} {i : Nat} (h : other = block → i ≤ index) :
    (layout.move block index label).place other i = layout.place other i :=
  if_neg fun ⟨heq, hlt⟩ => absurd (h heq) (Nat.not_le_of_lt hlt)

theorem place_move_of_lt {i : Nat} (h : index < i) :
    (layout.move block index label).place block i = (label, i - (index + 1)) :=
  if_pos ⟨rfl, h⟩

theorem home_move_of_ne {other : String} (h : other ≠ label) :
    (layout.move block index label).home other = layout.home other := if_neg h

theorem home_move_self : (layout.move block index label).home label = block := if_pos rfl

/-- What follows the instruction at an index of a block in the piece that holds it. -/
inductive Follows (layout : Layout) (f g : Function) (trap : String)
    (done : List (Finding × Condition)) (block : String) (index : Nat) (instr : Instr)
    (piece : Block) : Prop
  /-- Without a guard, what follows it in its block. -/
  | plain (hdone : ∀ call ∈ done, call.1.block = block → call.1.index ≠ index)
      (hget : piece.instrs[(layout.place block index).2]? = some instr)
      (hnext : layout.place block (index + 1) = (piece.label, (layout.place block index).2 + 1))
  /-- A guard that always traps: nothing but the way to the trap block. -/
  | always {finding : Finding} (hcall : (finding, .always) ∈ done) (hblock : finding.block = block)
      (hindex : finding.index = index)
      (hdrop : piece.instrs.drop (layout.place block index).2 = [instr])
      (hterminator : piece.terminator = .goto trap)
  /-- A guard that tests the value: the instructions of the guard, and then the trap block or a new
  piece. -/
  | violated {finding : Finding} {guard : Guard} {h : Function} {label : String}
      (hcall : (finding, .violated guard) ∈ done) (hblock : finding.block = block)
      (hindex : finding.index = index) (hterms : guard.terms ≠ [])
      (hbefore : f.declarations <+: h.declarations)
      (hafter : (guard.lower finding.value finding.ty h).1.function.declarations <+: g.declarations)
      (hdrop : piece.instrs.drop (layout.place block index).2
        = instr :: (guard.lower finding.value finding.ty h).1.instrs)
      (hterminator : piece.terminator
        = .branch (guard.lower finding.value finding.ty h).2 trap label)
      (hnext : layout.place block (index + 1) = (label, 0)) (hlabel : label ∉ f.labels)

variable {layout' : Layout} {f g g' : Function} {trap : String}
  {done : List (Finding × Condition)} {call : Finding × Condition} {instr : Instr} {piece : Block}

/-- The instruction is in the piece. -/
theorem Follows.getElem? (h : layout.Follows f g trap done block index instr piece) :
    piece.instrs[(layout.place block index).2]? = some instr := by
  cases h with
  | plain _ hget _ => exact hget
  | always _ _ _ hdrop _ | violated _ _ _ _ _ _ hdrop _ _ _ => exact (drop_eq_cons_iff.1 hdrop).1

/-- What follows an instruction stays when another block is cut, or another piece. -/
theorem Follows.rewire (h : layout.Follows f g trap done block index instr piece) (c : Cut)
    (hpiece : piece.PhisFirst) (hphi : instr.isPhi = false)
    (hdeclarations : g.declarations <+: g'.declarations)
    (hplace : layout'.place block index = layout.place block index)
    (hnext' : layout'.place block (index + 1) = layout.place block (index + 1))
    (hcall : call.1.block = block → call.1.index ≠ index) :
    layout'.Follows f g' trap (done ++ [call]) block index instr (c.rewire piece) := by
  -- Rewiring a piece changes its phis at most, and none of them follows the instruction.
  have hdrop' := c.drop_rewire (hpiece.isPhi_of_mem_drop h.getElem? hphi)
  cases h with
  | plain hdone hget hnext =>
    refine .plain (fun other hother => ?_) ?_ ?_
    · rcases List.mem_append.1 hother with hother | hother
      · exact hdone other hother
      · rwa [List.mem_singleton.1 hother]
    · rw [hplace]
      exact Cut.getElem?_rewire hget hphi
    · rw [hnext', hplace, Cut.label_rewire]
      exact hnext
  | always hmem hblock hindex hdrop hterminator =>
    refine .always (List.mem_append_left _ hmem) hblock hindex ?_ ?_
    · rw [hplace, hdrop', hdrop]
    · rw [Cut.terminator_rewire, hterminator]
  | violated hmem hblock hindex hterms hbefore hafter hdrop hterminator hnext hlabel =>
    refine .violated (List.mem_append_left _ hmem) hblock hindex hterms hbefore
      (hafter.trans hdeclarations) ?_ ?_ (hnext'.trans hnext) hlabel
    · rw [hplace, hdrop', hdrop]
    · rw [Cut.terminator_rewire, hterminator]

end Layout

namespace Splicer

/-! ## The invariant -/

/-- The label by which the phis of the block `label` know the block `pred` of the function that the
splicer started from: that of its last piece if it leads there. -/
def arrival (f : Function) (s : Splicer) (label pred : String) : String :=
  if pred ∈ f.predecessors label then (s.cursor pred).label else pred

/-- The block that a guard cuts leads where the finding's block does. -/
theorem Inserts.mem_successors_iff {f : Function} {s s' : Splicer} {finding : Finding}
    {condition : Condition} {host : Nat} {c : Cut} (h : Inserts s finding condition s' host c)
    (hs : Tracks f s) (hf : f.labels.Nodup) {found : Block} (hfound : found ∈ f.blocks)
    (hlabel : found.label = finding.block) (label : String) :
    label ∈ c.block.terminator.successors ↔ finding.block ∈ f.predecessors label := by
  rw [(h.block_eq hs hfound hlabel).2, Function.mem_predecessors]
  constructor
  · exact fun hsucc => ⟨found, hfound, hsucc, hlabel⟩
  · rintro ⟨other, hother, hsucc, heq⟩
    rwa [Function.eq_of_label_eq hf hother hfound (heq.trans hlabel.symm)] at hsucc

/-- Phis still know a block by the label of its last piece after a guard, if no last piece has the
label of another block. -/
theorem Inserts.arrival_eq {f : Function} {s s' : Splicer} {finding : Finding}
    {condition : Condition} {host : Nat} {c : Cut} (h : Inserts s finding condition s' host c)
    (hs : Tracks f s) (hf : f.labels.Nodup) {found : Block} (hfound : found ∈ f.blocks)
    (hlabel : found.label = finding.block)
    (hcursor : (s.cursor finding.block).label ∈ f.labels →
      (s.cursor finding.block).label = finding.block)
    (label : String) {pred : String} (hpred : pred ∈ f.labels) :
    s'.arrival f label pred = c.arrival label (s.arrival f label pred) := by
  have hsucc := h.mem_successors_iff hs hf hfound hlabel label
  have hfinding : finding.block ∈ f.labels := Function.mem_labels.2 ⟨found, hfound, hlabel⟩
  unfold arrival Cut.arrival
  rw [h.cursor_eq, h.label_block]
  by_cases hleads : pred ∈ f.predecessors label
  · rw [if_pos hleads, if_pos hleads]
    by_cases heq : finding.block = pred
    · rw [if_pos heq, ← heq, if_pos ⟨hsucc.2 (heq ▸ hleads), rfl⟩]
    · rw [if_neg heq, if_neg]
      rintro ⟨-, hsame⟩
      exact heq (hs.cursor_injective _ hpred _ hfinding hsame).symm
  · rw [if_neg hleads, if_neg hleads, if_neg]
    -- A block that does not lead here has not the label of a last piece that does.
    rintro ⟨hcut, hsame⟩
    rw [hsame, hcursor (hsame ▸ hpred)] at hleads
    exact hleads (hsucc.1 hcut)

/-- The function that a splicer has made is the one that it started from, with more labels and
locals. -/
structure Extends (f : Function) (s : Splicer) : Prop where
  params_eq : s.function.params = f.params
  result_eq : s.function.result = f.result
  declarations_prefix : f.declarations <+: s.function.declarations
  labels_prefix : f.labels <+: s.function.labels
  empty_not_mem : "" ∉ s.function.labels
  trap_not_mem : s.trap ∉ f.labels

/-- Where instructions are when a splicer is done with some findings. -/
structure Places (f : Function) (done : List (Finding × Condition)) (layout : Layout)
    (s : Splicer) : Prop where
  /-- A cursor stands in its block, -/
  base_le : ∀ block ∈ f.blocks, (s.cursor block.label).base ≤ block.instrs.length
  /-- and it is done with findings in front of it. -/
  index_lt : ∀ call ∈ done, call.1.index < (s.cursor call.1.block).base
  /-- Of the labels of the function, the last piece of a block can only have that of the block. -/
  cursor_mem : ∀ label ∈ f.labels, (s.cursor label).label ∈ f.labels →
    (s.cursor label).label = label
  /-- The instructions from the cursor on are in the last piece, -/
  place_cursor : ∀ label ∈ f.labels, ∀ index, (s.cursor label).base ≤ index →
    layout.place label index = ((s.cursor label).label, index - (s.cursor label).base)
  /-- those in front of it in none that is the last of a block. -/
  place_ne : ∀ label ∈ f.labels, ∀ index < (s.cursor label).base, ∀ other ∈ f.labels,
    (layout.place label index).1 ≠ (s.cursor other).label
  place_mem : ∀ label ∈ f.labels, ∀ index, (layout.place label index).1 ∈ s.function.labels
  place_first : ∀ block ∈ f.blocks,
    layout.place block.label block.phis.length = (block.label, block.phis.length)

/-- What the pieces hold when a splicer is done with some findings. -/
structure Pieces (f : Function) (done : List (Finding × Condition)) (layout : Layout)
    (s : Splicer) : Prop where
  /-- In front of the cursors, the instructions with what follows them, -/
  passed : ∀ block ∈ f.blocks, ∀ index < (s.cursor block.label).base, ∀ instr,
    block.instrs[index]? = some instr → instr.isPhi = false → ∃ piece ∈ s.function.blocks,
      piece.label = (layout.place block.label index).1 ∧
      layout.Follows f s.function s.trap done block.label index instr piece
  /-- in the first piece of a block its phis, -/
  exists_first : ∀ block ∈ f.blocks, ∃ piece ∈ s.function.blocks, piece.label = block.label ∧
    piece.phis = block.phis.map (Instr.relabel (s.arrival f block.label))
  /-- and in no other piece a phi. -/
  isPhi_eq_false : ∀ piece ∈ s.function.blocks, piece.label ∉ f.labels →
    ∀ instr ∈ piece.instrs, instr.isPhi = false

/-- To which blocks the pieces belong. -/
structure Homes (f : Function) (layout : Layout) (s : Splicer) : Prop where
  home_place : ∀ label ∈ f.labels, ∀ index, layout.home (layout.place label index).1 = label
  home_empty : layout.home "" = ""
  home_trap : layout.home s.trap = s.trap
  home_of_mem : ∀ label ∈ f.labels, layout.home label = label

/-- What a splicer has made of the function that it started from, when it is done with some
findings. -/
structure Spread (f : Function) (done : List (Finding × Condition)) (layout : Layout)
    (s : Splicer) : Prop extends Extends f s, Places f done layout s, Pieces f done layout s,
    Homes f layout s

variable {f : Function} {s : Splicer}

/-- The labels of the function are in use. -/
theorem Extends.mem_labels (hs : Extends f s) {label : String} (hlabel : label ∈ f.labels) :
    label ∈ s.function.labels := hs.labels_prefix.subset hlabel

/-- Types stay. -/
theorem Extends.valueType? (hs : Extends f s) {name : String} {ty : Ty}
    (h : f.valueType? name = some ty) : s.function.valueType? name = some ty := by
  obtain ⟨temps, htemps⟩ := hs.declarations_prefix
  unfold Function.valueType?
  rw [← htemps]
  exact Bindings.get?_append_of_some _ h

/-! ## The start -/

theorem extends_start (hf : f.WellFormed) : Extends f (start f) where
  params_eq := rfl
  result_eq := rfl
  declarations_prefix := List.prefix_rfl
  labels_prefix := by
    rw [labels_start]
    exact List.prefix_append _ _
  empty_not_mem := by
    rw [labels_start, List.mem_append, List.mem_singleton]
    rintro (h | h)
    · exact hf.empty_not_mem h
    · exact f.freshLabel_ne_empty (by decide) h.symm
  trap_not_mem := trap_start_not_mem f

theorem places_start : Places f [] .start (start f) where
  base_le := fun _ _ => Nat.zero_le _
  index_lt := by simp
  cursor_mem := fun _ _ _ => rfl
  place_cursor := fun _ _ _ _ => rfl
  place_ne := fun _ _ _ h => absurd h (Nat.not_lt_zero _)
  place_mem := fun label hlabel _ => by
    rw [labels_start]
    exact List.mem_append_left _ hlabel
  place_first := fun _ _ => rfl

theorem pieces_start : Pieces f [] .start (start f) where
  passed := fun _ _ _ h => absurd h (Nat.not_lt_zero _)
  exists_first := by
    intro block hblock
    -- No cursor has moved, so phis know every block by its own label.
    have harrival : ∀ label, (start f).arrival f block.label label = label := fun label => by
      unfold arrival
      split_ifs <;> rfl
    refine ⟨block, mem_blocks_start.2 (.inl hblock), rfl, ?_⟩
    refine (List.map_id _).symm.trans (List.map_congr_left fun instr _ => ?_)
    cases instr <;> simp [Instr.relabel, harrival]
  isPhi_eq_false := by
    intro piece hpiece hlabel instr hinstr
    rcases mem_blocks_start.1 hpiece with hpiece | rfl
    · exact absurd (Function.mem_labels.2 ⟨piece, hpiece, rfl⟩) hlabel
    · rw [List.mem_singleton.1 hinstr]
      rfl

/-- At the start, every block is its only piece. -/
theorem spread_start (hf : f.WellFormed) : Spread f [] .start (start f) where
  toExtends := extends_start hf
  toPlaces := places_start
  toPieces := pieces_start
  home_place := fun _ _ _ => rfl
  home_empty := rfl
  home_trap := rfl
  home_of_mem := fun _ _ => rfl

end Splicer

end FactGuard
