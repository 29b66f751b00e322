import FactGuard.Proofs.Fact.Listing
import FactGuard.Proofs.Fact.Subdivision
import FactGuard.Proofs.Site.Pieces

/-!
# Pieces are visited in place of their block

But for the trap block, which leads nowhere, a guarded function is the function with its blocks
subdivided: a guard that can be passed leads to the trap block and to the next piece, and the last
piece leads where the block did (`Function.Guarded.subdivides`). So a walk from the entry comes to
the pieces of each block, one behind the other, where it came to the block
(`Function.Guarded.reached_eq`).
-/

namespace FactGuard

namespace Function

variable {f g : Function} {calls : List (Finding × Condition)} {trap : String}
  {temps : Bindings Ty} {chain : String → Chain}

/-! ## Where blocks stand -/

/-- The edges of a block. -/
theorem edges_of_getElem? {i : Nat} {block : Block} (h : f.blocks[i]? = some block) :
    f.edges i = block.terminator.successors.filterMap f.position? := by
  unfold edges
  rw [h]

/-- The indices of blocks. -/
def positions (f : Function) (blocks : List Block) : List Nat :=
  blocks.filterMap fun block => f.position? block.label

theorem mem_positions (hf : f.labels.Nodup) {blocks : List Block}
    (hblocks : ∀ block ∈ blocks, block ∈ f.blocks) {i : Nat} :
    i ∈ f.positions blocks ↔ ∃ block ∈ blocks, f.blocks[i]? = some block := by
  unfold positions
  rw [List.mem_filterMap]
  exact exists_congr fun block => and_congr_right fun hblock =>
    position?_label_iff hf (hblocks block hblock) i

/-- Looking up the indices of blocks gives the blocks. -/
theorem filterMap_positions (hf : f.labels.Nodup) {blocks : List Block}
    (hblocks : ∀ block ∈ blocks, block ∈ f.blocks) :
    (f.positions blocks).filterMap (f.blocks[·]?) = blocks := by
  unfold positions
  rw [List.filterMap_filterMap]
  calc blocks.filterMap (fun block => (f.position? block.label).bind (f.blocks[·]?))
      = blocks.filterMap some := by
        refine List.filterMap_congr fun block hblock => ?_
        obtain ⟨i, hi⟩ := List.mem_iff_getElem?.1 (hblocks block hblock)
        rw [(position?_label_iff hf (hblocks block hblock) i).2 hi]
        exact hi
    _ = blocks := List.filterMap_some

/-- Blocks of distinct labels stand at distinct indices. -/
theorem nodup_positions (hf : f.labels.Nodup) {blocks : List Block}
    (hblocks : (blocks.map (·.label)).Nodup) : (f.positions blocks).Nodup := by
  have hmap : f.positions blocks = (blocks.map (·.label)).filterMap f.position? := by
    rw [List.filterMap_map]
    rfl
  rw [hmap]
  exact hblocks.filterMap fun label label' i hi hi' => eq_of_position?_eq_some hf hi hi'

namespace Guarded

/-! ## Each piece belongs to one block -/

theorem trap_mem (h : f.Guarded calls trap temps chain g) : trapBlock trap ∈ g.blocks :=
  h.blocks_perm.symm.subset (List.mem_append_right _ (List.mem_singleton_self _))

/-- The labels of all pieces and that of the trap block are distinct. -/
theorem nodup_pieces (h : f.Guarded calls trap temps chain g) :
    ((f.blocks.flatMap fun block => (chain block.label).blocks.map (·.label)) ++ [trap]).Nodup := by
  have hnodup := (h.blocks_perm.map Block.label).nodup_iff.1 h.labels_nodup
  rwa [List.map_append, List.map_flatMap] at hnodup

theorem label_ne_trap (h : f.Guarded calls trap temps chain g) {block piece : Block}
    (hblock : block ∈ f.blocks) (hpiece : piece ∈ (chain block.label).blocks) :
    piece.label ≠ trap := by
  have hdisjoint := (List.nodup_append.1 h.nodup_pieces).2.2
  exact hdisjoint piece.label (List.mem_flatMap.2 ⟨block, hblock, List.mem_map_of_mem hpiece⟩)
    trap (List.mem_singleton_self trap)

/-- No two pieces of a block have the same label. -/
theorem nodup_labels (h : f.Guarded calls trap temps chain g) {block : Block}
    (hblock : block ∈ f.blocks) : ((chain block.label).blocks.map (·.label)).Nodup :=
  (List.nodup_flatMap.1 (List.nodup_append.1 h.nodup_pieces).1).1 block hblock

/-- No two blocks have a piece in common. -/
theorem eq_of_mem_blocks (h : f.Guarded calls trap temps chain g) {block other piece : Block}
    (hblock : block ∈ f.blocks) (hother : other ∈ f.blocks)
    (hpiece : piece ∈ (chain block.label).blocks) (hpiece' : piece ∈ (chain other.label).blocks) :
    block = other := by
  by_contra hne
  have hsymm : Std.Symm (Function.onFun List.Disjoint fun block : Block =>
      (chain block.label).blocks.map (·.label)) := ⟨fun _ _ hdisjoint => hdisjoint.symm⟩
  have hpairwise := (List.nodup_flatMap.1 (List.nodup_append.1 h.nodup_pieces).1).2
  exact hpairwise.forall hblock hother hne (List.mem_map_of_mem hpiece)
    (List.mem_map_of_mem hpiece')

/-- Labels of the function stay where they are. -/
theorem position?_eq (h : f.Guarded calls trap temps chain g) (hf : f.labels.Nodup)
    {label : String} (hlabel : label ∈ f.labels) : g.position? label = f.position? label := by
  obtain ⟨block, hblock, rfl⟩ := Function.mem_labels.1 hlabel
  obtain ⟨i, hi⟩ := List.mem_iff_getElem?.1 hblock
  obtain ⟨first, -, hfirst, hget⟩ := h.exists_first i block hi
  rw [(position?_label_iff hf hblock i).2 hi,
    (position?_eq_some_iff h.labels_nodup block.label i).2 ⟨first, hget, hfirst⟩]

/-! ## Where pieces lead -/

/-- The indices of the pieces of the block at an index. -/
def pieces (f g : Function) (chain : String → Chain) (i : Nat) : List Nat :=
  (f.blocks[i]?).elim [] fun block => g.positions (chain block.label).blocks

theorem pieces_of_getElem? {i : Nat} {block : Block} (h : f.blocks[i]? = some block) :
    pieces f g chain i = g.positions (chain block.label).blocks := by
  unfold pieces
  rw [h]
  rfl

end Guarded

end Function

namespace Divided

variable {g : Function} {trap label : String} {temps : List String} {terminator : Terminator}
  {start : Nat} {calls : List (Finding × Condition)} {instrs : List Instr} {pieces : List Block}
  {last : Block}

/-- There is a piece with the label. -/
theorem exists_label (h : Divided trap temps terminator label start calls instrs pieces last) :
    ∃ piece ∈ pieces ++ [last], piece.label = label := by
  cases h with
  | last label start instrs => exact ⟨_, List.mem_singleton_self _, rfl⟩
  | guard => exact ⟨_, List.mem_cons_self, rfl⟩

/-- If no guard always traps, each piece leads to the next one, but for the trap block. -/
theorem leads (h : Divided trap temps terminator label start calls instrs pieces last)
    (hnever : ∀ call ∈ calls, call.2 ≠ .always) (hg : g.labels.Nodup)
    (hpieces : ∀ piece ∈ pieces ++ [last], piece ∈ g.blocks ∧ piece.label ≠ trap)
    {leaf : Nat} (hleaf : g.position? trap = some leaf) {out : List Nat}
    (hout : ∀ i, g.blocks[i]? = some last → (g.edges i).filter (· != leaf) = out) {i : Nat}
    (hi : g.position? label = some i) :
    Walk.Leads (fun j => (g.edges j).filter (· != leaf)) out i
      (g.positions (pieces ++ [last])) := by
  induction h generalizing i with
  | last label start instrs =>
    have hposition : g.positions ([] ++ [⟨label, instrs, terminator⟩]) = [i] :=
      List.filterMap_cons_some hi
    rw [hposition]
    have hmem := (hpieces _ (List.mem_singleton_self _)).1
    exact .last (hout i ((Function.position?_label_iff hg hmem i).1 hi))
  | @guard label next start call calls slice extra rest guarded exit pieces last _ _ _ _ hexit
      hrest ih =>
    obtain ⟨hcall, hcalls⟩ := List.forall_mem_cons.1 hnever
    obtain ⟨⟨hmem, -⟩, hpieces'⟩ := List.forall_mem_cons.1 hpieces
    have hblock := (Function.position?_label_iff hg hmem i).1 hi
    -- The guard can be passed, so it leads to the trap block and to the next piece.
    obtain ⟨piece, hpiece, rfl⟩ := hrest.exists_label
    obtain ⟨hmem', hlabel⟩ := hpieces' piece hpiece
    obtain ⟨j, hj⟩ := List.mem_iff_getElem?.1 hmem'
    have hnext := (Function.position?_label_iff hg hmem' j).2 hj
    have hne : j ≠ leaf := by
      rintro rfl
      exact hlabel (Function.eq_of_position?_eq_some hg hnext hleaf)
    have hposition : g.positions (⟨label, slice ++ guarded :: extra, exit⟩ :: pieces ++ [last])
        = i :: g.positions (pieces ++ [last]) := List.filterMap_cons_some hi
    rw [hposition]
    refine .cons ?_ (ih hcalls hpieces' hout hnext)
    rw [Function.edges_of_getElem? hblock]
    cases hexit' : call.2 with
    | always => exact absurd hexit' hcall
    | violated guard =>
      rw [hexit'] at hexit
      cases hexit
      simp [Terminator.successors, hleaf, hnext, hne]

end Divided

namespace Function.Guarded

variable {f g : Function} {calls : List (Finding × Condition)} {trap : String}
  {temps : Bindings Ty} {chain : String → Chain}

/-- The last piece of a block leads where the block did. -/
theorem edges_last (h : f.Guarded calls trap temps chain g) (hf : f.Linked) {leaf : Nat}
    (hleaf : g.position? trap = some leaf) {i j : Nat} {block : Block}
    (hblock : f.blocks[i]? = some block) (hlast : g.blocks[j]? = some (chain block.label).last) :
    (g.edges j).filter (· != leaf) = f.edges i := by
  have hmem := List.mem_of_getElem? hblock
  rw [edges_of_getElem? hblock, edges_of_getElem? hlast,
    (h.divided block hmem).terminator_last]
  have hsame : block.terminator.successors.filterMap g.position?
      = block.terminator.successors.filterMap f.position? :=
    List.filterMap_congr fun label hlabel =>
      h.position?_eq hf.labels_nodup (hf.targets_mem block hmem label hlabel)
  rw [hsame]
  -- The block did not lead to the trap block, which is new.
  refine List.filter_eq_self.2 fun next hnext => ?_
  obtain ⟨label, hlabel, hposition⟩ := List.mem_filterMap.1 hnext
  have hlabel' := hf.targets_mem block hmem label hlabel
  rw [bne_iff_ne]
  rintro rfl
  rw [← h.position?_eq hf.labels_nodup hlabel'] at hposition
  have htrap := eq_of_position?_eq_some h.labels_nodup hposition hleaf
  exact h.trap_not_mem (htrap ▸ hlabel')

/-- If no guard always traps, blocks are subdivided, but for the trap block. -/
theorem subdivides (h : f.Guarded calls trap temps chain g) (hf : f.Linked)
    (hnever : ∀ call ∈ calls, call.2 ≠ .always) {leaf : Nat}
    (hleaf : g.position? trap = some leaf) :
    Walk.Subdivides f.blocks.length f.edges (fun i => (g.edges i).filter (· != leaf))
      (pieces f g chain) where
  edges_lt i _ next hnext := f.edges_lt i next hnext
  leads i hi := by
    have hblock := List.getElem?_eq_getElem hi
    have hmem := List.getElem_mem hi
    rw [pieces_of_getElem? hblock]
    refine (h.divided _ hmem).leads (fun call hcall => hnever call (List.mem_filter.1 hcall).1)
      h.labels_nodup (fun piece hpiece => ⟨h.mem_blocks hmem hpiece, h.label_ne_trap hmem hpiece⟩)
      hleaf (fun j hj => h.edges_last hf hleaf hblock hj) ?_
    rw [h.position?_eq hf.labels_nodup (Function.mem_labels.2 ⟨_, hmem, rfl⟩)]
    exact (position?_label_iff hf.labels_nodup hmem i).2 hblock
  nodup i hi := by
    rw [pieces_of_getElem? (List.getElem?_eq_getElem hi)]
    exact nodup_positions h.labels_nodup (h.nodup_labels (List.getElem_mem hi))
  disjoint i hi j hj hij := by
    -- A position stands for a piece, and a piece is one of a single block.
    have hpieces : ∀ k, (hk : k < f.blocks.length) → ∀ p ∈ pieces f g chain k,
        ∃ piece ∈ (chain f.blocks[k].label).blocks, g.blocks[p]? = some piece := by
      intro k hk p hp
      rw [pieces_of_getElem? (List.getElem?_eq_getElem hk)] at hp
      exact (mem_positions h.labels_nodup fun piece hpiece =>
        h.mem_blocks (List.getElem_mem hk) hpiece).1 hp
    intro p hp hp'
    obtain ⟨piece, hpiece, hget⟩ := hpieces i hi p hp
    obtain ⟨other, hother, hget'⟩ := hpieces j hj p hp'
    rw [hget] at hget'
    cases hget'
    have hsame := h.eq_of_mem_blocks (List.getElem_mem hi) (List.getElem_mem hj) hpiece hother
    exact hij (index_eq_of_label_eq hf.labels_nodup (List.getElem?_eq_getElem hi)
      (List.getElem?_eq_getElem hj) (by rw [hsame]))

/-! ## The visit -/

/-- The walk from the entry leaves the pieces of each block where it left the block. -/
theorem left_walk_eq (h : f.Guarded calls trap temps chain g) (hf : f.Linked)
    (hnever : ∀ call ∈ calls, call.2 ≠ .always) (hpos : 0 < f.blocks.length) {leaf : Nat}
    (hleaf : g.position? trap = some leaf) :
    g.walk.left.filter (· != leaf) = f.walk.left.flatMap (pieces f g chain) := by
  have htrap : g.blocks[leaf]? = some (trapBlock trap) :=
    (position?_label_iff h.labels_nodup h.trap_mem leaf).1 hleaf
  have hentry : 0 ≠ leaf := by
    rintro rfl
    obtain ⟨first, -, hlabel, hfirst⟩ := h.exists_first 0 _ (List.getElem?_eq_getElem hpos)
    rw [hfirst] at htrap
    cases htrap
    exact h.trap_not_mem (Function.mem_labels.2 ⟨_, List.getElem_mem hpos, hlabel.symm⟩)
  have hpos' : 0 < g.blocks.length := List.length_pos_of_mem h.trap_mem
  have hnowhere : g.edges leaf = [] := by
    rw [edges_of_getElem? htrap]
    rfl
  have hwalk := (explores_walk hpos').without hnowhere
  rw [List.filter_cons_of_pos (by simpa using hentry)] at hwalk
  exact (h.subdivides hf hnever hleaf).left_eq hpos (explores_walk hpos) hwalk

/-- The walk from the entry comes to the pieces of each block, one behind the other, where it came
to the block. -/
theorem reached_eq (h : f.Guarded calls trap temps chain g) (hf : f.Linked)
    (hnever : ∀ call ∈ calls, call.2 ≠ .always) (hpos : 0 < f.blocks.length) :
    (g.reached.filter fun block => block.label != trap)
      = f.reached.flatMap fun block => (chain block.label).blocks := by
  obtain ⟨leaf, hget⟩ := List.mem_iff_getElem?.1 h.trap_mem
  have hleaf : g.position? trap = some leaf :=
    (position?_label_iff h.labels_nodup h.trap_mem leaf).2 hget
  -- The trap block is the one at its index.
  have htrap : ∀ i, (g.blocks[i]?).filter (fun block => block.label != trap)
      = if i != leaf then g.blocks[i]? else none := by
    intro i
    by_cases hi : i = leaf
    · subst hi
      simp [hget, trapBlock]
    · cases hblock : g.blocks[i]? with
      | none => simp
      | some block =>
        have hne : block.label ≠ trap := fun hlabel =>
          hi (index_eq_of_label_eq h.labels_nodup hblock hget hlabel)
        simp [hi, hne]
  have hpieces : ∀ i, (pieces f g chain i).filterMap (g.blocks[·]?)
      = (f.blocks[i]?).toList.flatMap fun block => (chain block.label).blocks := by
    intro i
    cases hblock : f.blocks[i]? with
    | none => simp [pieces, hblock]
    | some block =>
      rw [pieces_of_getElem? hblock, filterMap_positions h.labels_nodup fun piece hpiece =>
        h.mem_blocks (List.mem_of_getElem? hblock) hpiece]
      simp
  calc g.reached.filter (fun block => block.label != trap)
      = (g.walk.left.filter (· != leaf)).filterMap (g.blocks[·]?) := by
        unfold reached
        rw [List.filter_filterMap, List.filterMap_filter]
        exact List.filterMap_congr fun i _ => htrap i
    _ = (f.walk.left.flatMap (pieces f g chain)).filterMap (g.blocks[·]?) := by
        rw [h.left_walk_eq hf hnever hpos hleaf]
    _ = f.walk.left.flatMap fun i =>
          (f.blocks[i]?).toList.flatMap fun block => (chain block.label).blocks := by
        rw [List.filterMap_flatMap]
        exact List.flatMap_congr fun i _ => hpieces i
    _ = f.reached.flatMap fun block => (chain block.label).blocks := by
        unfold reached
        rw [List.filterMap_eq_flatMap_toList, List.flatMap_assoc]

end Function.Guarded

end FactGuard
