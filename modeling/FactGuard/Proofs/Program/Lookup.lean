import Mathlib.Data.List.Nodup
import FactGuard.Proofs.Program.WellFormed
import FactGuard.Machine.Basic

/-!
# Looking up blocks

Blocks are found by label, either the index of the last one (`Function.position?`) or the block
itself (`Code.block?`). Where labels are distinct, both find the one block that has the label.
-/

namespace FactGuard

namespace Function

/-- Blocks of one label are equal where labels are distinct. -/
theorem eq_of_label_eq {f : Function} (hf : f.labels.Nodup) {a b : Block} (ha : a ∈ f.blocks)
    (hb : b ∈ f.blocks) (h : a.label = b.label) : a = b :=
  List.inj_on_of_nodup_map hf ha hb h

/-- Indices of blocks of one label are equal where labels are distinct. -/
theorem index_eq_of_label_eq {f : Function} (hf : f.labels.Nodup) {i j : Nat} {a b : Block}
    (ha : f.blocks[i]? = some a) (hb : f.blocks[j]? = some b) (h : a.label = b.label) : i = j := by
  have hi : f.labels[i]? = some a.label := by simp [labels, ha]
  have hj : f.labels[j]? = some a.label := by simp [labels, hb, h]
  obtain ⟨hlt, -⟩ := List.getElem?_eq_some_iff.1 hi
  exact (List.getElem?_inj hlt hf).1 (hi.trans hj.symm)

/-- The position of a label is found in the labels with their indices. -/
theorem position?_eq_last? (f : Function) (label : String) :
    f.position? label = Bindings.last? f.labels.zipIdx label := rfl

/-- A label has no position if no block has it. -/
theorem position?_eq_none_iff (f : Function) (label : String) :
    f.position? label = none ↔ label ∉ f.labels := by
  rw [position?_eq_last?, Bindings.last?_eq_none_iff, Bindings.names, List.zipIdx_map_fst]

/-- Where labels are distinct, the position of a label is the index of its block. -/
theorem position?_eq_some_iff {f : Function} (hf : f.labels.Nodup) (label : String) (i : Nat) :
    f.position? label = some i ↔ ∃ block, f.blocks[i]? = some block ∧ block.label = label := by
  have hlabels : f.labels[i]? = some label ↔
      ∃ block, f.blocks[i]? = some block ∧ block.label = label := by
    simp [labels, Option.map_eq_some_iff]
  rw [← hlabels, position?_eq_last?, Bindings.last?_eq_get? (by
    rwa [Bindings.names, List.zipIdx_map_fst])]
  constructor
  · intro h
    exact List.mem_zipIdx_iff_getElem?.1 (Bindings.mem_of_get?_eq_some h)
  · intro h
    have hmem : label ∈ Bindings.names f.labels.zipIdx := by
      rw [Bindings.names, List.zipIdx_map_fst]
      exact List.mem_of_getElem? h
    obtain ⟨j, hj⟩ := Option.isSome_iff_exists.1 ((Bindings.isSome_get?_iff _ _).2 hmem)
    have hj' := List.mem_zipIdx_iff_getElem?.1 (Bindings.mem_of_get?_eq_some hj)
    obtain ⟨hlt, -⟩ := List.getElem?_eq_some_iff.1 h
    have : i = j := (List.getElem?_inj hlt hf).1 (h.trans hj'.symm)
    rw [hj, this]

/-- Where labels are distinct, the position of a block's label is where the block stands. -/
theorem position?_label_iff {f : Function} (hf : f.labels.Nodup) {block : Block}
    (hblock : block ∈ f.blocks) (i : Nat) :
    f.position? block.label = some i ↔ f.blocks[i]? = some block := by
  rw [position?_eq_some_iff hf]
  refine ⟨fun ⟨other, hother, hlabel⟩ => ?_, fun hget => ⟨block, hget, rfl⟩⟩
  rwa [← eq_of_label_eq hf (List.mem_of_getElem? hother) hblock hlabel]

/-- Where labels are distinct, no two of them have one position. -/
theorem eq_of_position?_eq_some {f : Function} (hf : f.labels.Nodup) {label other : String}
    {i : Nat} (h : f.position? label = some i) (h' : f.position? other = some i) :
    label = other := by
  obtain ⟨a, ha, rfl⟩ := (position?_eq_some_iff hf label i).1 h
  obtain ⟨b, hb, rfl⟩ := (position?_eq_some_iff hf other i).1 h'
  rw [ha] at hb
  cases hb
  rfl

end Function

namespace Code

/-- A block is found in the blocks with their labels. -/
theorem block?_eq_last? (code : Code) (label : String) :
    code.block? label
      = Bindings.last? (code.blocks.map fun block => (block.label, block)) label := by
  unfold block? Bindings.last?
  rw [List.foldl_map]

/-- Where labels are distinct, a label finds the block that has it. -/
theorem block?_eq_some_iff {code : Code} (h : (code.blocks.map (·.label)).Nodup) (label : String)
    (block : Block) :
    code.block? label = some block ↔ block ∈ code.blocks ∧ block.label = label := by
  have hnames : Bindings.names (code.blocks.map fun block => (block.label, block))
      = code.blocks.map (·.label) := by simp [Bindings.names]
  rw [block?_eq_last?, Bindings.last?_eq_get? (by rwa [hnames])]
  constructor
  · intro hget
    obtain ⟨b, hb, heq⟩ := List.mem_map.1 (Bindings.mem_of_get?_eq_some hget)
    obtain ⟨rfl, rfl⟩ := Prod.mk.inj heq
    exact ⟨hb, rfl⟩
  · rintro ⟨hmem, rfl⟩
    have hname : block.label
        ∈ Bindings.names (code.blocks.map fun block => (block.label, block)) := by
      rw [hnames]
      exact List.mem_map_of_mem hmem
    obtain ⟨b, hb⟩ := Option.isSome_iff_exists.1 ((Bindings.isSome_get?_iff _ _).2 hname)
    obtain ⟨b', hb', heq⟩ := List.mem_map.1 (Bindings.mem_of_get?_eq_some hb)
    obtain ⟨hlabel, rfl⟩ := Prod.mk.inj heq
    rw [hb, List.inj_on_of_nodup_map h hb' hmem hlabel]

end Code

end FactGuard
