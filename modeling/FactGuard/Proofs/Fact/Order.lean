import Mathlib.Data.List.Nodup
import Mathlib.Data.List.Range
import FactGuard.Proofs.Fact.Walk
import FactGuard.Proofs.Program.Lookup

/-!
# The visit is complete

The walk leaves each block that it enters, once (`Walk.Leaves`), and the blocks that it does not
enter follow. So the order of a visit is a permutation of the blocks (`Function.visitOrder_perm`),
for any edges, also where labels stand twice or name no block.
-/

namespace FactGuard

/-- From one walk to a later one: some blocks were entered, none of them twice, and left again. -/
structure Walk.Leaves (before after : Walk) (added : List Nat) : Prop where
  left_eq : after.left = added ++ before.left
  mem_entered_iff : ∀ block, block ∈ after.entered ↔ block ∈ added ∨ block ∈ before.entered
  nodup : added.Nodup
  not_mem : ∀ block ∈ added, block ∉ before.entered

namespace Walk

theorem Leaves.refl (walk : Walk) : walk.Leaves walk [] where
  left_eq := rfl
  mem_entered_iff := by simp
  nodup := List.nodup_nil
  not_mem := by simp

theorem Leaves.trans {a b c : Walk} {first second : List Nat} (h : a.Leaves b first)
    (h' : b.Leaves c second) : a.Leaves c (second ++ first) where
  left_eq := by rw [h'.left_eq, h.left_eq, List.append_assoc]
  mem_entered_iff block := by
    rw [h'.mem_entered_iff, h.mem_entered_iff, List.mem_append, or_assoc]
  nodup := by
    refine List.nodup_append.2 ⟨h'.nodup, h.nodup, fun block hblock other hother heq => ?_⟩
    refine h'.not_mem block hblock ((h.mem_entered_iff block).2 (.inl ?_))
    rwa [heq]
  not_mem block hblock hentered := by
    rcases List.mem_append.1 hblock with hblock | hblock
    · exact h'.not_mem block hblock ((h.mem_entered_iff block).2 (.inr hentered))
    · exact h.not_mem block hblock hentered

/-- A block that is entered is left after all that the walk leaves on the way from there. -/
theorem Leaves.leave {walk inner : Walk} {block : Nat} {added : List Nat}
    (h : Leaves { walk with entered := block :: walk.entered } inner added)
    (hnew : block ∉ walk.entered) :
    walk.Leaves { inner with left := block :: inner.left } (block :: added) where
  left_eq := by
    dsimp only
    rw [h.left_eq, List.cons_append]
  mem_entered_iff other := by
    dsimp only
    rw [h.mem_entered_iff, List.mem_cons, List.mem_cons]
    tauto
  nodup := List.nodup_cons.2 ⟨fun hmem => h.not_mem block hmem List.mem_cons_self, h.nodup⟩
  not_mem other hother hmem := by
    rcases List.mem_cons.1 hother with rfl | hother
    · exact hnew hmem
    · exact h.not_mem other hother (List.mem_cons_of_mem _ hmem)

namespace Explores

variable {edges : Nat → List Nat} {walk after : Walk} {blocks : List Nat}

/-- A walk leaves each block that it enters. -/
theorem exists_leaves (h : Explores edges walk blocks after) :
    ∃ added, walk.Leaves after added := by
  induction h with
  | nil walk => exact ⟨[], .refl walk⟩
  | seen _ _ ih => exact ih
  | enter hnew _ _ ihInner ihRest =>
    obtain ⟨first, hfirst⟩ := ihInner
    obtain ⟨second, hsecond⟩ := ihRest
    exact ⟨_, (hfirst.leave hnew).trans hsecond⟩

/-- A walk enters only blocks of a kind, if it starts with such blocks and these lead only to such
blocks. -/
theorem forall_entered {kind : Nat → Prop} (h : Explores edges walk blocks after)
    (hedges : ∀ block, kind block → ∀ next ∈ edges block, kind next)
    (hblocks : ∀ block ∈ blocks, kind block) (hwalk : ∀ block ∈ walk.entered, kind block) :
    ∀ block ∈ after.entered, kind block := by
  induction h with
  | nil walk => exact hwalk
  | seen _ _ ih => exact ih (List.forall_mem_cons.1 hblocks).2 hwalk
  | @enter _ _ _ block _ _ _ _ ihInner ihRest =>
    obtain ⟨hblock, hrest⟩ := List.forall_mem_cons.1 hblocks
    exact ihRest hrest (ihInner (hedges block hblock) (List.forall_mem_cons.2 ⟨hblock, hwalk⟩))

end Explores

end Walk

/-- Looking up each index of a list in turn gives the list. -/
theorem filterMap_range_getElem? {α : Type} (l : List α) :
    (List.range l.length).filterMap (l[·]?) = l := by
  induction l with
  | nil => rfl
  | cons a l ih =>
    rw [List.length_cons, List.range_succ_eq_map, List.filterMap_cons, List.filterMap_map]
    simp only [List.getElem?_cons_zero, Function.comp_def, List.getElem?_cons_succ, ih]

namespace Function

variable {f : Function}

/-- A position is the index of a block. -/
theorem position?_lt {label : String} {i : Nat} (h : f.position? label = some i) :
    i < f.blocks.length := by
  rw [position?_eq_last?] at h
  have hlabel := List.mem_zipIdx_iff_getElem?.1 (Bindings.mem_of_last?_eq_some h)
  obtain ⟨hlt, -⟩ := List.getElem?_eq_some_iff.1 hlabel
  rwa [labels, List.length_map] at hlt

theorem edges_lt (f : Function) (block next : Nat) (h : next ∈ f.edges block) :
    next < f.blocks.length := by
  unfold edges at h
  split at h
  · obtain ⟨label, -, hposition⟩ := List.mem_filterMap.1 h
    exact position?_lt hposition
  · simp at h

/-- The walk over a function from its entry. -/
def walk (f : Function) : Walk := Walk.visit f.edges f.blocks.length ⟨[], []⟩ 0

/-- The walk from the entry is over all blocks that it comes to. -/
theorem explores_walk (hf : 0 < f.blocks.length) :
    Walk.Explores f.edges ⟨[], []⟩ [0] f.walk := by
  refine Walk.explores_visit f.edges_lt ⟨[], []⟩ ?_ hf
  simp [Walk.unentered]

/-- The blocks that the walk has left are those that it has entered, each once. -/
theorem left_walk (hf : 0 < f.blocks.length) :
    f.walk.left.Nodup ∧ ∀ i, i ∈ f.walk.left ↔ i ∈ f.walk.entered := by
  obtain ⟨added, hadded⟩ := (explores_walk hf).exists_leaves
  rw [hadded.left_eq, List.append_nil]
  exact ⟨hadded.nodup, fun i => by simp [hadded.mem_entered_iff i]⟩

theorem mem_left_walk (hf : 0 < f.blocks.length) (i : Nat) :
    i ∈ f.walk.left ↔ i ∈ f.walk.entered := (left_walk hf).2 i

theorem lt_of_mem_left_walk (hf : 0 < f.blocks.length) {i : Nat} (h : i ∈ f.walk.left) :
    i < f.blocks.length :=
  (explores_walk hf).forall_entered (fun block _ => f.edges_lt block)
    (List.forall_mem_singleton.2 hf) (fun _ hblock => nomatch hblock) i ((mem_left_walk hf i).1 h)

/-- The blocks that the walk has left are visited first, and then those that it has not entered. -/
theorem visitOrder_eq (hf : 0 < f.blocks.length) :
    f.visitOrder = f.walk.left ++
      (List.range f.blocks.length).filter fun block => !f.walk.entered.contains block := by
  unfold visitOrder walk
  dsimp only
  rw [if_neg (Nat.ne_of_gt hf)]

/-- The order of a visit has the index of every block, once. -/
theorem visitOrder_perm (f : Function) : f.visitOrder.Perm (List.range f.blocks.length) := by
  rcases Nat.eq_zero_or_pos f.blocks.length with hempty | hf
  · unfold visitOrder
    rw [hempty]
    exact .refl _
  obtain ⟨hnodup, hentered⟩ := left_walk hf
  rw [visitOrder_eq hf, List.perm_ext_iff_of_nodup ?_ List.nodup_range]
  · intro block
    have := lt_of_mem_left_walk hf (i := block)
    simp only [List.mem_append, List.mem_filter, List.mem_range, Bool.not_eq_true',
      List.contains_eq_mem, decide_eq_false_iff_not, ← hentered]
    tauto
  · refine List.nodup_append.2 ⟨hnodup, List.nodup_range.filter _, ?_⟩
    rintro block hblock other hother rfl
    rw [List.mem_filter] at hother
    simp [← hentered, hblock] at hother

/-- The blocks in the order of a visit are the blocks of the function, in another order. -/
theorem visited_perm (f : Function) : (f.visitOrder.filterMap (f.blocks[·]?)).Perm f.blocks := by
  have h := f.visitOrder_perm.filterMap (f.blocks[·]?)
  rwa [filterMap_range_getElem?] at h

end Function

end FactGuard
