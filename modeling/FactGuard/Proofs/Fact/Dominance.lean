import FactGuard.Proofs.Fact.Order

/-!
# Blocks are visited before those that they dominate

A block dominates another one if every path from the entry to the other one goes through it. The
walk comes to a block along a path of blocks that it leaves later (`Walk.Explores.exists_path`), and
what it leaves later is visited earlier. So a block is visited before those that it dominates.

A block is also visited before those that it leads to, except around loops: if the walk has entered
the next block and not left it yet, it came from there to this one
(`Walk.Explores.precedes_or_reach`).
-/

namespace FactGuard

/-- Control can come from one block to another along edges. -/
def Reach (edges : Nat → List Nat) : Nat → Nat → Prop :=
  Relation.ReflTransGen fun block next => next ∈ edges block

/-- Control stays among blocks of a kind if these lead only to such blocks. -/
theorem Reach.of_closed {edges : Nat → List Nat} {first last : Nat} (h : Reach edges first last)
    (kind : Nat → Prop) (hedges : ∀ block, kind block → ∀ next ∈ edges block, kind next)
    (hfirst : kind first) : kind last := by
  induction h with
  | refl => exact hfirst
  | tail _ hedge ih => exact hedges _ ih _ hedge

/-- The blocks on a way from one block to another, each of which leads to the next one. -/
inductive Path (edges : Nat → List Nat) : Nat → Nat → List Nat → Prop
  | single (block : Nat) : Path edges block block [block]
  | cons {block next last : Nat} {path : List Nat} (hedge : next ∈ edges block)
      (hpath : Path edges next last path) : Path edges block last (block :: path)

/-- One block stands before another one in an order. -/
def Precedes (order : List Nat) (block other : Nat) : Prop := [block, other].Sublist order

theorem Precedes.mono {order more : List Nat} {block other : Nat} (h : Precedes order block other)
    (hsub : order.Sublist more) : Precedes more block other := h.trans hsub

theorem precedes_cons {order : List Nat} {block other : Nat} (h : other ∈ order) :
    Precedes (block :: order) block other := (List.singleton_sublist.2 h).cons_cons block

/-- In an order without repetitions, what stands before another block stands in the part before it.
-/
theorem Precedes.mem_left {before after : List Nat} {block other : Nat}
    (h : Precedes (before ++ other :: after) block other)
    (hnodup : (before ++ other :: after).Nodup) : block ∈ before := by
  induction before with
  | nil =>
    -- The other block comes first, and does not stand behind itself.
    have hafter := (List.nodup_cons.1 hnodup).1
    cases h with
    | cons _ h => exact absurd (h.subset (by simp)) hafter
    | cons_cons _ h => exact absurd (h.subset (by simp)) hafter
  | cons first before ih =>
    cases h with
    | cons _ h => exact List.mem_cons_of_mem _ (ih h (List.nodup_cons.1 hnodup).2)
    | cons_cons _ _ => exact List.mem_cons_self

namespace Walk

variable {edges : Nat → List Nat} {walk inner after : Walk} {block next start : Nat}
  {blocks rest : List Nat}

namespace Explores

/-- What was left stays left, behind what is left later. -/
theorem left_suffix (h : Explores edges walk blocks after) : walk.left <:+ after.left := by
  obtain ⟨added, hadded⟩ := h.exists_leaves
  exact ⟨added, hadded.left_eq.symm⟩

/-- A block that is entered is left again. -/
theorem mem_left (h : Explores edges walk blocks after) (hafter : block ∈ after.entered)
    (hbefore : block ∉ walk.entered) : block ∈ after.left := by
  obtain ⟨added, hadded⟩ := h.exists_leaves
  rw [hadded.left_eq]
  exact List.mem_append_left _ (((hadded.mem_entered_iff block).1 hafter).resolve_right hbefore)

/-- The walk comes to a block along a path of blocks that it leaves later. -/
theorem exists_path (h : Explores edges walk blocks after) (hafter : block ∈ after.left)
    (hbefore : block ∉ walk.left) :
    ∃ first ∈ blocks, ∃ path, Path edges first block path ∧
      ∀ other ∈ path, other = block ∨ Precedes after.left other block := by
  -- A block that was left on the way from the first block is behind that one, and any other was
  -- left on the way from one of the rest.
  induction h with
  | nil walk => exact absurd hafter hbefore
  | seen _ _ ih =>
    obtain ⟨first, hfirst, path⟩ := ih hafter hbefore
    exact ⟨first, List.mem_cons_of_mem _ hfirst, path⟩
  | @enter walk inner after start rest _ hinner hrest ihInner ihRest =>
    by_cases hleft : block ∈ start :: inner.left
    · refine ⟨start, List.mem_cons_self, ?_⟩
      by_cases hstart : block = start
      · subst hstart
        exact ⟨[block], .single block, fun other hother => .inl (List.mem_singleton.1 hother)⟩
      · -- The walk goes on from the first block, which it leaves after all others.
        have hmem : block ∈ inner.left := (List.mem_cons.1 hleft).resolve_left hstart
        have hsub : (start :: inner.left).Sublist after.left := hrest.left_suffix.sublist
        obtain ⟨next, hnext, path, hpath, hlater⟩ := ihInner hmem hbefore
        refine ⟨start :: path, .cons hnext hpath, fun other hother => ?_⟩
        rcases List.mem_cons.1 hother with rfl | hother
        · exact .inr ((precedes_cons hmem).mono hsub)
        · exact (hlater other hother).imp_right fun h =>
            h.mono ((List.sublist_cons_self ..).trans hsub)
    · obtain ⟨first, hfirst, path⟩ := ihRest hafter hleft
      exact ⟨first, List.mem_cons_of_mem _ hfirst, path⟩

end Explores

/-- Control can come to the blocks from each block that the walk has entered and not left yet. -/
def OpenReach (edges : Nat → List Nat) (walk : Walk) (blocks : List Nat) : Prop :=
  ∀ other ∈ walk.entered, other ∈ walk.left ∨ ∀ block ∈ blocks, Reach edges other block

theorem OpenReach.tail (h : OpenReach edges walk (start :: rest)) : OpenReach edges walk rest :=
  fun other hother => (h other hother).imp_right fun hreach block hblock =>
    hreach block (List.mem_cons_of_mem _ hblock)

/-- The walk goes on from the block that it enters. -/
theorem OpenReach.enter (h : OpenReach edges walk (start :: rest)) :
    OpenReach edges { walk with entered := start :: walk.entered } (edges start) := by
  intro other hother
  rcases List.mem_cons.1 hother with rfl | hother
  · exact .inr fun next hnext => .single hnext
  · exact (h other hother).imp_right fun hreach next hnext =>
      (hreach start List.mem_cons_self).tail hnext

/-- All that the walk has entered from the block is left with it. -/
theorem OpenReach.leave (h : OpenReach edges walk (start :: rest))
    (hinner : Explores edges { walk with entered := start :: walk.entered } (edges start) inner) :
    OpenReach edges { inner with left := start :: inner.left } rest := by
  intro other hother
  by_cases hmem : other ∈ start :: walk.entered
  · rcases List.mem_cons.1 hmem with rfl | hmem
    · exact .inl List.mem_cons_self
    · exact (h.tail other hmem).imp_left fun hleft =>
        List.mem_cons_of_mem _ (hinner.left_suffix.subset hleft)
  · exact .inl (List.mem_cons_of_mem _ (hinner.mem_left hother hmem))

/-- From a block that the walk leaves, an edge leads to one that it has left before, or back to one
from which it came. -/
theorem Explores.precedes_or_reach (h : Explores edges walk blocks after)
    (hopen : OpenReach edges walk blocks) (hafter : block ∈ after.left)
    (hbefore : block ∉ walk.left) (hedge : next ∈ edges block) :
    Precedes after.left block next ∨ Reach edges next block := by
  induction h with
  | nil walk => exact absurd hafter hbefore
  | seen _ _ ih => exact ih hopen.tail hafter hbefore
  | @enter walk inner after start rest _ hinner hrest ihInner ihRest =>
    by_cases hleft : block ∈ start :: inner.left
    · have hsub : (start :: inner.left).Sublist after.left := hrest.left_suffix.sublist
      by_cases hstart : block = start
      · -- The next block is entered by now. If it was before this one, it may still be open.
        subst hstart
        by_cases hmem : next ∈ block :: walk.entered
        · rcases List.mem_cons.1 hmem with rfl | hmem
          · exact .inr .refl
          · exact (hopen next hmem).imp
              (fun h => (precedes_cons (hinner.left_suffix.subset h)).mono hsub)
              fun h => h block List.mem_cons_self
        · have hnext := hinner.mem_left (hinner.subset_entered hedge) hmem
          exact .inl ((precedes_cons hnext).mono hsub)
      · have hmem : block ∈ inner.left := (List.mem_cons.1 hleft).resolve_left hstart
        exact (ihInner hopen.enter hmem hbefore).imp_left fun h =>
          h.mono ((List.sublist_cons_self ..).trans hsub)
    · exact ihRest (hopen.leave hinner) hafter hleft

end Walk

/-! ## The order of a visit -/

theorem Path.first_mem {edges : Nat → List Nat} {first last : Nat} {path : List Nat}
    (h : Path edges first last path) : first ∈ path := by
  cases h <;> exact List.mem_cons_self

/-- Every path out of a set of blocks goes through a block if no other edge leads out of the set. -/
theorem Path.mem_of_closed {edges : Nat → List Nat} {first last : Nat} {path : List Nat}
    (h : Path edges first last path) (inside : Nat → Prop) {gate : Nat}
    (hedges : ∀ block, inside block → ∀ next ∈ edges block, next = gate ∨ inside next)
    (hfirst : inside first) (hlast : ¬inside last) : gate ∈ path := by
  induction h with
  | single block => exact absurd hfirst hlast
  | @cons block next last path hedge hpath ih =>
    rcases hedges block hfirst next hedge with rfl | hnext
    · exact List.mem_cons_of_mem _ hpath.first_mem
    · exact List.mem_cons_of_mem _ (ih hnext hlast)

namespace Function

variable {f : Function} {u v : Nat}

/-- There is a block at the index, and control can come to it from the entry. -/
def Reachable (f : Function) (v : Nat) : Prop := v < f.blocks.length ∧ Reach f.edges 0 v

/-- Every path from the entry to one block goes through the other one. -/
def Dominates (f : Function) (u v : Nat) : Prop := ∀ path, Path f.edges 0 v path → u ∈ path

theorem Reachable.pos (h : f.Reachable v) : 0 < f.blocks.length := Nat.zero_lt_of_lt h.1

/-- The walk from the entry leaves the blocks that control can reach. -/
theorem mem_left_walk_iff (hf : 0 < f.blocks.length) : v ∈ f.walk.left ↔ f.Reachable v := by
  have hwalk := explores_walk hf
  constructor
  · intro hv
    refine ⟨lt_of_mem_left_walk hf hv, ?_⟩
    exact hwalk.forall_entered (fun _ hblock _ hnext => hblock.tail hnext)
      (List.forall_mem_singleton.2 .refl) (fun _ hblock => nomatch hblock) v
      ((mem_left_walk hf v).1 hv)
  · rintro ⟨-, hreach⟩
    rw [mem_left_walk hf]
    induction hreach with
    | refl => exact hwalk.subset_entered List.mem_cons_self
    | tail _ hedge ih => exact hwalk.closed ih List.not_mem_nil hedge

/-- The blocks that the walk leaves are visited in the order in which they are left, the last one
first. -/
theorem sublist_visitOrder (hf : 0 < f.blocks.length) : f.walk.left.Sublist f.visitOrder := by
  rw [visitOrder_eq hf]
  exact List.sublist_append_left ..

/-- A block is visited before those that it dominates. -/
theorem Dominates.precedes (h : f.Dominates u v) (hv : f.Reachable v) (hne : u ≠ v) :
    Precedes f.visitOrder u v := by
  obtain ⟨first, hfirst, path, hpath, hlater⟩ := (explores_walk hv.pos).exists_path
    ((mem_left_walk_iff hv.pos).2 hv) List.not_mem_nil
  rw [List.mem_singleton.1 hfirst] at hpath
  exact ((hlater u (h path hpath)).resolve_left hne).mono (sublist_visitOrder hv.pos)

/-- A block is visited before those that it leads to, unless control can come back. -/
theorem precedes_of_edge (hu : f.Reachable u) (hedge : v ∈ f.edges u)
    (hback : ¬Reach f.edges v u) : Precedes f.visitOrder u v := by
  have hleft := (explores_walk hu.pos).precedes_or_reach (fun _ hother => nomatch hother)
    ((mem_left_walk_iff hu.pos).2 hu) List.not_mem_nil hedge
  exact (hleft.resolve_right hback).mono (sublist_visitOrder hu.pos)

/-- The walk enters the entry first and leaves it last. -/
theorem exists_inner_walk (hf : 0 < f.blocks.length) :
    ∃ inner, Walk.Explores f.edges ⟨[0], []⟩ (f.edges 0) inner ∧
      f.walk = { inner with left := 0 :: inner.left } := by
  have hwalk := explores_walk hf
  generalize f.walk = walk at hwalk ⊢
  -- At first nothing is entered, so the walk enters the entry, and nothing is left to be visited.
  cases hwalk with
  | seen hseen _ => cases hseen
  | enter _ hinner hrest =>
    cases hrest
    exact ⟨_, hinner, rfl⟩

/-- A search from the entry comes to its end, and has made the walk. -/
theorem becomes_walk (hf : 0 < f.blocks.length) :
    Search.Becomes f.edges ⟨[(0, f.edges 0)], ⟨[0], []⟩⟩ ⟨[], f.walk⟩ := by
  obtain ⟨inner, hinner, hwalk⟩ := exists_inner_walk hf
  rw [hwalk]
  exact (hinner.becomes 0 []).tail rfl

end Function

end FactGuard
