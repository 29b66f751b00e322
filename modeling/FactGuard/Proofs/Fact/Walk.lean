import Mathlib.Data.Finset.Card
import Mathlib.Data.Finset.Range
import Mathlib.Data.List.Forall2
import Mathlib.Logic.Relation
import FactGuard.Fact.Order

/-!
# The walk without its limit

The depth of a walk is limited, but there are never more blocks to enter than the limit allows for,
so the limit plays no part (`Walk.explores_visit`). What a walk does is then a matter of its edges
alone: `Walk.Explores` says it step by step, as a relation that determines the walk
(`Walk.Explores.eq`). A search that keeps the blocks it is in on a stack, and needs no limit, comes
to its end with the same walk (`Walk.Explores.becomes`).

Two consequences follow by induction over these steps. A walk enters all that can be reached from
where it starts (`Walk.Explores.closed`). And walks over related edges, from related blocks, enter
and leave related blocks in the same order (`Walk.Explores.transport`).
-/

namespace FactGuard

namespace Walk

/-- Blocks are visited one after another, each with all that the walk comes to from there before the
next one. -/
inductive Explores (edges : Nat → List Nat) : Walk → List Nat → Walk → Prop
  | nil (walk : Walk) : Explores edges walk [] walk
  | seen {walk after : Walk} {block : Nat} {rest : List Nat} (hseen : block ∈ walk.entered)
      (hrest : Explores edges walk rest after) : Explores edges walk (block :: rest) after
  | enter {walk inner after : Walk} {block : Nat} {rest : List Nat} (hnew : block ∉ walk.entered)
      (hinner : Explores edges { walk with entered := block :: walk.entered } (edges block) inner)
      (hrest : Explores edges { inner with left := block :: inner.left } rest after) :
      Explores edges walk (block :: rest) after

/-- Two walks have entered and left related blocks, in the same order. -/
structure Related (related : Nat → Nat → Prop) (walk walk' : Walk) : Prop where
  entered : List.Forall₂ related walk.entered walk'.entered
  left : List.Forall₂ related walk.left walk'.left

section Related

variable {related : Nat → Nat → Prop} {walk walk' : Walk} {a b : Nat}

theorem Related.start (related : Nat → Nat → Prop) : Related related ⟨[], []⟩ ⟨[], []⟩ :=
  ⟨.nil, .nil⟩

theorem Related.enter (h : walk.Related related walk') (hab : related a b) :
    Related related { walk with entered := a :: walk.entered }
      { walk' with entered := b :: walk'.entered } := ⟨.cons hab h.entered, h.left⟩

theorem Related.leave (h : walk.Related related walk') (hab : related a b) :
    Related related { walk with left := a :: walk.left }
      { walk' with left := b :: walk'.left } := ⟨h.entered, .cons hab h.left⟩

end Related

namespace Explores

variable {edges : Nat → List Nat} {walk after : Walk} {blocks : List Nat}

/-- There is one walk over given blocks. -/
theorem eq (h : Explores edges walk blocks after) {other : Walk}
    (h' : Explores edges walk blocks other) : after = other := by
  -- Whether the next block was entered before decides how the other walk goes on.
  induction h generalizing other with
  | nil walk =>
    cases h'
    rfl
  | seen hseen hrest ih =>
    cases h' with
    | seen _ hrest' => exact ih hrest'
    | enter hnew _ _ => exact absurd hseen hnew
  | enter hnew hinner hrest ihInner ihRest =>
    cases h' with
    | seen hseen _ => exact absurd hseen hnew
    | enter _ hinner' hrest' =>
      cases ihInner hinner'
      exact ihRest hrest'

/-- Blocks may be visited in two turns. -/
theorem append (h : Explores edges walk blocks after) {more : List Nat} {last : Walk}
    (h' : Explores edges after more last) : Explores edges walk (blocks ++ more) last := by
  induction h with
  | nil walk => exact h'
  | seen hseen _ ih => exact .seen hseen (ih h')
  | enter hnew hinner _ _ ih => exact .enter hnew hinner (ih h')

/-- What was entered stays entered. -/
theorem entered_subset (h : Explores edges walk blocks after) : walk.entered ⊆ after.entered := by
  induction h with
  | nil walk => exact fun _ hblock => hblock
  | seen _ _ ih => exact ih
  | enter _ _ _ ihInner ihRest =>
    exact fun block hblock => ihRest (ihInner (List.mem_cons_of_mem _ hblock))

/-- All blocks that are visited are entered. -/
theorem subset_entered (h : Explores edges walk blocks after) : blocks ⊆ after.entered := by
  induction h with
  | nil walk => exact fun _ hblock => nomatch hblock
  | seen hseen hrest ih =>
    intro block hblock
    rcases List.mem_cons.1 hblock with rfl | hblock
    · exact hrest.entered_subset hseen
    · exact ih hblock
  | enter _ hinner hrest _ ih =>
    intro block hblock
    rcases List.mem_cons.1 hblock with rfl | hblock
    · exact hrest.entered_subset (hinner.entered_subset List.mem_cons_self)
    · exact ih hblock

/-- From a block that is entered, the walk enters all blocks that it leads to. -/
theorem closed (h : Explores edges walk blocks after) {block : Nat} (hafter : block ∈ after.entered)
    (hbefore : block ∉ walk.entered) : edges block ⊆ after.entered := by
  induction h with
  | nil walk => exact absurd hafter hbefore
  | seen _ _ ih => exact ih hafter hbefore
  | @enter walk inner after first rest _ hinner hrest ihInner ihRest =>
    -- The block is entered first of all, on the way from there, or later.
    by_cases hentered : block ∈ inner.entered
    · refine fun next hnext => hrest.entered_subset ?_
      by_cases hfirst : block = first
      · subst hfirst
        exact hinner.subset_entered hnext
      · refine ihInner hentered (fun hmem => ?_) hnext
        exact (List.mem_cons.1 hmem).elim hfirst hbefore
    · exact ihRest hafter hentered

/-- Over related edges, a walk from related blocks comes to related blocks in the same order. -/
theorem transport {related : Nat → Nat → Prop} {edges' : Nat → List Nat}
    (hunique : Relator.BiUnique related)
    (hedges : ∀ a b, related a b → List.Forall₂ related (edges a) (edges' b))
    (h : Explores edges walk blocks after) {walk' : Walk} {blocks' : List Nat}
    (hwalk : walk.Related related walk') (hblocks : List.Forall₂ related blocks blocks') :
    ∃ after', Explores edges' walk' blocks' after' ∧ after.Related related after' := by
  -- The second walk is made along with the first. It has entered a block just if the first has
  -- entered the related one, because a block is related to one other only.
  induction h generalizing walk' blocks' with
  | nil walk =>
    cases hblocks
    exact ⟨walk', .nil walk', hwalk⟩
  | seen hseen _ ih =>
    cases hblocks with
    | cons hblock hrest =>
      obtain ⟨after', hexplores, hafter⟩ := ih hwalk hrest
      exact ⟨after', .seen ((List.rel_mem hunique hblock hwalk.entered).1 hseen) hexplores, hafter⟩
  | enter hnew _ _ ihInner ihRest =>
    cases hblocks with
    | cons hblock hrest =>
      obtain ⟨inner', hinner, hwalk'⟩ := ihInner (hwalk.enter hblock) (hedges _ _ hblock)
      obtain ⟨after', hexplores, hafter⟩ := ihRest (hwalk'.leave hblock) hrest
      refine ⟨after', .enter (fun hmem => hnew ?_) hinner hexplores, hafter⟩
      exact (List.rel_mem hunique hblock hwalk.entered).2 hmem

end Explores

/-! ## The limit -/

/-- The number of blocks that a walk can still enter. -/
def unentered (count : Nat) (walk : Walk) : Nat :=
  (Finset.range count \ walk.entered.toFinset).card

variable {edges : Nat → List Nat} {count depth : Nat}

/-- A walk that goes on has no more blocks to enter. -/
theorem unentered_le {walk after : Walk} (h : walk.entered ⊆ after.entered) :
    unentered count after ≤ unentered count walk :=
  Finset.card_le_card (Finset.sdiff_subset_sdiff subset_rfl fun _ hblock =>
    List.mem_toFinset.2 (h (List.mem_toFinset.1 hblock)))

/-- Entering a block leaves one less to enter. -/
theorem unentered_cons {walk : Walk} {block : Nat} (hlt : block < count)
    (hnew : block ∉ walk.entered) :
    unentered count { walk with entered := block :: walk.entered } + 1 = unentered count walk := by
  have hmem : block ∈ Finset.range count \ walk.entered.toFinset := by
    simp [hlt, hnew]
  unfold unentered
  rw [List.toFinset_cons, Finset.sdiff_insert, Finset.card_erase_add_one hmem]

/-- A walk over several blocks explores them if its visits do. -/
theorem explores_foldl {visit : Walk → Nat → Walk} {blocks : List Nat}
    (hvisit : ∀ walk, unentered count walk ≤ depth → ∀ block ∈ blocks,
      Explores edges walk [block] (visit walk block))
    (walk : Walk) (hdepth : unentered count walk ≤ depth) :
    Explores edges walk blocks (blocks.foldl visit walk) := by
  induction blocks generalizing walk with
  | nil => exact .nil walk
  | cons block rest ih =>
    have hfirst := hvisit walk hdepth block List.mem_cons_self
    exact hfirst.append (ih (fun walk hwalk other hother =>
      hvisit walk hwalk other (List.mem_cons_of_mem _ hother)) _
      (Nat.le_trans (unentered_le hfirst.entered_subset) hdepth))

/-- A visit explores its block, if it may go as deep as there are blocks to enter. -/
theorem explores_visit (hedges : ∀ block, ∀ next ∈ edges block, next < count) (walk : Walk)
    (hdepth : unentered count walk ≤ depth) {block : Nat} (hblock : block < count) :
    Explores edges walk [block] (visit edges depth walk block) := by
  -- By induction on the depth, over all walks: each block that is entered leaves one less to enter.
  induction depth generalizing walk block with
  | zero =>
    refine .seen ?_ (.nil walk)
    by_contra hnew
    have := unentered_cons hblock hnew
    omega
  | succ depth ih =>
    unfold visit
    split_ifs with hentered
    · exact .seen (by simpa using hentered) (.nil walk)
    · have hnew : block ∉ walk.entered := by simpa using hentered
      have hless := unentered_cons hblock hnew
      have hvisit : ∀ walk, unentered count walk ≤ depth → ∀ next ∈ edges block,
          Explores edges walk [next] (visit edges depth walk next) :=
        fun walk hwalk next hnext => ih walk hwalk (hedges block next hnext)
      refine .enter hnew (explores_foldl hvisit _ ?_) (.nil _)
      omega

end Walk

/-! ## A stack -/

/-- A search with a stack: the blocks that the walk has entered and not left yet, the latest first,
each with the blocks that it leads to and that are still to be visited from there. -/
structure Search where
  stack : List (Nat × List Nat)
  walk : Walk

namespace Search

/-- Go on from the latest block to the next one that it leads to, unless the walk has entered this
one, or leave the latest block if it leads to no more. -/
def next? (edges : Nat → List Nat) : Search → Option Search
  | ⟨[], _⟩ => none
  | ⟨(block, []) :: stack, walk⟩ => some ⟨stack, { walk with left := block :: walk.left }⟩
  | ⟨(block, next :: rest) :: stack, walk⟩ =>
    if walk.entered.contains next then some ⟨(block, rest) :: stack, walk⟩
    else some ⟨(next, edges next) :: (block, rest) :: stack,
      { walk with entered := next :: walk.entered }⟩

/-- One search becomes another in some steps. -/
def Becomes (edges : Nat → List Nat) : Search → Search → Prop :=
  Relation.ReflTransGen fun search search' => search.next? edges = some search'

end Search

/-- A search visits the blocks that the latest block leads to as the walk does, whatever is below it
on the stack. -/
theorem Walk.Explores.becomes {edges : Nat → List Nat} {walk after : Walk} {blocks : List Nat}
    (h : Explores edges walk blocks after) (latest : Nat) (stack : List (Nat × List Nat)) :
    Search.Becomes edges ⟨(latest, blocks) :: stack, walk⟩ ⟨(latest, []) :: stack, after⟩ := by
  induction h generalizing latest stack with
  | nil walk => exact .refl
  | seen hseen _ ih =>
    refine .head ?_ (ih latest stack)
    simp [Search.next?, hseen]
  | @enter walk inner after next rest hnew _ _ ihInner ihRest =>
    have henter : Search.next? edges ⟨(latest, next :: rest) :: stack, walk⟩
        = some ⟨(next, edges next) :: (latest, rest) :: stack,
          { walk with entered := next :: walk.entered }⟩ := by
      simp [Search.next?, hnew]
    -- The latest block waits below the next one until the search leaves that.
    exact .head henter ((ihInner next ((latest, rest) :: stack)).trans
      (.head rfl (ihRest latest stack)))

end FactGuard
