import FactGuard.Proofs.Fact.Walk

/-!
# Walks over subdivided blocks

If every block is replaced by a chain of pieces, the last of which leads where the block did, a walk
leaves the pieces of each block one after another in place of the block
(`Walk.Subdivides.left_eq`), whatever loops the edges make: the pieces behind the first one have no
other way in, so a walk enters all of them or none (`Walk.Expands`).

A block that leads nowhere can be left out of a walk, with the edges to it, and all that the walk
does to other blocks stays as it is (`Walk.Explores.without`).
-/

namespace FactGuard

namespace Walk

/-! ## Blocks that lead nowhere -/

/-- The walk without one block. -/
def without (walk : Walk) (leaf : Nat) : Walk :=
  ⟨walk.entered.filter (· != leaf), walk.left.filter (· != leaf)⟩

/-- A walk does not need a block that leads nowhere. -/
theorem Explores.without {edges : Nat → List Nat} {leaf : Nat} (hleaf : edges leaf = [])
    {walk after : Walk} {blocks : List Nat} (h : Explores edges walk blocks after) :
    Explores (fun block => (edges block).filter (· != leaf)) (walk.without leaf)
      (blocks.filter (· != leaf)) (after.without leaf) := by
  induction h with
  | nil walk => exact .nil _
  | @seen walk after block rest hseen _ ih =>
    by_cases hblock : block = leaf
    · simpa [hblock] using ih
    · rw [List.filter_cons_of_pos (by simpa using hblock)]
      exact .seen (List.mem_filter.2 ⟨hseen, by simpa using hblock⟩) ih
  | @enter walk inner after block rest hnew hinner _ ihInner ihRest =>
    by_cases hblock : block = leaf
    · -- The walk comes back from there at once.
      subst hblock
      rw [hleaf] at hinner
      cases hinner
      simpa [Walk.without] using ihRest
    · have hentered : ({ walk with entered := block :: walk.entered } : Walk).without leaf
          = { walk.without leaf with entered := block :: (walk.without leaf).entered } := by
        simp [Walk.without, hblock]
      have hleft : ({ inner with left := block :: inner.left } : Walk).without leaf
          = { inner.without leaf with left := block :: (inner.without leaf).left } := by
        simp [Walk.without, hblock]
      rw [hentered] at ihInner
      rw [hleft] at ihRest
      rw [List.filter_cons_of_pos (by simpa using hblock)]
      exact .enter (fun hmem => hnew (List.mem_filter.1 hmem).1) ihInner ihRest

/-! ## Chains -/

/-- Each block of a list leads to the next one only, and the last one leads to `out`. -/
inductive Leads (edges : Nat → List Nat) (out : List Nat) : (first : Nat) → List Nat → Prop
  | last {block : Nat} (hout : edges block = out) : Leads edges out block [block]
  | cons {block next : Nat} {rest : List Nat} (hnext : edges block = [next])
      (hrest : Leads edges out next rest) : Leads edges out block (block :: rest)

section Leads

variable {edges : Nat → List Nat} {out chain : List Nat} {first : Nat}

theorem Leads.first_mem (h : Leads edges out first chain) : first ∈ chain := by
  cases h <;> exact List.mem_cons_self

/-- A walk that comes to a chain enters all of it, goes on from its end, and leaves all of it. -/
theorem Leads.explores (h : Leads edges out first chain) {walk inner : Walk}
    (hnodup : chain.Nodup) (hnew : ∀ block ∈ chain, block ∉ walk.entered)
    (hinner : Explores edges { walk with entered := chain.reverse ++ walk.entered } out inner) :
    Explores edges walk [first] { inner with left := chain ++ inner.left } := by
  induction h generalizing walk with
  | last hout =>
    refine .enter (hnew _ List.mem_cons_self) ?_ (.nil _)
    rw [hout]
    exact hinner
  | @cons block next rest hnext _ ih =>
    obtain ⟨hblock, hrest⟩ := List.nodup_cons.1 hnodup
    -- From the first block, the walk goes through the rest of the chain only.
    have hwalk : Explores edges { walk with entered := block :: walk.entered } (edges block)
        { inner with left := rest ++ inner.left } := by
      rw [hnext]
      refine ih hrest (fun other hother hmem => ?_) ?_
      · rcases List.mem_cons.1 hmem with rfl | hmem
        · exact hblock hother
        · exact hnew other (List.mem_cons_of_mem _ hother) hmem
      · simpa using hinner
    exact .enter (hnew _ List.mem_cons_self) hwalk (.nil _)

end Leads

/-! ## Subdivided blocks -/

/-- Each of `count` blocks is replaced by a chain of pieces that starts with the block, and no two
blocks have a piece in common. -/
structure Subdivides (count : Nat) (edges edges' : Nat → List Nat) (pieces : Nat → List Nat) :
    Prop where
  edges_lt : ∀ i < count, ∀ next ∈ edges i, next < count
  leads : ∀ i < count, Leads edges' (edges i) i (pieces i)
  nodup : ∀ i < count, (pieces i).Nodup
  disjoint : ∀ i < count, ∀ j < count, i ≠ j → List.Disjoint (pieces i) (pieces j)

/-- A walk has done to the pieces of blocks what the other one has done to the blocks. -/
structure Expands (count : Nat) (pieces : Nat → List Nat) (walk walk' : Walk) : Prop where
  mem_entered_iff : ∀ i < count, ∀ piece ∈ pieces i, piece ∈ walk'.entered ↔ i ∈ walk.entered
  left_eq : walk'.left = walk.left.flatMap pieces

section Subdivides

variable {count : Nat} {edges edges' : Nat → List Nat} {pieces : Nat → List Nat}
  {walk walk' after : Walk} {blocks : List Nat}

/-- No walk has entered anything at the start. -/
theorem Expands.start (count : Nat) (pieces : Nat → List Nat) :
    Expands count pieces ⟨[], []⟩ ⟨[], []⟩ where
  mem_entered_iff := by simp
  left_eq := rfl

/-- All pieces of a block are entered where the block is. -/
theorem Expands.enter (h : Subdivides count edges edges' pieces)
    (hwalk : walk.Expands count pieces walk') {i : Nat} (hi : i < count) :
    Expands count pieces { walk with entered := i :: walk.entered }
      { walk' with entered := (pieces i).reverse ++ walk'.entered } where
  mem_entered_iff := by
    intro j hj piece hpiece
    have hother := hwalk.mem_entered_iff j hj piece hpiece
    by_cases hij : j = i
    · subst hij
      simp [hpiece]
    · have hnot : piece ∉ pieces i := fun hmem => h.disjoint j hj i hi hij hpiece hmem
      simp [hother, hnot, hij]
  left_eq := hwalk.left_eq

/-- All pieces of a block are left where the block is. -/
theorem Expands.leave (hwalk : walk.Expands count pieces walk') (i : Nat) :
    Expands count pieces { walk with left := i :: walk.left }
      { walk' with left := pieces i ++ walk'.left } where
  mem_entered_iff := hwalk.mem_entered_iff
  left_eq := by rw [List.flatMap_cons, hwalk.left_eq]

namespace Subdivides

/-- A walk over pieces goes along with one over the blocks. -/
theorem explores (h : Subdivides count edges edges' pieces)
    (hexplores : Explores edges walk blocks after) (hblocks : ∀ i ∈ blocks, i < count)
    (hwalk : walk.Expands count pieces walk') :
    ∃ after', Explores edges' walk' blocks after' ∧ after.Expands count pieces after' := by
  induction hexplores generalizing walk' with
  | nil walk => exact ⟨walk', .nil walk', hwalk⟩
  | @seen _ _ i _ hseen _ ih =>
    obtain ⟨hi, hrest⟩ := List.forall_mem_cons.1 hblocks
    obtain ⟨after', hexplores', hafter⟩ := ih hrest hwalk
    have hseen' := (hwalk.mem_entered_iff i hi i (h.leads i hi).first_mem).2 hseen
    exact ⟨after', .seen hseen' hexplores', hafter⟩
  | @enter _ _ _ i _ hnew _ _ ihInner ihRest =>
    obtain ⟨hi, hrest⟩ := List.forall_mem_cons.1 hblocks
    -- The walk goes through all pieces, then where the block leads, and back through all pieces.
    obtain ⟨inner', hinner', hinner⟩ := ihInner (h.edges_lt i hi) (hwalk.enter h hi)
    have hpieces : ∀ piece ∈ pieces i, piece ∉ walk'.entered := fun piece hpiece hmem =>
      hnew ((hwalk.mem_entered_iff i hi piece hpiece).1 hmem)
    have hchain := (h.leads i hi).explores (h.nodup i hi) hpieces hinner'
    obtain ⟨after', hafter', hafter⟩ := ihRest hrest (hinner.leave i)
    exact ⟨after', hchain.append hafter', hafter⟩

/-- A walk over pieces leaves the pieces of each block in place of the block. -/
theorem left_eq (h : Subdivides count edges edges' pieces) {block : Nat} (hblock : block < count)
    {after' : Walk} (hexplores : Explores edges ⟨[], []⟩ [block] after)
    (hexplores' : Explores edges' ⟨[], []⟩ [block] after') :
    after'.left = after.left.flatMap pieces := by
  obtain ⟨other, hother, hexpands⟩ :=
    h.explores hexplores (List.forall_mem_singleton.2 hblock) (.start count pieces)
  rw [hexplores'.eq hother, hexpands.left_eq]

end Subdivides

end Subdivides

end Walk

end FactGuard
