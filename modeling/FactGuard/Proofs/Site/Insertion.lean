import FactGuard.Proofs.Guard.Lowering
import FactGuard.Proofs.Site.Cut

/-!
# Putting in a guard

What guarding a finding does to a splicer, said once: it leaves it alone if there is nothing to
check, and else it cuts the block that holds the rest of the finding's block
(`Splicer.guard_eq_ok`). The record `Splicer.Inserts` says all that such a step changes, and every
invariant of splicers is derived from it.
-/

namespace FactGuard

namespace Splicer

/-- The cut that a guard makes behind the instruction at `index` of a block. -/
def cut (s : Splicer) (finding : Finding) (condition : Condition) (host index : Nat)
    (block : Block) : Cut :=
  let rest := s.function.freshLabel (finding.block ++ ".cont")
  match condition with
  | .always => ⟨block, index + 1, rest, [], .goto s.trap⟩
  | .violated guard =>
    let lowered := guard.lower finding.value finding.ty (s.function.split host (index + 1) rest)
    ⟨block, index + 1, rest, lowered.1.instrs, .branch lowered.2 s.trap rest⟩

variable {s s' : Splicer} {finding : Finding} {condition : Condition} {host index : Nat}
  {block : Block} {kind : SiteKind}

/-- Putting in a guard cuts the block. -/
theorem insert_blocks (finding : Finding) (condition : Condition) (index : Nat)
    (hs : s.function.labels.Nodup) (hhost : s.function.blocks[host]? = some block) :
    (s.insert finding condition host index).1.function.blocks
      = (s.cut finding condition host index block).blocks host s.function.blocks := by
  have hsplit := Function.split_eq hs hhost
    (s.function.freshLabel_not_mem (finding.block ++ ".cont"))
    (index + 1)
  cases condition with
  | always => exact Function.endBlock_split hhost (by rw [hsplit]) _ _
  | violated guard => exact Function.endBlock_split hhost (by rw [Guard.blocks_lower, hsplit]) _ _

/-- What a guard behind an instruction changes: the block that holds the rest of the finding's block
is cut behind the instruction that defines the value. -/
structure Inserts (s : Splicer) (finding : Finding) (condition : Condition) (s' : Splicer)
    (host : Nat) (c : Cut) : Prop where
  host_eq : s.function.blocks[host]? = some c.block
  label_block : c.block.label = (s.cursor finding.block).label
  base_le : (s.cursor finding.block).base ≤ finding.index
  count_eq : c.count = finding.index - (s.cursor finding.block).base + 1
  defines : (c.block.instrs[finding.index - (s.cursor finding.block).base]?).bind Instr.dest?
    = some finding.value
  label_eq : c.label = s.function.freshLabel (finding.block ++ ".cont")
  blocks_eq : s'.function.blocks = c.blocks host s.function.blocks
  trap_eq : s'.trap = s.trap
  cursors_eq : s'.cursors = s.cursors.insert finding.block ⟨c.label, finding.index + 1⟩
  always : condition = .always →
    c.extra = [] ∧ c.terminator = .goto s.trap ∧ s'.function.header = s.function.header
  violated : ∀ guard, condition = .violated guard → ∃ g : Function,
    g.header = s.function.header ∧ c.extra = (guard.lower finding.value finding.ty g).1.instrs ∧
      c.terminator = .branch (guard.lower finding.value finding.ty g).2 s.trap c.label ∧
      s'.function.header = (guard.lower finding.value finding.ty g).1.function.header

/-- Where the instruction of a finding is: in the block that holds the rest of the finding's block.
-/
theorem locate_eq_ok_iff (hs : s.function.labels.Nodup) :
    s.locate finding = .ok (host, index) ↔
      (s.cursor finding.block).base ≤ finding.index ∧
      index = finding.index - (s.cursor finding.block).base ∧
      ∃ block, s.function.blocks[host]? = some block ∧
        block.label = (s.cursor finding.block).label ∧
        block.instrs[index]?.bind Instr.dest? = some finding.value := by
  unfold locate
  by_cases hlt : finding.index < (s.cursor finding.block).base
  · -- The finding comes too late.
    simp only [hlt, if_true]
    constructor
    · intro h
      cases h
    · rintro ⟨hle, -⟩
      omega
  · have hle : (s.cursor finding.block).base ≤ finding.index := by omega
    simp only [hlt, if_false]
    cases hpos : s.function.position? (s.cursor finding.block).label with
    | none =>
      constructor
      · intro h
        cases h
      · rintro ⟨-, -, block, hblock, hlabel, -⟩
        exact absurd (Function.mem_labels.2 ⟨block, List.mem_of_getElem? hblock, hlabel⟩)
          ((Function.position?_eq_none_iff _ _).1 hpos)
    | some found =>
      -- There is one block with the label of the cursor, so the one found is the one claimed.
      obtain ⟨block, hblock, hlabel⟩ := (Function.position?_eq_some_iff hs _ _).1 hpos
      dsimp only
      rw [hblock, Option.bind_some]
      split_ifs with hdest
      · constructor
        · intro h
          cases h
          exact ⟨hle, rfl, block, hblock, hlabel, hdest⟩
        · rintro ⟨-, rfl, block', hblock', hlabel', -⟩
          have : host = found := Function.index_eq_of_label_eq hs hblock' hblock
            (hlabel'.trans hlabel.symm)
          rw [this]
          rfl
      · constructor
        · intro h
          cases h
        · rintro ⟨-, rfl, block', hblock', hlabel', hdest'⟩
          have : block' = block := Function.eq_of_label_eq hs (List.mem_of_getElem? hblock')
            (List.mem_of_getElem? hblock) (hlabel'.trans hlabel.symm)
          rw [this] at hdest'
          exact absurd hdest' hdest

/-- Putting in a guard at a place that was located. -/
theorem inserts_insert (condition : Condition) (hs : s.function.labels.Nodup)
    (hlocate : s.locate finding = .ok (host, index)) :
    ∃ c, Inserts s finding condition (s.insert finding condition host index).1 host c := by
  obtain ⟨hle, rfl, block, hhost, hlabel, hdest⟩ := (locate_eq_ok_iff hs).1 hlocate
  have hsplit := Function.split_eq hs hhost
    (s.function.freshLabel_not_mem (finding.block ++ ".cont"))
    (finding.index - (s.cursor finding.block).base + 1)
  have hblocks := insert_blocks finding condition
    (finding.index - (s.cursor finding.block).base) hs hhost
  refine ⟨s.cut finding condition host (finding.index - (s.cursor finding.block).base) block, ?_⟩
  cases condition with
  | always =>
    refine ⟨hhost, hlabel, hle, rfl, hdest, rfl, hblocks, rfl, rfl, fun _ => ⟨rfl, rfl, ?_⟩,
      by rintro guard ⟨⟩⟩
    show (s.function.split _ _ _).header = _
    rw [hsplit]
    rfl
  | violated guard =>
    refine ⟨hhost, hlabel, hle, rfl, hdest, rfl, hblocks, rfl, rfl, (by rintro ⟨⟩), ?_⟩
    intro guard' h
    cases h
    exact ⟨_, by rw [hsplit]; rfl, rfl, rfl, rfl⟩

/-- What guarding a finding does: nothing if there is nothing to check, and else it puts in a guard.
-/
theorem guard_eq_ok (hs : s.function.labels.Nodup)
    (h : s.guard finding condition = .ok (s', kind)) :
    (condition.isVacuous = true ∧ s' = s ∧ kind = .skipped) ∨
      (condition.isVacuous = false ∧ kind ≠ .skipped ∧
        ∃ host c, Inserts s finding condition s' host c) := by
  unfold guard at h
  split_ifs at h with hvacuous
  · cases h
    exact .inl ⟨hvacuous, rfl, rfl⟩
  · cases hlocate : s.locate finding with
    | error failure =>
      rw [hlocate] at h
      cases h
    | ok place =>
      obtain ⟨host, index⟩ := place
      rw [hlocate] at h
      obtain ⟨c, hc⟩ := inserts_insert condition hs hlocate
      have hresult : s.insert finding condition host index = (s', kind) := Except.ok.inj h
      rw [hresult] at hc
      refine .inr ⟨by simpa using hvacuous, ?_, host, c, hc⟩
      have hkind : kind = (s.insert finding condition host index).2 := by rw [hresult]
      rw [hkind]
      cases condition <;> simp [insert]

end Splicer

end FactGuard
