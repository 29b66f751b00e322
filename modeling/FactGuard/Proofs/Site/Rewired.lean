import Mathlib.Data.List.Basic
import FactGuard.Proofs.Guard.Lowering
import FactGuard.Proofs.Site.Cut

/-!
# The instructions of a cut block

What a cut does to instructions is to change labels that phis name, and to divide those of the block
between its two parts. So whatever does not depend on these labels, the names and the types of an
instruction among it, stays as it is (`Cut.exists_of_mem_rewire`), phis still stand first
(`Cut.phisFirst_head`, `Cut.phisFirst_tail`), and definitions are kept, each in one place
(`Cut.definedNames_perm`).
-/

namespace FactGuard

/-! ## Instructions up to labels -/

namespace Instr

@[simp] theorem operands_unlabelled (instr : Instr) :
    instr.unlabelled.operands = instr.operands := by
  cases instr <;> simp [unlabelled, operands]

@[simp] theorem names_unlabelled (instr : Instr) : instr.unlabelled.names = instr.names := by
  simp [names]

/-- Types fit whatever the labels are that a phi names. -/
@[simp] theorem fitsTypes_unlabelled (types : String → Option Ty) (instr : Instr) :
    instr.unlabelled.FitsTypes types ↔ instr.FitsTypes types := by
  cases instr with
  | phi dest values => simp only [unlabelled, FitsTypes, List.forall_mem_map]
  | _ => rfl

end Instr

namespace Block

/-- Behind an instruction that is no phi, no phi comes if phis stand first. -/
theorem isPhi_eq_false_of_pairwise {first : Instr} {rest : List Instr}
    (h : (first :: rest).Pairwise fun a b => b.isPhi = true → a.isPhi = true)
    (hfirst : first.isPhi = false) : ∀ instr ∈ rest, instr.isPhi = false := by
  intro instr hinstr
  by_contra hphi
  have := (List.pairwise_cons.1 h).1 instr hinstr (by simpa using hphi)
  rw [hfirst] at this
  cases this

/-- Phis still stand first if instructions are added that are no phis. -/
theorem pairwise_append_of_isPhi_eq_false {front added : List Instr}
    (h : front.Pairwise fun a b => b.isPhi = true → a.isPhi = true)
    (hadded : ∀ instr ∈ added, instr.isPhi = false) :
    (front ++ added).Pairwise fun a b => b.isPhi = true → a.isPhi = true := by
  have hbehind : ∀ a : Instr, ∀ b ∈ added, b.isPhi = true → a.isPhi = true := by
    intro a b hb hphi
    rw [hadded b hb] at hphi
    cases hphi
  exact List.pairwise_append.2
    ⟨h, List.pairwise_of_forall_mem_list fun a _ => hbehind a, fun a _ => hbehind a⟩

/-- Phis stand first if none comes behind another instruction. -/
theorem phisFirst_iff {block : Block} :
    block.PhisFirst ↔ block.instrs.Pairwise fun a b => b.isPhi = true → a.isPhi = true := by
  have hphis : ∀ instr ∈ block.phis, instr.isPhi = true := fun _ => isPhi_of_mem_phis
  rw [← block.phis_append_body, List.pairwise_append]
  constructor
  · intro h
    refine ⟨List.pairwise_of_forall_mem_list fun a ha _ _ _ => hphis a ha,
      List.pairwise_of_forall_mem_list fun _ _ b hb hphi => ?_, fun a ha _ _ _ => hphis a ha⟩
    rw [h b hb] at hphi
    cases hphi
  · rintro ⟨-, hbody, -⟩
    -- The body starts with an instruction that is no phi, so no phi comes behind it.
    unfold PhisFirst
    have hstart := block.takeWhile_body
    cases hcase : block.body with
    | nil => simp
    | cons first rest =>
      rw [hcase] at hbody hstart
      have hfirst : first.isPhi = false := by
        by_contra hphi
        simp [eq_true_of_ne_false hphi] at hstart
      intro instr hinstr
      rcases List.mem_cons.1 hinstr with rfl | hrest
      · exact hfirst
      · exact isPhi_eq_false_of_pairwise hbody hfirst instr hrest

/-- Whether phis stand first does not depend on the labels that they name. -/
theorem PhisFirst.congr {block block' : Block} (h : block.PhisFirst)
    (heq : block'.instrs.map Instr.unlabelled = block.instrs.map Instr.unlabelled) :
    block'.PhisFirst := by
  have hmap : ∀ instrs : List Instr,
      instrs.Pairwise (fun a b => b.isPhi = true → a.isPhi = true) ↔
        (instrs.map Instr.unlabelled).Pairwise fun a b => b.isPhi = true → a.isPhi = true := by
    intro instrs
    simp [List.pairwise_map]
  rw [phisFirst_iff, hmap] at h ⊢
  rwa [heq]

/-- An instruction that is no phi stands behind the phis of its block. -/
theorem length_phis_le {block : Block} {index : Nat} {instr : Instr}
    (hget : block.instrs[index]? = some instr) (hphi : instr.isPhi = false) :
    block.phis.length ≤ index := by
  by_contra hlt
  have hmem : instr ∈ block.phis := by
    rw [← block.phis_append_body, List.getElem?_append_left (Nat.lt_of_not_le hlt)] at hget
    exact List.mem_of_getElem? hget
  rw [isPhi_of_mem_phis hmem] at hphi
  cases hphi

/-- In a block whose phis stand first, none comes behind an instruction that is no phi. -/
theorem PhisFirst.isPhi_of_mem_drop {block : Block} (h : block.PhisFirst) {index : Nat}
    {instr : Instr} (hget : block.instrs[index]? = some instr) (hphi : instr.isPhi = false) :
    ∀ other ∈ block.instrs.drop index, other.isPhi = false := by
  intro other hother
  obtain ⟨i, hi⟩ := List.mem_iff_getElem?.1 hother
  rw [List.getElem?_drop] at hi
  obtain ⟨hlt, hget⟩ := List.getElem?_eq_some_iff.1 hget
  obtain ⟨hlt', hi⟩ := List.getElem?_eq_some_iff.1 hi
  by_cases hzero : i = 0
  · subst hzero
    rw [← hi, ← hphi, ← hget]
    rfl
  · by_contra hne
    have hfirst := List.pairwise_iff_getElem.1 (phisFirst_iff.1 h) index (index + i) hlt hlt'
      (by omega) (by rw [hi]; simpa using hne)
    rw [hget, hphi] at hfirst
    cases hfirst

/-- In a block whose phis stand first, the phis are those in front. -/
theorem PhisFirst.mem_phis {block : Block} (h : block.PhisFirst) {instr : Instr}
    (hmem : instr ∈ block.instrs) (hphi : instr.isPhi = true) : instr ∈ block.phis := by
  rw [← block.phis_append_body] at hmem
  rcases List.mem_append.1 hmem with hmem | hmem
  · exact hmem
  · rw [h instr hmem] at hphi
    cases hphi

/-- The names that the instructions of a block define. -/
def definedNames (block : Block) : List String := block.instrs.filterMap Instr.dest?

/-- What is defined does not depend on the labels that phis name. -/
theorem definedNames_congr {block block' : Block}
    (heq : block'.instrs.map Instr.unlabelled = block.instrs.map Instr.unlabelled) :
    block'.definedNames = block.definedNames := by
  have hmap : ∀ instrs : List Instr,
      instrs.filterMap Instr.dest? = (instrs.map Instr.unlabelled).filterMap Instr.dest? := by
    intro instrs
    rw [List.filterMap_map]
    congr 1
    exact funext fun instr => (Instr.dest?_unlabelled instr).symm
  unfold definedNames
  rw [hmap, hmap block.instrs, heq]

end Block

theorem Function.definedNames_eq (f : Function) :
    f.definedNames = f.blocks.flatMap Block.definedNames := List.filterMap_flatMap ..

/-! ## The parts of a cut -/

namespace Cut

variable {c : Cut}

/-- An instruction that is no phi stays in a rewired block. -/
theorem getElem?_rewire {block : Block} {index : Nat} {instr : Instr}
    (hget : block.instrs[index]? = some instr) (hphi : instr.isPhi = false) :
    (c.rewire block).instrs[index]? = some instr := by
  have hsame : ((c.rewire block).instrs.map Instr.unlabelled)[index]? = some instr.unlabelled := by
    rw [map_unlabelled_rewire, List.getElem?_map, hget, Option.map_some]
  rw [List.getElem?_map] at hsame
  obtain ⟨other, hother, heq⟩ := Option.map_eq_some_iff.1 hsame
  rw [hother, Instr.eq_of_unlabelled_eq heq hphi]

/-- Behind its phis, a rewired block stays as it is. -/
theorem drop_rewire {block : Block} {index : Nat}
    (hphi : ∀ instr ∈ block.instrs.drop index, instr.isPhi = false) :
    (c.rewire block).instrs.drop index = block.instrs.drop index := by
  refine List.ext_getElem? fun i => ?_
  cases hget : (block.instrs.drop index)[i]? with
  | none =>
    have hlength := congrArg List.length (c.map_unlabelled_rewire block)
    rw [List.length_map, List.length_map] at hlength
    rw [List.getElem?_eq_none_iff, List.length_drop] at hget ⊢
    omega
  | some instr =>
    have hnot := hphi instr (List.mem_of_getElem? hget)
    rw [List.getElem?_drop] at hget ⊢
    exact getElem?_rewire hget hnot

/-- An instruction of a rewired block is one of the block up to labels. -/
theorem exists_of_mem_rewire {block : Block} {instr : Instr} (h : instr ∈ (c.rewire block).instrs) :
    ∃ instr' ∈ block.instrs, instr'.unlabelled = instr.unlabelled := by
  have hmem : instr.unlabelled ∈ (c.rewire block).instrs.map Instr.unlabelled :=
    List.mem_map_of_mem h
  rw [map_unlabelled_rewire] at hmem
  exact List.mem_map.1 hmem

/-- An instruction of the first part is one of the block up to labels, or was added. -/
theorem exists_of_mem_head {instr : Instr} (h : instr ∈ c.head.instrs) :
    (∃ instr' ∈ c.block.instrs, instr'.unlabelled = instr.unlabelled) ∨ instr ∈ c.extra := by
  rcases List.mem_append.1 h with h | h
  · obtain ⟨instr', hmem, heq⟩ := exists_of_mem_rewire h
    exact .inl ⟨instr', List.mem_of_mem_take hmem, heq⟩
  · exact .inr h

/-- An instruction of the second part is one of the block up to labels. -/
theorem exists_of_mem_tail {instr : Instr} (h : instr ∈ c.tail.instrs) :
    ∃ instr' ∈ c.block.instrs, instr'.unlabelled = instr.unlabelled := by
  obtain ⟨instr', hmem, heq⟩ := exists_of_mem_rewire h
  exact ⟨instr', List.mem_of_mem_drop hmem, heq⟩

theorem phisFirst_front (h : c.block.PhisFirst) : c.front.PhisFirst := by
  rw [Block.phisFirst_iff] at h ⊢
  exact h.sublist (List.take_sublist _ _)

/-- Phis stand first in the first part. -/
theorem phisFirst_head (h : c.block.PhisFirst) (hextra : ∀ instr ∈ c.extra, instr.isPhi = false) :
    c.head.PhisFirst := by
  have hfront := (phisFirst_front h).congr (c.map_unlabelled_rewire c.front)
  rw [Block.phisFirst_iff] at hfront ⊢
  exact Block.pairwise_append_of_isPhi_eq_false hfront hextra

/-- Phis stand first in the second part. -/
theorem phisFirst_tail (h : c.block.PhisFirst) : c.tail.PhisFirst := by
  refine Block.PhisFirst.congr ?_ (c.map_unlabelled_rewire _)
  rw [Block.phisFirst_iff] at h ⊢
  exact h.sublist (List.drop_sublist _ _)

/-- If the block is cut behind an instruction that is no phi, its second part has no phis. -/
theorem isPhi_tail (h : c.block.PhisFirst) {index : Nat} {instr : Instr}
    (hget : c.block.instrs[index]? = some instr) (hphi : instr.isPhi = false)
    (hcount : c.count = index + 1) : ∀ other ∈ c.tail.instrs, other.isPhi = false := by
  intro other hother
  obtain ⟨old, hold, heq⟩ := exists_of_mem_rewire hother
  rw [← Instr.isPhi_unlabelled, ← heq, Instr.isPhi_unlabelled]
  refine h.isPhi_of_mem_drop hget hphi old ?_
  rw [hcount, ← List.drop_drop] at hold
  exact List.mem_of_mem_drop hold

/-- The label by which the phis of the block `label` know, after the cut, the block that they knew
by `pred`: that of the second part in place of the block if the block leads there. -/
def arrival (c : Cut) (label pred : String) : String :=
  if label ∈ c.block.terminator.successors ∧ pred = c.block.label then c.label else pred

/-- The phis of a rewired block name what they named, up to the second part. -/
theorem phis_rewire (c : Cut) (block : Block) :
    (c.rewire block).phis = block.phis.map (Instr.relabel (c.arrival block.label)) := by
  unfold rewire arrival
  by_cases htarget : block.label ∈ c.block.terminator.successors
  · rw [Block.redirectIn_of_mem htarget, Block.phis_redirect]
    refine List.map_congr_left fun instr _ => ?_
    rw [Instr.redirect_eq_relabel]
    exact Instr.relabel_congr fun label _ => by simp [htarget]
  · rw [Block.redirectIn_of_not_mem htarget]
    refine (List.map_id _).symm.trans (List.map_congr_left fun instr _ => ?_)
    cases instr <;> simp [Instr.relabel, htarget]

/-- A phi of a rewired block names what it named, up to the second part. -/
theorem exists_phi_of_mem_rewire {block : Block} (h : block.PhisFirst) {dest : String}
    {values : List (Operand × String)} (hmem : .phi dest values ∈ (c.rewire block).instrs) :
    ∃ old, .phi dest old ∈ block.instrs ∧
      values.map Prod.snd = (old.map Prod.snd).map (c.arrival block.label) := by
  have hfirst := h.congr (c.map_unlabelled_rewire block)
  have hphis := hfirst.mem_phis hmem rfl
  rw [phis_rewire] at hphis
  obtain ⟨phi, hphi, heq⟩ := List.mem_map.1 hphis
  have hinstr : phi ∈ block.instrs := by
    rw [← block.phis_append_body]
    exact List.mem_append_left _ hphi
  cases phi with
  | phi dest' old =>
    -- Relabelling changes the labels of a phi only.
    simp only [Instr.relabel, Instr.phi.injEq] at heq
    obtain ⟨rfl, rfl⟩ := heq
    exact ⟨old, hinstr, by simp [Function.comp_def]⟩
  | _ => cases heq

/-- If the block is cut behind an instruction that is no phi, its first part has all of its phis. -/
theorem phis_head {index : Nat} {instr : Instr} (hget : c.block.instrs[index]? = some instr)
    (hphi : instr.isPhi = false) (hcount : c.count = index + 1) :
    c.head.phis = c.block.phis.map (Instr.relabel (c.arrival c.block.label)) := by
  -- Phis end in front of that instruction, whatever comes behind.
  have htake : ∀ front back : List Instr, (∃ other ∈ front, other.isPhi = false) →
      (front ++ back).takeWhile Instr.isPhi = front.takeWhile Instr.isPhi := by
    intro front back hother
    rw [List.takeWhile_append, if_neg]
    intro hlength
    obtain ⟨other, hmem, hother⟩ := hother
    rw [(List.takeWhile_prefix _).eq_of_length hlength |>.symm] at hmem
    have := List.all_eq_true.1 List.all_takeWhile other hmem
    rw [hother] at this
    cases this
  -- The instruction itself is in front of the cut.
  have hfront : instr ∈ c.front.instrs := by
    refine List.mem_of_getElem? (i := index) ?_
    show (c.block.instrs.take c.count)[index]? = some instr
    rw [List.getElem?_take_of_lt (by omega), hget]
  have hphis : c.front.phis = c.block.phis := by
    unfold Block.phis
    rw [← List.take_append_drop c.count c.block.instrs]
    exact (htake _ _ ⟨instr, hfront, hphi⟩).symm
  have hrewired : ∃ other ∈ (c.rewire c.front).instrs, other.isPhi = false := by
    have hmem : instr.unlabelled ∈ (c.rewire c.front).instrs.map Instr.unlabelled := by
      rw [map_unlabelled_rewire]
      exact List.mem_map_of_mem hfront
    obtain ⟨other, hother, heq⟩ := List.mem_map.1 hmem
    exact ⟨other, hother, by rw [← Instr.isPhi_unlabelled, heq, Instr.isPhi_unlabelled, hphi]⟩
  have hhead : c.head.phis = (c.rewire c.front).phis := htake _ _ hrewired
  rw [hhead, phis_rewire, hphis]
  rfl

/-- The definitions of the first part are those in front of the cut and what was added. -/
theorem definedNames_head :
    c.head.definedNames = c.front.definedNames ++ c.extra.filterMap Instr.dest? := by
  unfold Block.definedNames
  rw [head, List.filterMap_append]
  congr 1
  exact Block.definedNames_congr (c.map_unlabelled_rewire c.front)

/-- A cut keeps all definitions and adds those of the instructions that it adds. -/
theorem definedNames_perm {f f' : Function} {host : Nat}
    (hhost : f.blocks[host]? = some c.block) (hblocks : f'.blocks = c.blocks host f.blocks) :
    f'.definedNames.Perm (f.definedNames ++ c.extra.filterMap Instr.dest?) := by
  obtain ⟨hlt, hget⟩ := List.getElem?_eq_some_iff.1 hhost
  have hrewire : ∀ blocks : List Block,
      (blocks.map c.rewire).flatMap Block.definedNames = blocks.flatMap Block.definedNames := by
    intro blocks
    rw [List.flatMap_map]
    congr 1
    exact funext fun block => Block.definedNames_congr (c.map_unlabelled_rewire block)
  have htail : c.tail.definedNames = (c.block.instrs.drop c.count).filterMap Instr.dest? :=
    Block.definedNames_congr (c.map_unlabelled_rewire _)
  have hsplit : c.block.definedNames
      = c.front.definedNames ++ (c.block.instrs.drop c.count).filterMap Instr.dest? := by
    show _ = (c.block.instrs.take c.count).filterMap Instr.dest? ++ _
    rw [← List.filterMap_append, List.take_append_drop]
    rfl
  -- The block that is cut stands between those in front of it and those behind it.
  have hblock : f.blocks.flatMap Block.definedNames
      = (f.blocks.take host).flatMap Block.definedNames ++ (c.block.definedNames
        ++ (f.blocks.drop (host + 1)).flatMap Block.definedNames) := by
    rw [← List.flatMap_cons, ← List.flatMap_append, ← hget, List.getElem_cons_drop,
      List.take_append_drop]
  rw [Function.definedNames_eq, Function.definedNames_eq, hblocks, c.blocks_eq hhost, hblock]
  simp only [List.flatMap_append, List.flatMap_cons, List.flatMap_nil, hrewire, htail, hsplit,
    definedNames_head, List.append_nil]
  rw [List.perm_iff_count]
  intro name
  simp only [List.count_append]
  omega

end Cut

end FactGuard
