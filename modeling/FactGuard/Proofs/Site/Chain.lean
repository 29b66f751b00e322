import FactGuard.Proofs.Site.Layout

/-!
# The pieces of a block

Guards divide a block into a chain of pieces. `Divided` says what each piece holds: a slice of the
block's instructions that ends with a guarded one, the instructions of the guard, and the way to the
trap block and to the next piece; the last piece holds what is left, and ends as the block does. One
more guard divides the last piece (`Divided.cut`), and may change labels in all of them
(`Divided.rewire`).
-/

namespace FactGuard

/-- How a piece ends with a guard: it always goes to the trap block, or a truth value that the guard
computes decides between the trap block and the next piece. -/
inductive Condition.Exits (trap next : String) : Condition → List Instr → Terminator → Prop
  | always : Exits trap next .always [] (.goto trap)
  | violated {guard : Guard} {extra : List Instr} {result : String}
      (hresult : some result ∈ extra.map Instr.dest?) :
      Exits trap next (.violated guard) extra (.branch (.place result) trap next)

/-- Guards divide instructions from the index `start` on: the pieces hold those up to a guarded
instruction each, and then instructions that define some of the names `temps`, and the last piece
holds the rest. The first piece has the label. -/
inductive Divided (trap : String) (temps : List String) (terminator : Terminator) :
    (label : String) → (start : Nat) → List (Finding × Condition) → List Instr → List Block →
    Block → Prop
  | last (label : String) (start : Nat) (instrs : List Instr) :
      Divided trap temps terminator label start [] instrs [] ⟨label, instrs, terminator⟩
  | guard {label next : String} {start : Nat} {call : Finding × Condition}
      {calls : List (Finding × Condition)} {slice extra rest : List Instr} {guarded : Instr}
      {exit : Terminator} {pieces : List Block} {last : Block}
      (hindex : start + slice.length = call.1.index)
      (hdest : guarded.dest? = some call.1.value) (hphi : guarded.isPhi = false)
      (hextra : ∀ instr ∈ extra, instr.isPhi = false ∧ ∃ name ∈ temps, instr.dest? = some name)
      (hexit : call.2.Exits trap next extra exit)
      (hrest : Divided trap temps terminator next (call.1.index + 1) calls rest pieces last) :
      Divided trap temps terminator label start (call :: calls) (slice ++ guarded :: rest)
        (⟨label, slice ++ guarded :: extra, exit⟩ :: pieces) last

/-- The index behind the last guarded instruction. -/
def endIndex (start : Nat) (calls : List (Finding × Condition)) : Nat :=
  calls.foldl (fun _ call => call.1.index + 1) start

@[simp] theorem endIndex_append_singleton (start : Nat) (calls : List (Finding × Condition))
    (call : Finding × Condition) : endIndex start (calls ++ [call]) = call.1.index + 1 := by
  simp [endIndex]

/-! ## Relabelled blocks -/

theorem Instr.relabel_of_isPhi_eq_false (rename : String → String) {instr : Instr}
    (h : instr.isPhi = false) : instr.relabel rename = instr := by
  cases instr <;> first | rfl | cases h

theorem Instr.map_relabel_of_isPhi_eq_false (rename : String → String) {instrs : List Instr}
    (h : ∀ instr ∈ instrs, instr.isPhi = false) : instrs.map (Instr.relabel rename) = instrs := by
  calc instrs.map (Instr.relabel rename)
      = instrs.map id :=
        List.map_congr_left fun instr hinstr => relabel_of_isPhi_eq_false rename (h instr hinstr)
    _ = instrs := List.map_id _

@[simp] theorem Instr.isPhi_relabel (rename : String → String) (instr : Instr) :
    (instr.relabel rename).isPhi = instr.isPhi := by
  cases instr <;> rfl

/-- Change the labels that the phis of a block name. -/
def Block.relabel (rename : String → String) (block : Block) : Block :=
  { block with instrs := block.instrs.map (Instr.relabel rename) }

theorem Block.relabel_of_isPhi_eq_false (rename : String → String) {block : Block}
    (h : ∀ instr ∈ block.instrs, instr.isPhi = false) : block.relabel rename = block := by
  unfold relabel
  rw [Instr.map_relabel_of_isPhi_eq_false rename h]

namespace Cut

variable {c : Cut}

/-- A cut relabels the phis of the blocks that are not cut. -/
theorem rewire_eq {block : Block} (h : block.PhisFirst) :
    c.rewire block = block.relabel (c.arrival block.label) := by
  have hfirst := h.congr (c.map_unlabelled_rewire block)
  have hbody : (c.rewire block).body = block.body := by
    unfold rewire Block.redirectIn
    split_ifs
    · exact Block.body_redirect _ _ block
    · rfl
  have hinstrs : (c.rewire block).instrs
      = block.instrs.map (Instr.relabel (c.arrival block.label)) := by
    calc (c.rewire block).instrs = (c.rewire block).phis ++ (c.rewire block).body :=
          (Block.phis_append_body _).symm
      _ = (block.phis ++ block.body).map (Instr.relabel (c.arrival block.label)) := by
          rw [phis_rewire, hbody, List.map_append, Instr.map_relabel_of_isPhi_eq_false _ h]
      _ = _ := by rw [Block.phis_append_body]
  show Block.mk (c.rewire block).label (c.rewire block).instrs (c.rewire block).terminator = _
  rw [hinstrs, label_rewire, terminator_rewire]
  rfl

/-- A cut changes nothing where no phis are. -/
theorem rewire_of_isPhi_eq_false {block : Block} (h : ∀ instr ∈ block.instrs, instr.isPhi = false) :
    c.rewire block = block := by
  have hfirst : block.PhisFirst := fun instr hinstr => h instr (by
    rw [← block.phis_append_body]
    exact List.mem_append_right _ hinstr)
  rw [rewire_eq hfirst, Block.relabel_of_isPhi_eq_false _ h]

/-- The first part of a cut is what stays in front of the cut, ended by the guard and rewired. -/
theorem head_eq (h : c.block.PhisFirst) (hextra : ∀ instr ∈ c.extra, instr.isPhi = false) :
    c.head = c.rewire ⟨c.block.label, c.block.instrs.take c.count ++ c.extra, c.terminator⟩ := by
  have hfirst : Block.PhisFirst
      ⟨c.block.label, c.block.instrs.take c.count ++ c.extra, c.terminator⟩ := by
    refine Block.PhisFirst.congr (phisFirst_head h hextra) ?_
    show (c.block.instrs.take c.count ++ c.extra).map Instr.unlabelled
      = ((c.rewire c.front).instrs ++ c.extra).map Instr.unlabelled
    rw [List.map_append, List.map_append, map_unlabelled_rewire]
    rfl
  rw [rewire_eq hfirst]
  show Block.mk c.block.label ((c.rewire c.front).instrs ++ c.extra) c.terminator
    = ⟨c.block.label, _, c.terminator⟩
  rw [rewire_eq (phisFirst_front h), List.map_append,
    Instr.map_relabel_of_isPhi_eq_false _ hextra]
  rfl

end Cut

/-! ## Chains of pieces -/

namespace Divided

variable {trap label : String} {temps temps' : List String} {terminator : Terminator} {start : Nat}
  {calls : List (Finding × Condition)} {instrs : List Instr} {pieces : List Block} {last : Block}

/-- The guards may define more names than they do. -/
theorem mono (h : Divided trap temps terminator label start calls instrs pieces last)
    (hsub : temps ⊆ temps') :
    Divided trap temps' terminator label start calls instrs pieces last := by
  induction h with
  | last label start instrs => exact .last label start instrs
  | guard hindex hdest hphi hextra hexit _ ih =>
    refine .guard hindex hdest hphi (fun instr hinstr => ?_) hexit ih
    obtain ⟨hnot, name, hname, heq⟩ := hextra instr hinstr
    exact ⟨hnot, name, hsub hname, heq⟩

/-- The last piece ends as the block does. -/
theorem terminator_last (h : Divided trap temps terminator label start calls instrs pieces last) :
    last.terminator = terminator := by
  induction h with
  | last => rfl
  | guard _ _ _ _ _ _ ih => exact ih

/-- Where no phis are, none is in the pieces. -/
theorem isPhi_eq_false (h : Divided trap temps terminator label start calls instrs pieces last)
    (hinstrs : ∀ instr ∈ instrs, instr.isPhi = false) :
    ∀ piece ∈ pieces ++ [last], ∀ instr ∈ piece.instrs, instr.isPhi = false := by
  induction h with
  | last label start instrs =>
    intro piece hpiece
    rw [List.nil_append, List.mem_singleton] at hpiece
    rw [hpiece]
    exact hinstrs
  | guard _ _ hphi hextra _ _ ih =>
    simp only [List.mem_append, List.mem_cons] at hinstrs
    intro piece hpiece instr hinstr
    rcases List.mem_cons.1 hpiece with rfl | hpiece
    · simp only [List.mem_append, List.mem_cons] at hinstr
      rcases hinstr with hinstr | rfl | hinstr
      · exact hinstrs instr (.inl hinstr)
      · exact hphi
      · exact (hextra instr hinstr).1
    · exact ih (fun instr hinstr => hinstrs instr (.inr (.inr hinstr))) piece hpiece instr hinstr

/-- One more guard divides the last piece. -/
theorem cut (h : Divided trap temps terminator label start calls instrs pieces last)
    (call : Finding × Condition) {slice extra rest : List Instr} {guarded : Instr} {next : String}
    {exit : Terminator} (hlast : last.instrs = slice ++ guarded :: rest)
    (hindex : endIndex start calls + slice.length = call.1.index)
    (hdest : guarded.dest? = some call.1.value) (hphi : guarded.isPhi = false)
    (hextra : ∀ instr ∈ extra, instr.isPhi = false ∧ ∃ name ∈ temps, instr.dest? = some name)
    (hexit : call.2.Exits trap next extra exit) :
    Divided trap temps terminator label start (calls ++ [call]) instrs
      (pieces ++ [⟨last.label, slice ++ guarded :: extra, exit⟩]) ⟨next, rest, terminator⟩ := by
  -- Only the last piece is cut, so the guards before it are passed over.
  induction h with
  | last label start instrs =>
    dsimp only at hlast
    subst hlast
    exact .guard hindex hdest hphi hextra hexit (.last next _ rest)
  | guard hindex' hdest' hphi' hextra' hexit' _ ih =>
    exact .guard hindex' hdest' hphi' hextra' hexit' (ih hlast hindex)

/-- The pieces of relabelled instructions are relabelled. -/
theorem relabel (h : Divided trap temps terminator label start calls instrs pieces last)
    (rename : String → String) :
    Divided trap temps terminator label start calls (instrs.map (Instr.relabel rename))
      (pieces.map (Block.relabel rename)) (last.relabel rename) := by
  induction h with
  | last label start instrs => exact .last label start _
  | @guard label _ _ _ _ slice extra rest guarded exit _ _ hindex hdest hphi hextra hexit _ ih =>
    have hsame := Instr.map_relabel_of_isPhi_eq_false rename fun instr hinstr =>
      (hextra instr hinstr).1
    have hpiece : Block.relabel rename ⟨label, slice ++ guarded :: extra, exit⟩
        = ⟨label, slice.map (Instr.relabel rename) ++ guarded :: extra, exit⟩ := by
      unfold Block.relabel
      rw [List.map_append, List.map_cons, hsame, Instr.relabel_of_isPhi_eq_false rename hphi]
    rw [List.map_append, List.map_cons, List.map_cons, hpiece,
      Instr.relabel_of_isPhi_eq_false rename hphi]
    exact .guard (by rw [List.length_map, hindex]) hdest hphi hextra hexit ih

/-- A cut of any block relabels the pieces of instructions whose phis stand first, since no piece
but the first one has phis. -/
theorem rewire (h : Divided trap temps terminator label start calls instrs pieces last)
    (hfirst : instrs.Pairwise fun a b => b.isPhi = true → a.isPhi = true) (c : Cut) :
    Divided trap temps terminator label start calls
      (instrs.map (Instr.relabel (c.arrival label))) (pieces.map c.rewire) (c.rewire last) := by
  have hrelabel := h.relabel (c.arrival label)
  cases h with
  | last label start instrs =>
    rw [List.map_nil, Cut.rewire_eq (Block.phisFirst_iff.2 hfirst)]
    exact hrelabel
  | @guard label _ _ _ _ slice extra rest guarded exit pieces last _ _ hphi hextra _ hrest =>
    obtain ⟨hslice, hguarded, -⟩ := List.pairwise_append.1 hfirst
    have hnot := Block.isPhi_eq_false_of_pairwise hguarded hphi
    -- The pieces behind the first one have no phis, so they stay as they are.
    have hsame : ∀ piece ∈ pieces ++ [last],
        c.rewire piece = piece.relabel (c.arrival label) := fun piece hpiece => by
      have hpiece := hrest.isPhi_eq_false hnot piece hpiece
      rw [Cut.rewire_of_isPhi_eq_false hpiece, Block.relabel_of_isPhi_eq_false _ hpiece]
    have hpiece : Block.PhisFirst ⟨label, slice ++ guarded :: extra, exit⟩ := by
      refine Block.phisFirst_iff.2 (Block.pairwise_append_of_isPhi_eq_false hslice ?_)
      exact List.forall_mem_cons.2 ⟨hphi, fun instr hinstr => (hextra instr hinstr).1⟩
    rw [List.map_cons, Cut.rewire_eq hpiece, hsame last (by simp),
      List.map_congr_left fun piece hmem => hsame piece (List.mem_append_left _ hmem)]
    exact hrelabel

end Divided

end FactGuard
