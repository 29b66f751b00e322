import FactGuard.Proofs.Program.Lookup
import FactGuard.Site.Splice

/-!
# Cutting a block in two

A guard cuts its block behind the guarded instruction. A `Cut` records what is cut and what the
first part gets, and `Cut.blocks` is what becomes of all blocks: phis of the successors are
redirected, the first part stays in place and the second one comes last. `Function.split_eq` and
`Function.endBlock_split` say that splitting a block, and then ending its first part, is a cut.
-/

namespace FactGuard

/-! ## Redirected phis -/

/-- The instruction without the labels that a phi names. -/
def Instr.unlabelled : Instr → Instr
  | .phi dest values => .phi dest (values.map fun value => (value.1, ""))
  | instr => instr

@[simp] theorem Instr.dest?_unlabelled (instr : Instr) : instr.unlabelled.dest? = instr.dest? := by
  cases instr <;> rfl

@[simp] theorem Instr.isPhi_unlabelled (instr : Instr) : instr.unlabelled.isPhi = instr.isPhi := by
  cases instr <;> rfl

@[simp] theorem Instr.unlabelled_redirect (old new : String) (instr : Instr) :
    (instr.redirect old new).unlabelled = instr.unlabelled := by
  cases instr <;> simp [unlabelled, redirect]

@[simp] theorem Instr.isPhi_redirect (old new : String) (instr : Instr) :
    (instr.redirect old new).isPhi = instr.isPhi := by
  cases instr <;> rfl

/-- An instruction that is no phi is known without the labels that phis name. -/
theorem Instr.eq_of_unlabelled_eq {a b : Instr} (h : a.unlabelled = b.unlabelled)
    (hb : b.isPhi = false) : a = b := by
  have ha : a.isPhi = false := by rw [← isPhi_unlabelled, h, isPhi_unlabelled, hb]
  have hsame : ∀ instr : Instr, instr.isPhi = false → instr.unlabelled = instr := by
    intro instr hphi
    cases instr <;> first | rfl | cases hphi
  rw [← hsame a ha, h, hsame b hb]

/-- Redirecting changes one label. -/
theorem Instr.redirect_eq_relabel (old new : String) (instr : Instr) :
    instr.redirect old new = instr.relabel fun label => if label = old then new else label := by
  cases instr <;> rfl

/-- Changing labels twice changes each by both. -/
theorem Instr.relabel_relabel (rename rename' : String → String) (instr : Instr) :
    (instr.relabel rename).relabel rename' = instr.relabel fun label => rename' (rename label) := by
  cases instr <;> simp [relabel, Function.comp_def]

/-- What becomes of the labels that a phi does not name does not matter. -/
theorem Instr.relabel_congr {rename rename' : String → String} {instr : Instr}
    (h : ∀ label ∈ instr.phiLabels, rename label = rename' label) :
    instr.relabel rename = instr.relabel rename' := by
  cases instr with
  | phi dest values =>
    simp only [relabel, Instr.phi.injEq, true_and]
    exact List.map_congr_left fun value hvalue => by rw [h value.2 (List.mem_map_of_mem hvalue)]
  | _ => rfl

/-- Once redirected, a phi names the old label no more. -/
theorem Instr.redirect_redirect {old new : String} (hne : old ≠ new) (instr : Instr) :
    (instr.redirect old new).redirect old new = instr.redirect old new := by
  cases instr with
  | phi dest values =>
    simp only [redirect, List.map_map, Instr.phi.injEq, true_and]
    apply List.map_congr_left
    intro value _
    by_cases h : value.2 = old
    · simp [h, Ne.symm hne]
    · simp [h]
  | _ => rfl

namespace Block

theorem phis_append_body (block : Block) : block.phis ++ block.body = block.instrs :=
  List.takeWhile_append_dropWhile

theorem isPhi_of_mem_phis {block : Block} {instr : Instr} (h : instr ∈ block.phis) :
    instr.isPhi = true :=
  List.all_eq_true.1 List.all_takeWhile instr h

/-- The body of a block does not start with a phi. -/
theorem takeWhile_body (block : Block) : block.body.takeWhile Instr.isPhi = [] := by
  cases hbody : block.body with
  | nil => rfl
  | cons instr rest =>
    have hne : block.body ≠ [] := by simp [hbody]
    have hhead : (block.body.head hne).isPhi = false := List.head_dropWhile_not Instr.isPhi hne
    have hinstr : instr.isPhi = false := by
      have : block.body.head hne = instr := by simp [hbody]
      rw [← this]
      exact hhead
    simp [hinstr]

/-- The phis of a list of phis in front of a block's body. -/
theorem takeWhile_append_body {front : List Instr} (h : ∀ instr ∈ front, instr.isPhi = true)
    (block : Block) : (front ++ block.body).takeWhile Instr.isPhi = front := by
  rw [List.takeWhile_append_of_pos h, takeWhile_body, List.append_nil]

theorem isPhi_of_mem_map_redirect {old new : String} {block : Block} :
    ∀ instr ∈ block.phis.map (Instr.redirect old new), instr.isPhi = true := by
  intro instr h
  obtain ⟨phi, hphi, rfl⟩ := List.mem_map.1 h
  rw [Instr.isPhi_redirect]
  exact isPhi_of_mem_phis hphi

@[simp] theorem phis_redirect (old new : String) (block : Block) :
    (block.redirect old new).phis = block.phis.map (Instr.redirect old new) :=
  takeWhile_append_body isPhi_of_mem_map_redirect block

@[simp] theorem body_redirect (old new : String) (block : Block) :
    (block.redirect old new).body = block.body := by
  have h := (block.redirect old new).phis_append_body
  rw [phis_redirect] at h
  exact List.append_cancel_left h

@[simp] theorem map_unlabelled_redirect (old new : String) (block : Block) :
    (block.redirect old new).instrs.map Instr.unlabelled = block.instrs.map Instr.unlabelled := by
  have h : Instr.unlabelled ∘ Instr.redirect old new = Instr.unlabelled :=
    funext fun instr => Instr.unlabelled_redirect old new instr
  simp only [redirect, List.map_append, List.map_map, h]
  rw [← List.map_append, phis_append_body]

/-- Redirecting the phis of a block once is enough. -/
theorem redirect_redirect {old new : String} (hne : old ≠ new) (block : Block) :
    (block.redirect old new).redirect old new = block.redirect old new := by
  have hinstrs : (block.redirect old new).instrs = (block.redirect old new).phis ++ block.body := by
    rw [← body_redirect old new block, phis_append_body]
  have hphis : ((block.redirect old new).phis.map (Instr.redirect old new))
      = (block.redirect old new).phis := by
    rw [phis_redirect, List.map_map]
    exact List.map_congr_left fun instr _ => Instr.redirect_redirect hne instr
  show Block.mk _ _ _ = _
  rw [hphis, body_redirect, ← hinstrs]

/-- Redirect the phis of a block that is one of the targets. -/
def redirectIn (targets : List String) (old new : String) (block : Block) : Block :=
  if block.label ∈ targets then block.redirect old new else block

variable {targets : List String} {old new : String} {block : Block}

theorem redirectIn_of_mem (h : block.label ∈ targets) :
    block.redirectIn targets old new = block.redirect old new := if_pos h

theorem redirectIn_of_not_mem (h : block.label ∉ targets) :
    block.redirectIn targets old new = block := if_neg h

@[simp] theorem label_redirectIn : (block.redirectIn targets old new).label = block.label := by
  unfold redirectIn
  split_ifs <;> rfl

@[simp] theorem terminator_redirectIn :
    (block.redirectIn targets old new).terminator = block.terminator := by
  unfold redirectIn
  split_ifs <;> rfl

@[simp] theorem map_unlabelled_redirectIn :
    (block.redirectIn targets old new).instrs.map Instr.unlabelled
      = block.instrs.map Instr.unlabelled := by
  unfold redirectIn
  split_ifs
  · exact map_unlabelled_redirect old new block
  · rfl

/-- Redirecting into one target and then into others is redirecting into all of them. -/
theorem redirectIn_redirectIn (hne : old ≠ new) (target : String) (targets : List String) :
    (block.redirectIn [target] old new).redirectIn targets old new
      = block.redirectIn (target :: targets) old new := by
  by_cases h : block.label = target
  · have hone : block.redirectIn [target] old new = block.redirect old new :=
      redirectIn_of_mem (by simp [h])
    have hall : block.redirectIn (target :: targets) old new = block.redirect old new :=
      redirectIn_of_mem (by simp [h])
    rw [hone, hall]
    by_cases hmem : block.label ∈ targets
    · rw [redirectIn_of_mem (by exact hmem), redirect_redirect hne]
    · rw [redirectIn_of_not_mem (by exact hmem)]
  · have hone : block.redirectIn [target] old new = block := redirectIn_of_not_mem (by simp [h])
    rw [hone]
    by_cases hmem : block.label ∈ targets
    · rw [redirectIn_of_mem hmem, redirectIn_of_mem (by simp [hmem])]
    · rw [redirectIn_of_not_mem hmem, redirectIn_of_not_mem (by simp [h, hmem])]

end Block

/-! ## Blocks by label -/

/-- Where labels are distinct, changing the block at an index is changing the block of its label. -/
theorem Function.modify_eq_map {f : Function} (hf : f.labels.Nodup) {host : Nat} {block : Block}
    (hhost : f.blocks[host]? = some block) (g : Block → Block) :
    f.blocks.modify host g = f.blocks.map fun b => if b.label = block.label then g b else b := by
  apply List.ext_getElem?
  intro i
  rw [List.getElem?_modify, List.getElem?_map]
  cases hi : f.blocks[i]? with
  | none => rfl
  | some b =>
    simp only [Option.map_eq_map, Option.map_some, Option.some.injEq]
    by_cases heq : host = i
    · subst heq
      rw [hi] at hhost
      cases hhost
      simp
    · have hlabel : b.label ≠ block.label := fun h =>
        heq (Function.index_eq_of_label_eq hf hhost hi h.symm)
      simp [heq, hlabel]

/-- Redirecting the phis of a target changes the block that has its label, if there is one. -/
theorem Function.redirect_eq {f : Function} (hf : f.labels.Nodup) (old new target : String) :
    f.redirect old new target
      = { f with blocks := f.blocks.map (Block.redirectIn [target] old new) } := by
  unfold Function.redirect
  cases hpos : f.position? target with
  | none =>
    have hsame : f.blocks.map (Block.redirectIn [target] old new) = f.blocks := by
      rw [List.map_congr_left (g := id), List.map_id]
      intro block hblock
      have hlabel : block.label ≠ target := fun h =>
        (Function.position?_eq_none_iff f target).1 hpos
          (Function.mem_labels.2 ⟨block, hblock, h⟩)
      simp [Block.redirectIn, hlabel]
    rw [hsame]
  | some index =>
    obtain ⟨block, hblock, rfl⟩ := (Function.position?_eq_some_iff hf target index).1 hpos
    dsimp only
    rw [Function.modify_eq_map hf hblock]
    congr 1
    exact List.map_congr_left fun b _ => by simp [Block.redirectIn]

/-- Redirecting the phis of several targets changes the blocks that have their labels. -/
theorem Function.foldl_redirect {f : Function} (hf : f.labels.Nodup) {old new : String}
    (hne : old ≠ new) (targets : List String) :
    targets.foldl (Function.redirect old new) f
      = { f with blocks := f.blocks.map (Block.redirectIn targets old new) } := by
  induction targets generalizing f with
  | nil =>
    have : Block.redirectIn [] old new = id := by
      funext block
      simp [Block.redirectIn]
    simp [this]
  | cons target rest ih =>
    have hstep := f.redirect_eq hf old new target
    -- Labels stay, so the targets that are left are found as before.
    have hlabels : (f.redirect old new target).labels = f.labels := by
      rw [hstep]
      show (f.blocks.map _).map _ = f.blocks.map _
      rw [List.map_map]
      exact List.map_congr_left fun block _ => Block.label_redirectIn
    rw [List.foldl_cons, ih (by rw [hlabels]; exact hf), hstep]
    dsimp only
    rw [List.map_map]
    congr 2
    funext block
    exact Block.redirectIn_redirectIn hne target rest

/-! ## Cuts -/

/-- How a block is cut in two: behind its first `count` instructions, where the first part gets
further instructions and a terminator of its own, and the second part a label. -/
structure Cut where
  block : Block
  count : Nat
  label : String
  extra : List Instr
  terminator : Terminator

namespace Cut

/-- What becomes of a block that is not cut: if it is a successor of the block that is, its phis
take from the second part what they took from that block. -/
def rewire (c : Cut) : Block → Block :=
  Block.redirectIn c.block.terminator.successors c.block.label c.label

/-- The instructions that stay in front of the cut. -/
def front (c : Cut) : Block := ⟨c.block.label, c.block.instrs.take c.count, .goto c.label⟩

/-- The first part. -/
def head (c : Cut) : Block :=
  ⟨c.block.label, (c.rewire c.front).instrs ++ c.extra, c.terminator⟩

/-- The second part. -/
def tail (c : Cut) : Block := c.rewire ⟨c.label, c.block.instrs.drop c.count, c.block.terminator⟩

/-- The blocks of a function after the block at index `host` was cut. -/
def blocks (c : Cut) (host : Nat) (blocks : List Block) : List Block :=
  (blocks.map c.rewire).set host c.head ++ [c.tail]

@[simp] theorem label_rewire (c : Cut) (block : Block) : (c.rewire block).label = block.label :=
  Block.label_redirectIn

@[simp] theorem terminator_rewire (c : Cut) (block : Block) :
    (c.rewire block).terminator = block.terminator := Block.terminator_redirectIn

@[simp] theorem map_unlabelled_rewire (c : Cut) (block : Block) :
    (c.rewire block).instrs.map Instr.unlabelled = block.instrs.map Instr.unlabelled :=
  Block.map_unlabelled_redirectIn

@[simp] theorem label_head (c : Cut) : c.head.label = c.block.label := rfl

@[simp] theorem label_tail (c : Cut) : c.tail.label = c.label := by simp [tail]

@[simp] theorem terminator_head (c : Cut) : c.head.terminator = c.terminator := rfl

@[simp] theorem terminator_tail (c : Cut) : c.tail.terminator = c.block.terminator := by simp [tail]

/-- The first part stands where the block stood, and the second part comes last. -/
theorem blocks_eq (c : Cut) {host : Nat} {blocks : List Block}
    (hhost : blocks[host]? = some c.block) :
    c.blocks host blocks = (blocks.take host).map c.rewire
      ++ c.head :: (blocks.drop (host + 1)).map c.rewire ++ [c.tail] := by
  obtain ⟨hlt, -⟩ := List.getElem?_eq_some_iff.1 hhost
  rw [Cut.blocks, List.set_eq_take_append_cons_drop, if_pos (by simpa using hlt), List.map_take,
    List.map_drop]

/-- The blocks after a cut, in any order. -/
theorem blocks_perm (c : Cut) {host : Nat} {blocks : List Block} (front back : List Block)
    (hhost : blocks[host]? = some c.block) (hblocks : blocks.Perm (front ++ c.block :: back)) :
    (c.blocks host blocks).Perm
      (front.map c.rewire ++ c.head :: c.tail :: back.map c.rewire) := by
  obtain ⟨hlt, hget⟩ := List.getElem?_eq_some_iff.1 hhost
  have hsplit : blocks = blocks.take host ++ c.block :: blocks.drop (host + 1) := by
    rw [← hget, List.getElem_cons_drop, List.take_append_drop]
  -- The other blocks are those in front and behind, so they stay in order when rewired.
  have hothers : (blocks.take host ++ blocks.drop (host + 1)).Perm (front ++ back) := by
    rw [hsplit] at hblocks
    exact (List.perm_middle.symm.trans (hblocks.trans List.perm_middle)).cons_inv
  have hrewired := hothers.map c.rewire
  rw [List.map_append, List.map_append] at hrewired
  rw [c.blocks_eq hhost, List.perm_iff_count]
  intro block
  have hcount := List.perm_iff_count.1 hrewired block
  simp only [List.count_append, List.count_cons, List.count_nil] at hcount ⊢
  omega

/-- A cut adds one label at the end. -/
theorem map_label_blocks (c : Cut) {host : Nat} {blocks : List Block}
    (hhost : blocks[host]? = some c.block) :
    (c.blocks host blocks).map (·.label) = blocks.map (·.label) ++ [c.label] := by
  have hmap : (blocks.map c.rewire).map (·.label) = blocks.map (·.label) := by
    rw [List.map_map]
    exact List.map_congr_left fun block _ => c.label_rewire block
  have hset : (blocks.map (·.label)).set host c.block.label = blocks.map (·.label) := by
    have hget : (blocks.map (·.label))[host]? = some c.block.label := by simp [hhost]
    obtain ⟨hlt, hget⟩ := List.getElem?_eq_some_iff.1 hget
    rw [← hget, List.set_getElem_self]
  rw [Cut.blocks, List.map_append, List.map_set, hmap, label_head, hset, List.map_singleton,
    label_tail]

/-- The blocks after a cut are its two parts and what becomes of the others. -/
theorem mem_blocks {c : Cut} {f : Function} (hf : f.labels.Nodup) {host : Nat}
    (hhost : f.blocks[host]? = some c.block) {block : Block} :
    block ∈ c.blocks host f.blocks ↔ block = c.head ∨ block = c.tail ∨
      ∃ b ∈ f.blocks, b.label ≠ c.block.label ∧ block = c.rewire b := by
  obtain ⟨hlt, -⟩ := List.getElem?_eq_some_iff.1 hhost
  have hset : block ∈ (f.blocks.map c.rewire).set host c.head ↔ block = c.head ∨
      ∃ b ∈ f.blocks, b.label ≠ c.block.label ∧ block = c.rewire b := by
    rw [List.mem_iff_getElem?]
    constructor
    · rintro ⟨i, hi⟩
      rw [List.getElem?_set] at hi
      split_ifs at hi with heq hlen
      · exact .inl (Option.some.inj hi).symm
      · -- A block at another index has another label.
        rw [List.getElem?_map] at hi
        obtain ⟨b, hb, rfl⟩ := Option.map_eq_some_iff.1 hi
        refine .inr ⟨b, List.mem_of_getElem? hb, fun hlabel => heq ?_, rfl⟩
        exact Function.index_eq_of_label_eq hf hhost hb hlabel.symm
    · rintro (rfl | ⟨b, hb, hne, rfl⟩)
      · exact ⟨host, List.getElem?_set_self (by simpa using hlt)⟩
      · obtain ⟨i, hi⟩ := List.mem_iff_getElem?.1 hb
        refine ⟨i, ?_⟩
        have hne' : host ≠ i := by
          rintro rfl
          rw [hhost] at hi
          exact hne (by rw [Option.some.inj hi])
        rw [List.getElem?_set_ne hne', List.getElem?_map, hi, Option.map_some]
  rw [Cut.blocks, List.mem_append, hset, List.mem_singleton, or_assoc]
  exact or_congr_right or_comm

end Cut

/-! ## Splitting and ending a block -/

/-- A cut that only splits: the first part gets nothing and goes to the second one. -/
def Cut.plain (block : Block) (count : Nat) (label : String) : Cut :=
  ⟨block, count, label, [], .goto label⟩

theorem Cut.head_plain (block : Block) (count : Nat) (label : String) :
    (Cut.plain block count label).head
      = (Cut.plain block count label).rewire (Cut.plain block count label).front := by
  have hlabel := (Cut.plain block count label).label_rewire (Cut.plain block count label).front
  have hterm := (Cut.plain block count label).terminator_rewire (Cut.plain block count label).front
  generalize hb : (Cut.plain block count label).rewire (Cut.plain block count label).front = b at *
  obtain ⟨_, instrs, _⟩ := b
  simp only [Cut.front, Cut.plain] at hlabel hterm
  subst hlabel hterm
  show Block.mk _ _ _ = _
  rw [hb]
  simp [Cut.plain]

/-- Splitting a block is a cut. -/
theorem Function.split_eq {f : Function} (hf : f.labels.Nodup) {host : Nat} {block : Block}
    (hhost : f.blocks[host]? = some block) {label : String} (hlabel : label ∉ f.labels)
    (count : Nat) :
    f.split host count label
      = { f with blocks := (Cut.plain block count label).blocks host f.blocks } := by
  have hne : block.label ≠ label := fun h =>
    hlabel (Function.mem_labels.2 ⟨block, List.mem_of_getElem? hhost, h⟩)
  let front : Block := ⟨block.label, block.instrs.take count, .goto label⟩
  let rest : Block := ⟨label, block.instrs.drop count, block.terminator⟩
  -- Labels are distinct in the split function too, so that each target is one block at most.
  have hlabels : (f.blocks.set host front ++ [rest]).map Block.label = f.labels ++ [label] := by
    have hget : f.labels[host]? = some block.label := by simp [Function.labels, hhost]
    obtain ⟨hlt, hget⟩ := List.getElem?_eq_some_iff.1 hget
    rw [List.map_append, List.map_set, List.map_singleton]
    show f.labels.set host block.label ++ _ = _
    rw [← hget, List.set_getElem_self]
  have hnodup : (f.labels ++ [label]).Nodup :=
    List.nodup_append'.2 ⟨hf, by simp, by simpa using hlabel⟩
  have hfold := Function.foldl_redirect
    (f := { f with blocks := f.blocks.set host front ++ [rest] })
    (by rw [← hlabels] at hnodup; exact hnodup) hne block.terminator.successors
  unfold Function.split
  rw [hhost]
  dsimp only
  rw [hfold, Cut.blocks, Cut.head_plain]
  simp only [List.map_append, List.map_set, List.map_singleton]
  rfl

/-- Ending a block with further instructions and another terminator after it was split is a cut. -/
theorem Function.endBlock_split {f g : Function} {host : Nat} {block : Block}
    (hhost : f.blocks[host]? = some block) {label : String} {count : Nat}
    (hg : g.blocks = (Cut.plain block count label).blocks host f.blocks)
    (extra : List Instr) (terminator : Terminator) :
    (g.endBlock host extra terminator).blocks
      = (Cut.mk block count label extra terminator).blocks host f.blocks := by
  obtain ⟨hlt, -⟩ := List.getElem?_eq_some_iff.1 hhost
  let c := Cut.plain block count label
  have hget : ((f.blocks.map c.rewire).set host c.head ++ [c.tail])[host]? = some c.head := by
    rw [List.getElem?_append_left (by simpa using hlt), List.getElem?_set_self (by simpa using hlt)]
  have hhead : Block.mk c.head.label (c.head.instrs ++ extra) terminator
      = (Cut.mk block count label extra terminator).head := by
    simp only [Cut.head, c, Cut.plain, List.append_nil]
    rfl
  show g.blocks.modify host _ = _
  rw [hg]
  unfold Cut.blocks
  rw [List.modify_eq_set, hget, Option.getD_some, List.set_append_left _ _ (by simpa using hlt),
    List.set_set, hhead]
  rfl

end FactGuard
