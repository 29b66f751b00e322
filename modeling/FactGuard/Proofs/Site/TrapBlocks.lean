import FactGuard.Proofs.Machine.Results
import FactGuard.Proofs.Site.Hygiene
import FactGuard.Proofs.Site.Siteless

/-!
# Trap blocks stay what they are

The trap block of a function has a label of its own and defines nothing. Guards go in behind
instructions that define values, so none of them cuts the trap block, and no label that a guard
makes up is the one of the trap block (`Splicer.trapsAt_guardAll`). So it is still there when the
function is guarded again (`Function.TrapsAt.instrument`), whatever the labels of the function are.
A run that comes to it ends there (`Interpreter.Visits.endsAtTrap`).
-/

namespace FactGuard

/-- The function has a trap block of the label, and no other block of this label. -/
structure Function.TrapsAt (g : Function) (label : String) : Prop where
  mem : trapBlock label ∈ g.blocks
  eq_of_label : ∀ block ∈ g.blocks, block.label = label → block = trapBlock label

/-! ## Guards elsewhere -/

namespace Function

variable {g g' : Function} {label : String}

theorem TrapsAt.of_blocks_eq (h : g.TrapsAt label) (hblocks : g'.blocks = g.blocks) :
    g'.TrapsAt label := ⟨hblocks ▸ h.mem, hblocks ▸ h.eq_of_label⟩

theorem TrapsAt.mem_labels (h : g.TrapsAt label) : label ∈ g.labels :=
  Function.mem_labels.2 ⟨_, h.mem, rfl⟩

/-- A new label is not the one of a trap block. -/
theorem TrapsAt.freshLabel_ne (h : g.TrapsAt label) (base : String) : g.freshLabel base ≠ label :=
  fun heq => g.freshLabel_not_mem base (heq ▸ h.mem_labels)

/-- A block that defines a value is not a trap block. -/
theorem TrapsAt.label_ne (h : g.TrapsAt label) {block : Block} (hblock : block ∈ g.blocks)
    {instr : Instr} (hinstr : instr ∈ block.instrs) (hdest : instr.dest?.isSome) :
    block.label ≠ label := by
  intro hlabel
  rw [h.eq_of_label block hblock hlabel, trapBlock, List.mem_singleton] at hinstr
  rw [hinstr] at hdest
  cases hdest

/-- A trap block stays if the block that is changed keeps its label, and is not changed if it is the
trap block. -/
theorem TrapsAt.modify (h : g.TrapsAt label) {host : Nat} {change : Block → Block}
    (hchange : ∀ block, g.blocks[host]? = some block →
      (change block).label = block.label ∧ (block.label = label → change block = block)) :
    { g with blocks := g.blocks.modify host change }.TrapsAt label where
  mem := by
    obtain ⟨i, hi⟩ := List.mem_iff_getElem?.1 h.mem
    refine List.mem_iff_getElem?.2 ⟨i, ?_⟩
    rw [List.getElem?_modify, hi]
    by_cases heq : host = i
    · subst heq
      simp [(hchange _ hi).2 rfl]
    · simp [heq]
  eq_of_label := by
    intro block hblock hlabel
    obtain ⟨i, hi⟩ := List.mem_iff_getElem?.1 hblock
    rw [List.getElem?_modify] at hi
    obtain ⟨old, hold, rfl⟩ := Option.map_eq_some_iff.1 hi
    have hmem := List.mem_of_getElem? hold
    by_cases heq : host = i
    · subst heq
      simp only [if_true] at hlabel ⊢
      obtain ⟨hkeep, hsame⟩ := hchange old hold
      rw [hkeep] at hlabel
      rw [hsame hlabel]
      exact h.eq_of_label old hmem hlabel
    · simp only [heq, if_false] at hlabel ⊢
      exact h.eq_of_label old hmem hlabel

theorem TrapsAt.withBlock (h : g.TrapsAt label) {block : Block} (hne : block.label ≠ label) :
    (g.withBlock block).TrapsAt label where
  mem := List.mem_append_left _ h.mem
  eq_of_label := by
    intro other hother hlabel
    rcases List.mem_append.1 hother with hother | hother
    · exact h.eq_of_label other hother hlabel
    · rw [List.mem_singleton.1 hother] at hlabel
      exact absurd hlabel hne

theorem TrapsAt.redirect (h : g.TrapsAt label) (old new target : String) :
    (g.redirect old new target).TrapsAt label := by
  unfold Function.redirect
  cases g.position? target with
  | none => exact h
  | some host =>
    refine h.modify fun block hblock => ⟨rfl, fun hlabel => ?_⟩
    rw [h.eq_of_label block (List.mem_of_getElem? hblock) hlabel]
    rfl

theorem TrapsAt.foldl_redirect (h : g.TrapsAt label) (old new : String) (targets : List String) :
    (targets.foldl (Function.redirect old new) g).TrapsAt label := by
  induction targets generalizing g with
  | nil => exact h
  | cons target rest ih => exact ih (h.redirect old new target)

/-- Changing a block that keeps its label keeps all labels. -/
theorem labels_modify (g : Function) (host : Nat) {change : Block → Block}
    (hchange : ∀ block, (change block).label = block.label) :
    { g with blocks := g.blocks.modify host change }.labels = g.labels := by
  refine List.ext_getElem? fun i => ?_
  show ((g.blocks.modify host change).map _)[i]? = (g.blocks.map _)[i]?
  rw [List.getElem?_map, List.getElem?_map, List.getElem?_modify]
  cases g.blocks[i]? with
  | none => rfl
  | some block => by_cases heq : host = i <;> simp [heq, hchange]

theorem labels_redirect (g : Function) (old new target : String) :
    (g.redirect old new target).labels = g.labels := by
  unfold redirect
  cases g.position? target with
  | none => rfl
  | some host => exact labels_modify g host fun _ => rfl

theorem labels_foldl_redirect (g : Function) (old new : String) (targets : List String) :
    (targets.foldl (redirect old new) g).labels = g.labels := by
  induction targets generalizing g with
  | nil => rfl
  | cons target rest ih => exact (ih _).trans (labels_redirect g old new target)

/-- The first part of a block that is split has its label. -/
theorem label_of_split {block block' : Block} {host : Nat} (hhost : g.blocks[host]? = some block)
    (count : Nat) (new : String) (hhost' : (g.split host count new).blocks[host]? = some block') :
    block'.label = block.label := by
  have hlabel : (g.split host count new).labels[host]? = some block.label := by
    unfold split
    rw [hhost]
    dsimp only
    rw [labels_foldl_redirect]
    show ((g.blocks.set host _ ++ [_]).map Block.label)[host]? = _
    have hlt := (List.getElem?_eq_some_iff.1 hhost).1
    rw [List.map_append, List.getElem?_append_left (by simpa using hlt), List.getElem?_map,
      List.getElem?_set_self hlt]
    rfl
  have hlabel' : (g.split host count new).labels[host]? = some block'.label := by
    show (List.map _ _)[host]? = _
    rw [List.getElem?_map, hhost']
    rfl
  exact Option.some.inj (hlabel'.symm.trans hlabel)

/-- A trap block stays if another block is split under a new label. -/
theorem TrapsAt.split (h : g.TrapsAt label) {host : Nat} {block : Block}
    (hhost : g.blocks[host]? = some block) (hne : block.label ≠ label) (count : Nat) {new : String}
    (hnew : new ≠ label) : (g.split host count new).TrapsAt label := by
  unfold Function.split
  rw [hhost]
  refine TrapsAt.foldl_redirect ?_ _ _ _
  refine TrapsAt.withBlock (g := { g with blocks := g.blocks.set host _ }) ?_ hnew
  rw [List.set_eq_modify]
  refine h.modify fun other hother => ?_
  rw [hhost] at hother
  cases hother
  exact ⟨rfl, fun hlabel => absurd hlabel hne⟩

theorem TrapsAt.endBlock (h : g.TrapsAt label) {host : Nat}
    (hne : ∀ block, g.blocks[host]? = some block → block.label ≠ label) (instrs : List Instr)
    (terminator : Terminator) : (g.endBlock host instrs terminator).TrapsAt label :=
  h.modify fun block hblock => ⟨rfl, fun hlabel => absurd hlabel (hne block hblock)⟩

end Function

/-! ## Guards of a function -/

namespace Splicer

variable {s s' : Splicer} {finding : Finding} {condition : Condition} {kind : SiteKind}
  {label : String}

/-- The instruction that is located defines the value. -/
theorem exists_of_locate {host index : Nat} (h : s.locate finding = .ok (host, index)) :
    ∃ block instr, s.function.blocks[host]? = some block ∧ instr ∈ block.instrs ∧
      instr.dest? = some finding.value := by
  unfold locate at h
  dsimp only at h
  split_ifs at h
  · cases h
  · split at h
    · cases h
    · rename_i found _
      split_ifs at h with hdest
      · cases h
        obtain ⟨instr, hinstr, hdest⟩ := Option.bind_eq_some_iff.1 hdest
        obtain ⟨block, hblock, hinstr⟩ := Option.bind_eq_some_iff.1 hinstr
        exact ⟨block, instr, hblock, List.mem_of_getElem? hinstr, hdest⟩

/-- Putting in a guard leaves a trap block as it is. -/
theorem trapsAt_insert (h : s.function.TrapsAt label) {host index : Nat}
    (hlocate : s.locate finding = .ok (host, index)) (condition : Condition) :
    (s.insert finding condition host index).1.function.TrapsAt label := by
  obtain ⟨block, instr, hhost, hinstr, hdest⟩ := exists_of_locate hlocate
  have hne := h.label_ne (List.mem_of_getElem? hhost) hinstr (by rw [hdest]; rfl)
  have hsplit := h.split hhost hne (index + 1) (h.freshLabel_ne (finding.block ++ ".cont"))
  have hne' : ∀ block', (s.function.split host (index + 1)
      (s.function.freshLabel (finding.block ++ ".cont"))).blocks[host]? = some block' →
      block'.label ≠ label := fun block' hhost' => by
    rwa [Function.label_of_split hhost _ _ hhost']
  cases condition with
  | always => exact hsplit.endBlock hne' _ _
  | violated guard =>
    refine (hsplit.of_blocks_eq Guard.blocks_lower).endBlock ?_ _ _
    rwa [Guard.blocks_lower]

/-- So does guarding a finding, whatever is checked. -/
theorem trapsAt_guard (h : s.function.TrapsAt label)
    (hguard : s.guard finding condition = .ok (s', kind)) : s'.function.TrapsAt label := by
  unfold guard at hguard
  split_ifs at hguard
  · cases hguard
    exact h
  · obtain ⟨⟨host, index⟩, hlocate, hinsert⟩ := bind_eq_ok.1 hguard
    have hnext := congrArg Prod.fst (Except.ok.inj hinsert)
    rw [← show (s.insert finding condition host index).1 = s' from hnext]
    exact trapsAt_insert h hlocate condition

/-- So do all guards, whether they all go in or not. -/
theorem trapsAt_guardAll (h : s.function.TrapsAt label) (settings : Settings)
    (findings : List Finding) :
    (s.guardAll settings findings).splicer.function.TrapsAt label := by
  induction findings generalizing s with
  | nil => exact h
  | cons finding rest ih =>
    unfold guardAll
    cases hguard : s.guard finding (settings.condition finding.range finding.known) with
    | error failure => exact h
    | ok result => exact ih (trapsAt_guard h hguard)

/-- A function starts with its trap block. -/
theorem trapsAt_start (f : Function) : (start f).function.TrapsAt (f.freshLabel trapLabel) where
  mem := List.mem_append_right _ List.mem_cons_self
  eq_of_label := by
    intro block hblock hlabel
    rcases List.mem_append.1 hblock with hblock | hblock
    · exact absurd (Function.mem_labels.2 ⟨block, hblock, hlabel⟩)
        (f.freshLabel_not_mem trapLabel)
    · exact List.mem_singleton.1 hblock

end Splicer

/-- A function has the trap blocks that a splicer starts with, whether all guards go in or not. -/
theorem Session.trapsAt_splice {f : Function} {label : String}
    (h : (Splicer.start f).function.TrapsAt label) (session : Session) (settings : Settings)
    (survey : Survey) : (session.splice settings f survey).subject.TrapsAt label := by
  have hall := Splicer.trapsAt_guardAll h settings survey.findings
  unfold splice
  dsimp only
  split <;> exact hall

/-- A function that was guarded, or that could not be, has the trap blocks that it had. -/
theorem Function.TrapsAt.instrument {f : Function} {label : String} (h : f.TrapsAt label)
    (session : Session) (settings : Settings) (source : FactSource) :
    (session.instrument settings source f).subject.TrapsAt label := by
  rcases Session.instrument_cases settings source f with ⟨-, heq⟩ |
    ⟨-, ⟨failure, -, heq⟩ | ⟨oracle, -, ⟨failure, -, heq⟩ | ⟨-, heq⟩⟩⟩
  · exact heq session ▸ h
  · exact heq session ▸ h
  · exact heq session ▸ h
  · have hne : (trapBlock (f.freshLabel trapLabel)).label ≠ label := h.freshLabel_ne trapLabel
    have hstart : (Splicer.start f).function.TrapsAt label := h.withBlock hne
    rw [heq session]
    exact Session.trapsAt_splice hstart session settings (f.survey oracle)

/-- A function that was guarded is left as it is if the settings skip it, and has a trap block of
its own if not. -/
theorem Session.eq_or_trapsAt_of_instrument {f : Function} {session : Session}
    {settings : Settings} {source : FactSource} {report : Report}
    (h : (session.instrument settings source f).result = .ok report) :
    (session.instrument settings source f).subject = f ∨
      (session.instrument settings source f).subject.TrapsAt (f.freshLabel trapLabel) := by
  rcases instrument_cases settings source f with ⟨-, heq⟩ |
    ⟨-, ⟨failure, -, heq⟩ | ⟨oracle, -, ⟨failure, -, heq⟩ | ⟨-, heq⟩⟩⟩
  · exact .inl (by rw [heq])
  · rw [heq] at h
    cases h
  · rw [heq] at h
    cases h
  · refine .inr ?_
    rw [heq session]
    exact trapsAt_splice (Splicer.trapsAt_start f) session settings (f.survey oracle)

/-! ## Runs that come to a trap block -/

namespace Interpreter

variable {i : Interpreter} {g : Function} {args : List Nat} {s : State} {label : String}

/-- A trap block is entered, and nothing in it is carried out. -/
theorem Visits.eq_of_trapsAt (h : g.TrapsAt label) (hs : i.Visits g args s)
    (hlabel : s.label = label) :
    s = ⟨label, s.origin, (trapBlock label).instrs, (trapBlock label).terminator, s.store⟩ := by
  have henter : ∀ {block : Block} {origin store s}, block ∈ g.blocks → s.label = label →
      State.enter (i.code g) block origin store = .ok s →
      s = ⟨label, s.origin, (trapBlock label).instrs, (trapBlock label).terminator, s.store⟩ := by
    intro block origin store s hblock hlabel hentered
    obtain ⟨values, -, rfl⟩ := State.enter_eq_ok_iff.1 hentered
    rw [h.eq_of_label block hblock hlabel]
    rfl
  induction hs with
  | start hstart =>
    obtain ⟨entry, hentry, hentered⟩ := exists_of_start_eq_ok hstart
    exact henter hentry hlabel hentered
  | @next s t _ hstep ih =>
    rcases State.next_eq_running hstep with
      ⟨instr, rest, dest, v, htodo, -, hdefine, rfl⟩ | ⟨-, target, block, -, hblock, hentered⟩
    · -- The call of the trap block gives no value.
      have hs := ih hlabel
      rw [hs] at htodo
      cases htodo
      cases hdefine
    · exact henter (Code.mem_of_block? hblock) hlabel hentered

/-- A run that comes to a trap block ends there. -/
theorem Visits.endsAtTrap (h : g.TrapsAt label) (hs : i.Visits g args s) (hlabel : s.label = label) :
    ∃ steps, i.EndsAtTrap g args steps s := by
  obtain ⟨start, steps, hstart, hsteps⟩ := visits_iff.1 hs
  have htodo : s.todo = (trapBlock s.label).instrs := by
    rw [hs.eq_of_trapsAt h hlabel]
  exact ⟨steps, endsAtTrap_of_steps hstart hsteps htodo⟩

end Interpreter

end FactGuard
