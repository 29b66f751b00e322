import FactGuard.Proofs.Machine.Locality
import FactGuard.Proofs.Machine.Watch
import FactGuard.Proofs.Site.Refusal
import FactGuard.Proofs.Site.Spread

/-!
# Matching states

The states of a function and of the guarded one match if the machine stands at the same place of the
same block, as the layout has it, and holds the same values for the names of the function
(`Splicer.Matches`). A guarded function keeps up with a step (`Guarding.KeepsUp`) if it fails or
ends as the function does, gets into a matching state, or gets into the trap block with a value that
is refused. Blocks are entered in matching states (`Guarding.enter`), and so it keeps up with every
terminator (`Guarding.next_of_todo_nil`).
-/

namespace FactGuard

/-- The function that a call calls. -/
def Instr.callee? : Instr → Option String
  | call _ callee _ _ => some callee
  | _ => none

/-! ## Ends of runs -/

/-- How the run of a guarded function ends where the watched run of the function does. Labels of
pieces stand for those of their blocks. A refused value ends it in the trap block, entered from a
piece of the block that defines the value. -/
inductive Watched.Agrees (g : Function) (trap : String) (home : String → String) :
    Watched → Except EvalError Outcome → Prop
  | returned (value : Option Nat) :
      Agrees g trap home (.ended (.ok (.returned value))) (.ok (.returned value))
  | trapped {block label : String} {origin origin' : Option String} (hlabel : home label = block)
      (htrap : label ≠ trap)
      (horigin : origin'.map home = if label = block then origin else some block) :
      Agrees g trap home (.ended (.ok (.trapped block origin))) (.ok (.trapped label origin'))
  | failed {e e' : EvalError} (h : e'.relabel home = e) :
      Agrees g trap home (.ended (.error e)) (.error e')
  | violated {block value : String} {piece : Block} (hpiece : piece ∈ g.blocks)
      (hhome : home piece.label = block) (hvalue : value ∈ piece.definedNames) :
      Agrees g trap home (.violated block value) (.ok (.trapped trap (some piece.label)))

/-! ## States -/

/-- The machine stands before the instruction at an index of a block, in the function and in the
guarded one, and holds the same values for the names of the function. -/
structure Splicer.Matches (f : Function) (layout : Layout) (s : Splicer) (block : Block)
    (index : Nat) (a b : State) : Prop where
  block_mem : block ∈ f.blocks
  index_le : index ≤ block.instrs.length
  isPhi_eq_false : ∀ instr ∈ block.instrs.drop index, instr.isPhi = false
  label_eq : a.label = block.label
  todo_eq : a.todo = block.instrs.drop index
  terminator_eq : a.terminator = block.terminator
  exists_piece : ∃ piece ∈ s.function.blocks, piece.label = (layout.place block.label index).1 ∧
    b.label = piece.label ∧ b.todo = piece.instrs.drop (layout.place block.label index).2 ∧
    b.terminator = piece.terminator
  same : Store.Same f.declarations.names a.store b.store
  typed : a.store.Typed f.valueType?
  origin_eq : b.origin.map layout.home = if b.label = a.label then a.origin else some a.label

/-- A function that is guarded as a splicer has it, and the interpreters of the two: that of the
guarded function traps in calls of the trap function also, which the function does not call. -/
structure Guarding (f : Function) (settings : Settings) (oracle : Oracle) (layout : Layout)
    (s : Splicer) (i i' : Interpreter) : Prop where
  wellFormed : f.WellFormed
  fits : oracle.Fits f
  surveyed : (f.survey oracle).failure? = none
  guards : s.Guards f (settings.guards (f.survey oracle).findings) layout
  traps_iff : ∀ callee, callee ∈ i'.traps ↔ callee ∈ i.traps ∨ callee = trapCallee
  callee?_ne : ∀ block ∈ f.blocks, ∀ instr ∈ block.instrs, instr.callee? ≠ some trapCallee

/-- A label finds the block that has it, where labels are distinct. -/
theorem Interpreter.block?_eq_some_iff (i : Interpreter) {f : Function} (hf : f.labels.Nodup)
    (label : String) (block : Block) :
    (i.code f).block? label = some block ↔ block ∈ f.blocks ∧ block.label = label :=
  @Code.block?_eq_some_iff (i.code f) hf label block

namespace Guarding

variable {f : Function} {settings : Settings} {oracle : Oracle} {layout : Layout} {s : Splicer}
  {i i' : Interpreter} {block : Block} {index : Nat} {a b : State}

/-- The names of the function have their types in the guarded function. -/
theorem sameTypes (h : Guarding f settings oracle layout s i i') :
    Code.SameTypes f.declarations.names (i.code f) (i'.code s.function) := by
  intro name hname
  obtain ⟨ty, hty⟩ := Option.isSome_iff_exists.1 ((Bindings.isSome_get?_iff _ _).2 hname)
  rw [h.wellFormed.toTyped.typeOf_eq_ok_iff.2 hty]
  exact h.guards.typed.typeOf_eq_ok_iff.2 (h.guards.spread.valueType? hty)

/-- The piece where the machine stands is one of the block. -/
theorem home_label (h : Guarding f settings oracle layout s i i')
    (hm : s.Matches f layout block index a b) : layout.home b.label = a.label := by
  obtain ⟨piece, -, hplace, hlabel, -⟩ := hm.exists_piece
  have hmem : block.label ∈ f.labels := Function.mem_labels.2 ⟨block, hm.block_mem, rfl⟩
  rw [hlabel, hplace, h.guards.spread.home_place _ hmem, hm.label_eq]

section Entering

variable {origin origin' : Option String} {store store' : Store} {piece : Block}

/-- The phis of a block take what those of its first piece take, if these know the block where
control comes from under its new label. -/
theorem phiValues_first (h : Guarding f settings oracle layout s i i') (hblock : block ∈ f.blocks)
    (hphis : piece.phis = block.phis.map (Instr.relabel (s.arrival f block.label)))
    (hsame : Store.Same f.declarations.names store store')
    (horigin : origin'.map layout.home = origin)
    (hpred : ∀ label ∈ f.labels,
      s.arrival f block.label label = origin'.getD "" ↔ label = origin.getD "") :
    ((i'.code s.function).phiValues (origin'.getD "") store' piece.phis).mapError
        (EvalError.relabel layout.home)
      = (i.code f).phiValues (origin.getD "") store block.phis := by
  have hinstrs : ∀ instr ∈ block.phis, instr ∈ block.instrs := fun instr hinstr =>
    (List.takeWhile_prefix _).subset hinstr
  have hhome : layout.home (origin'.getD "") = origin.getD "" := by
    cases origin' with
    | none =>
      cases horigin
      exact h.guards.spread.home_empty
    | some label =>
      cases horigin
      rfl
  rw [hphis]
  exact Code.phiValues_relabel h.sameTypes hsame hhome block.phis
    (fun instr hinstr => h.wellFormed.instr_names_mem block hblock instr (hinstrs instr hinstr))
    (fun instr hinstr label hnamed => hpred label
      (h.wellFormed.phi_labels_mem block hblock instr (hinstrs instr hinstr) label hnamed))

/-- Behind the phis, the states match if these took the same values. -/
theorem matches_body (h : Guarding f settings oracle layout s i i') (hblock : block ∈ f.blocks)
    (hpiece : piece ∈ s.function.blocks) (hlabel : piece.label = block.label)
    (hphis : piece.phis = block.phis.map (Instr.relabel (s.arrival f block.label)))
    (hsame : Store.Same f.declarations.names store store') (htyped : store.Typed f.valueType?)
    (horigin : origin'.map layout.home = origin) {values : List (String × Nat)}
    (hvalues : (i.code f).phiValues (origin.getD "") store block.phis = .ok values) :
    s.Matches f layout block block.phis.length
      ⟨block.label, origin, block.body, block.terminator, store.insertAll values⟩
      ⟨piece.label, origin', piece.body, piece.terminator, store'.insertAll values⟩ := by
  have hinstrs : ∀ instr ∈ block.phis, instr ∈ block.instrs := fun instr hinstr =>
    (List.takeWhile_prefix _).subset hinstr
  -- A block and its first piece have as many phis, so their bodies start at one index.
  have hdrop : ∀ b : Block, b.body = b.instrs.drop b.phis.length := fun b => by
    conv_rhs => rw [← b.phis_append_body, List.drop_left]
  have hlength : piece.phis.length = block.phis.length := by rw [hphis, List.length_map]
  have hplace := h.guards.spread.place_first block hblock
  constructor
  case block_mem => exact hblock
  case index_le => exact (List.takeWhile_prefix _).length_le
  case isPhi_eq_false =>
    rw [← hdrop]
    exact h.wellFormed.phis_first block hblock
  case label_eq => rfl
  case todo_eq => exact hdrop block
  case terminator_eq => rfl
  case exists_piece =>
    refine ⟨piece, hpiece, by rw [hplace, hlabel], rfl, ?_, rfl⟩
    rw [hplace, ← hlength]
    exact hdrop piece
  case same => exact hsame.insertAll values
  case typed =>
    exact htyped.insertAll (h.wellFormed.toTyped.phiValues_lt htyped
      (fun instr hinstr => h.wellFormed.fitsTypes block hblock instr (hinstrs instr hinstr))
      hvalues)
  case origin_eq =>
    rw [horigin]
    exact (if_pos hlabel).symm

/-- A block of the function is entered in its first piece, from a block that its phis know under the
new label alike. -/
theorem enter (h : Guarding f settings oracle layout s i i') (hblock : block ∈ f.blocks)
    (hsame : Store.Same f.declarations.names store store') (htyped : store.Typed f.valueType?)
    (horigin : origin'.map layout.home = origin)
    (hpred : ∀ label ∈ f.labels,
      s.arrival f block.label label = origin'.getD "" ↔ label = origin.getD "") :
    ∃ piece ∈ s.function.blocks, piece.label = block.label ∧
      (∀ e, State.enter (i.code f) block origin store = .error e →
        ∃ e', State.enter (i'.code s.function) piece origin' store' = .error e' ∧
          e'.relabel layout.home = e) ∧
      ∀ a, State.enter (i.code f) block origin store = .ok a →
        ∃ b, State.enter (i'.code s.function) piece origin' store' = .ok b ∧
          s.Matches f layout block block.phis.length a b := by
  obtain ⟨piece, hpiece, hlabel, hphis⟩ := h.guards.spread.exists_first block hblock
  have hvalues := h.phiValues_first hblock hphis hsame horigin hpred
  refine ⟨piece, hpiece, hlabel, fun e he => ?_, fun a ha => ?_⟩
  · rw [State.enter_eq_error_iff] at he
    obtain ⟨e', he', hrelabel⟩ := mapError_eq_error_iff.1 (hvalues.trans he)
    exact ⟨e', State.enter_eq_error_iff.2 he', hrelabel⟩
  · obtain ⟨values, hok, rfl⟩ := State.enter_eq_ok_iff.1 ha
    have hok' := mapError_eq_ok_iff.1 (hvalues.trans hok)
    refine ⟨_, State.enter_eq_ok_iff.2 ⟨values, hok', rfl⟩, ?_⟩
    exact h.matches_body hblock hpiece hlabel hphis hsame htyped horigin hok

end Entering

/-! ## Steps -/

/-- The guarded function keeps up with a step of the function: it fails or ends as the function
does; it goes on in a matching state; or, if the step gives a value that is refused, it gets into
the trap block. -/
structure KeepsUp (f : Function) (settings : Settings) (oracle : Oracle) (layout : Layout)
    (s : Splicer) (i i' : Interpreter) (a b : State) : Prop where
  failed : ∀ e, a.next (i.code f) = .error e →
    ∃ e', b.next (i'.code s.function) = .error e' ∧ e'.relabel layout.home = e
  finished : ∀ outcome, a.next (i.code f) = .ok (.finished outcome) →
    ∃ outcome', b.next (i'.code s.function) = .ok (.finished outcome') ∧
      Watched.Agrees s.function s.trap layout.home (.ended (.ok outcome)) (.ok outcome')
  running : ∀ a', a.next (i.code f) = .ok (.running a') →
    a.refused? (f.refuses settings oracle) a' = none →
    ∃ n b' block index, n ≤ 10 ∧ State.Steps (i'.code s.function) (n + 1) b b' ∧
      s.Matches f layout block index a' b'
  refused : ∀ a' value, a.next (i.code f) = .ok (.running a') →
    a.refused? (f.refuses settings oracle) a' = some value →
    ∃ n b' outcome, n ≤ 11 ∧ State.Steps (i'.code s.function) n b b' ∧
      b'.next (i'.code s.function) = .ok (.finished outcome) ∧
      Watched.Agrees s.function s.trap layout.home (.violated a.label value) (.ok outcome)

theorem KeepsUp.of_failed {e e' : EvalError} (hnext : a.next (i.code f) = .error e)
    (hnext' : b.next (i'.code s.function) = .error e') (he : e'.relabel layout.home = e) :
    KeepsUp f settings oracle layout s i i' a b where
  failed := fun _ hother => ⟨e', hnext', he.trans (Except.error.inj (hnext.symm.trans hother))⟩
  finished := fun _ h => nomatch hnext.symm.trans h
  running := fun _ h _ => nomatch hnext.symm.trans h
  refused := fun _ _ h _ => nomatch hnext.symm.trans h

theorem KeepsUp.of_finished {outcome outcome' : Outcome}
    (hnext : a.next (i.code f) = .ok (.finished outcome))
    (hnext' : b.next (i'.code s.function) = .ok (.finished outcome'))
    (hagrees : Watched.Agrees s.function s.trap layout.home (.ended (.ok outcome)) (.ok outcome')) :
    KeepsUp f settings oracle layout s i i' a b where
  failed := fun _ h => nomatch hnext.symm.trans h
  finished := fun other hother => by
    cases hnext.symm.trans hother
    exact ⟨outcome', hnext', hagrees⟩
  running := fun _ h _ => nomatch hnext.symm.trans h
  refused := fun _ _ h _ => nomatch hnext.symm.trans h

theorem KeepsUp.of_running {a' : State} (hnext : a.next (i.code f) = .ok (.running a'))
    (hrunning : a.refused? (f.refuses settings oracle) a' = none →
      ∃ n b' block index, n ≤ 10 ∧ State.Steps (i'.code s.function) (n + 1) b b' ∧
        s.Matches f layout block index a' b')
    (hrefused : ∀ value, a.refused? (f.refuses settings oracle) a' = some value →
      ∃ n b' outcome, n ≤ 11 ∧ State.Steps (i'.code s.function) n b b' ∧
        b'.next (i'.code s.function) = .ok (.finished outcome) ∧
        Watched.Agrees s.function s.trap layout.home (.violated a.label value) (.ok outcome)) :
    KeepsUp f settings oracle layout s i i' a b where
  failed := fun _ h => nomatch hnext.symm.trans h
  finished := fun _ h => nomatch hnext.symm.trans h
  running := fun other hother => by
    cases hnext.symm.trans hother
    exact hrunning
  refused := fun other value hother => by
    cases hnext.symm.trans hother
    exact hrefused value

/-- At the end of a block, the machine stands at the end of its last piece. -/
theorem at_end (h : Guarding f settings oracle layout s i i')
    (hm : s.Matches f layout block index a b) (htodo : a.todo = []) :
    b.label = (s.cursor block.label).label ∧ b.todo = [] ∧ b.terminator = a.terminator := by
  have hindex : index = block.instrs.length := by
    have hdrop := hm.todo_eq.symm.trans htodo
    rw [List.drop_eq_nil_iff] at hdrop
    exact Nat.le_antisymm hm.index_le hdrop
  obtain ⟨hplace, last, hlast, hlastLabel, hlastTodo, hlastTerminator⟩ :=
    h.guards.exists_end hm.block_mem
  obtain ⟨piece, hpiece, hpieceLabel, hlabel, htodo', hterminator⟩ := hm.exists_piece
  -- The piece where the machine stands has the label of the last one.
  have hsame : piece = last := by
    refine Function.eq_of_label_eq h.guards.linked.labels_nodup hpiece hlast ?_
    rw [hpieceLabel, hindex, hplace, hlastLabel]
  rw [hsame, hindex, hlastTodo] at htodo'
  rw [hsame, hlastTerminator, ← hm.terminator_eq] at hterminator
  rw [hsame, hlastLabel] at hlabel
  exact ⟨hlabel, htodo', hterminator⟩

/-- The phis of a successor know the block by the label of its last piece, and no other block by it.
-/
theorem arrival_eq_iff (h : Guarding f settings oracle layout s i i') (hblock : block ∈ f.blocks)
    {target label : String} (htarget : target ∈ block.terminator.successors)
    (hlabel : label ∈ f.labels) :
    s.arrival f target label = (s.cursor block.label).label ↔ label = block.label := by
  have hmem : block.label ∈ f.labels := Function.mem_labels.2 ⟨block, hblock, rfl⟩
  have hleads : block.label ∈ f.predecessors target :=
    Function.mem_predecessors.2 ⟨block, hblock, htarget, rfl⟩
  unfold Splicer.arrival
  split_ifs with hother
  · exact ⟨h.guards.tracks.cursor_injective _ hlabel _ hmem, fun heq => by rw [heq]⟩
  · refine ⟨fun heq => ?_, fun heq => absurd (heq ▸ hleads) hother⟩
    rw [heq]
    exact h.guards.spread.cursor_mem _ hmem (heq ▸ hlabel)

/-- Where the function jumps, the guarded one keeps up. -/
theorem next_of_jump (h : Guarding f settings oracle layout s i i')
    (hm : s.Matches f layout block index a b) (htodo : a.todo = []) {target : String}
    (hexit : a.exit (i.code f) = .ok (.jump target))
    (hexit' : b.exit (i'.code s.function) = .ok (.jump target)) :
    KeepsUp f settings oracle layout s i i' a b := by
  obtain ⟨hlabel, htodo', -⟩ := h.at_end hm htodo
  have hsucc := State.mem_successors_of_exit hexit
  rw [hm.terminator_eq] at hsucc
  obtain ⟨next, hnextMem, rfl⟩ :=
    Function.mem_labels.1 (h.wellFormed.targets_mem block hm.block_mem _ hsucc)
  -- The target is entered in its first piece, whose phis know the block by its last piece.
  have hpred : ∀ label ∈ f.labels, s.arrival f next.label label = b.label ↔ label = a.label := by
    intro label hmem
    rw [hlabel, hm.label_eq]
    exact h.arrival_eq_iff hm.block_mem hsucc hmem
  have horigin : (some b.label).map layout.home = some a.label := congrArg some (h.home_label hm)
  obtain ⟨first, hfirst, hfirstLabel, hfail, henter⟩ :=
    h.enter hnextMem hm.same hm.typed horigin hpred
  have hnext : a.next (i.code f) = _ := State.next_of_todo_nil htodo
  have hnext' : b.next (i'.code s.function) = _ := State.next_of_todo_nil htodo'
  rw [State.leave_of_jump hexit
    ((i.block?_eq_some_iff h.wellFormed.labels_nodup _ _).2 ⟨hnextMem, rfl⟩)] at hnext
  rw [State.leave_of_jump hexit'
    ((i'.block?_eq_some_iff h.guards.linked.labels_nodup _ _).2 ⟨hfirst, hfirstLabel⟩)] at hnext'
  cases hentered : State.enter (i.code f) next (some a.label) a.store with
  | error e =>
    obtain ⟨e', he', hrelabel⟩ := hfail e hentered
    rw [hentered] at hnext
    rw [he'] at hnext'
    exact .of_failed hnext hnext' hrelabel
  | ok entered =>
    obtain ⟨b', hb', hmatches⟩ := henter entered hentered
    rw [hentered] at hnext
    rw [hb'] at hnext'
    refine .of_running hnext (fun _ => ?_) fun value hvalue => ?_
    · exact ⟨0, b', next, _, Nat.zero_le _, .one hnext', hmatches⟩
    · rw [State.refused?_of_todo_eq_nil htodo] at hvalue
      cases hvalue

/-- At the end of a block, the guarded function goes where the function goes. -/
theorem next_of_todo_nil (h : Guarding f settings oracle layout s i i')
    (hm : s.Matches f layout block index a b) (htodo : a.todo = []) :
    KeepsUp f settings oracle layout s i i' a b := by
  obtain ⟨hlabel, htodo', hterminator⟩ := h.at_end hm htodo
  have hnames : ∀ name ∈ a.terminator.names, name ∈ f.declarations.names := by
    rw [hm.terminator_eq]
    exact h.wellFormed.terminator_names_mem block hm.block_mem
  have hexit := State.exit_congr (h.sameTypes.mono hnames) h.guards.spread.result_eq
    (hm.same.mono hnames) hterminator (h.home_label hm)
  have hnext : a.next (i.code f) = _ := State.next_of_todo_nil htodo
  have hnext' : b.next (i'.code s.function) = _ := State.next_of_todo_nil htodo'
  cases hcase : a.exit (i.code f) with
  | error e =>
    obtain ⟨e', he', hrelabel⟩ := mapError_eq_error_iff.1 (hexit.trans hcase)
    exact .of_failed (hnext.trans (State.leave_of_error hcase))
      (hnext'.trans (State.leave_of_error he')) hrelabel
  | ok exit =>
    have hcase' := mapError_eq_ok_iff.1 (hexit.trans hcase)
    cases exit with
    | leave outcome =>
      obtain ⟨value, rfl⟩ := State.exists_returned_of_exit hcase
      exact .of_finished (hnext.trans (State.leave_of_leave hcase))
        (hnext'.trans (State.leave_of_leave hcase')) (.returned value)
    | jump target => exact h.next_of_jump hm htodo hcase hcase'

end Guarding

end FactGuard
