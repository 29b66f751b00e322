import FactGuard.Proofs.Site.Matching

/-!
# Steps of a guarded function

A guarded function keeps up with every step of the function (`Guarding.keepsUp`). An instruction of
the function is at most eleven steps of the guarded one: the instruction itself, those of its guard,
and the branch behind them (`Guarding.steps_guard`). Without a guard, what follows is what follows
in the block (`Guarding.next_of_plain`); a guard leads into the trap block if the value is refused,
and else into the next piece (`Guarding.next_of_always`, `Guarding.next_of_violated`).
-/

namespace FactGuard

namespace Guarding

variable {f : Function} {settings : Settings} {oracle : Oracle} {layout : Layout} {s : Splicer}
  {i i' : Interpreter} {block : Block} {index : Nat} {a b : State}

/-! ## Instructions -/

variable {instr : Instr} {rest : List Instr} {dest : String} {v : Nat}

/-- The guarded function traps in the calls of the function that trap. -/
theorem traps?_eq (h : Guarding f settings oracle layout s i i') (hblock : block ∈ f.blocks)
    (hinstr : instr ∈ block.instrs) :
    (i'.code s.function).traps? instr = (i.code f).traps? instr := by
  have hne := h.callee?_ne block hblock instr hinstr
  cases instr with
  | call callDest callee args tail =>
    have hcallee : callee ≠ trapCallee := fun heq => hne (congrArg some heq)
    show i'.traps.contains callee = i.traps.contains callee
    rw [Bool.eq_iff_iff, List.contains_iff_mem, List.contains_iff_mem, h.traps_iff]
    exact or_iff_left hcallee
  | _ => rfl

/-- The instruction that is next stands at the index of its block. -/
theorem getElem?_of_todo (hm : s.Matches f layout block index a b)
    (htodo : a.todo = instr :: rest) :
    block.instrs[index]? = some instr ∧ rest = block.instrs.drop (index + 1) ∧
      instr.isPhi = false := by
  -- What is left of the block starts with the instruction.
  have hdrop := hm.todo_eq.symm.trans htodo
  obtain ⟨hget, hrest⟩ := drop_eq_cons_iff.1 hdrop
  exact ⟨hget, hrest.symm, hm.isPhi_eq_false instr (by rw [hdrop]; exact List.mem_cons_self)⟩

/-- A place in the guarded function matches that behind the instruction if it holds what follows,
and the value that the instruction computes. -/
theorem matches_succ (h : Guarding f settings oracle layout s i i')
    (hm : s.Matches f layout block index a b) (htodo : a.todo = instr :: rest)
    (hdefine : (i.code f).define a.label a.store instr = .ok (dest, v)) {b' : State}
    (hpiece : ∃ piece ∈ s.function.blocks, piece.label = (layout.place block.label (index + 1)).1 ∧
      b'.label = piece.label ∧
      b'.todo = piece.instrs.drop (layout.place block.label (index + 1)).2 ∧
      b'.terminator = piece.terminator)
    (hsame : Store.Same f.declarations.names (a.store.insert dest v) b'.store)
    (horigin : b'.origin.map layout.home = if b'.label = a.label then a.origin else some a.label) :
    s.Matches f layout block (index + 1)
      { a with todo := rest, store := a.store.insert dest v } b' := by
  obtain ⟨hget, hrest, -⟩ := getElem?_of_todo hm htodo
  have hinstr : instr ∈ block.instrs := List.mem_of_getElem? hget
  constructor
  case block_mem => exact hm.block_mem
  case index_le => exact (List.getElem?_eq_some_iff.1 hget).1
  case isPhi_eq_false =>
    intro other hother
    rw [← List.drop_drop] at hother
    exact hm.isPhi_eq_false other (List.mem_of_mem_drop hother)
  case label_eq => exact hm.label_eq
  case todo_eq => exact hrest
  case terminator_eq => exact hm.terminator_eq
  case exists_piece => exact hpiece
  case same => exact hsame
  case typed =>
    exact hm.typed.insert (h.wellFormed.toTyped.define_lt hm.typed
      (h.wellFormed.fitsTypes block hm.block_mem instr hinstr) hdefine)
  case origin_eq => exact horigin

/-- A jump to the trap block ends the run there. -/
theorem trapped_of_jump (h : Guarding f settings oracle layout s i i') {t : State}
    (htodo : t.todo = []) (hexit : t.exit (i'.code s.function) = .ok (.jump s.trap)) :
    ∃ u, t.next (i'.code s.function) = .ok (.running u) ∧
      u.next (i'.code s.function) = .ok (.finished (.trapped s.trap (some t.label))) := by
  have hblock := (i'.block?_eq_some_iff h.guards.linked.labels_nodup s.trap _).2
    ⟨h.guards.tracks.trap_mem, rfl⟩
  have hphis : ∀ instr ∈ (trapBlock s.trap).instrs, instr.isPhi = false := by
    intro instr hinstr
    rw [List.mem_singleton.1 hinstr]
    rfl
  refine ⟨⟨s.trap, some t.label, (trapBlock s.trap).instrs, .unreachable, t.store⟩, ?_, ?_⟩
  · rw [State.next_of_todo_nil htodo, State.leave_of_jump hexit hblock,
      State.enter_of_not_phi hphis]
    rfl
  · refine State.next_of_traps rfl ?_
    show i'.traps.contains trapCallee = true
    rw [List.contains_iff_mem, h.traps_iff]
    exact .inr rfl

/-- The names that the code of a guarded function knows are those of a function whose declarations
come first. -/
theorem knows_of_prefix (h : Guarding f settings oracle layout s i i') {g : Function}
    (hg : g.declarations <+: s.function.declarations) : (i'.code s.function).Knows g := by
  intro name ty hname
  obtain ⟨more, hmore⟩ := hg
  refine h.guards.typed.typeOf_eq_ok_iff.2 ?_
  unfold Function.valueType?
  rw [← hmore]
  exact Bindings.get?_append_of_some _ hname

/-- The instructions of a guard and the branch behind them lead into the trap block if the guard is
violated, and into the next piece if not. -/
theorem steps_guard (h : Guarding f settings oracle layout s i i') {finding : Finding}
    {guard : Guard}
    (hcall : (finding, .violated guard) ∈ settings.guards (f.survey oracle).findings)
    (hterms : guard.terms ≠ []) {g : Function} (hbefore : f.declarations <+: g.declarations)
    (hafter : (guard.lower finding.value finding.ty g).1.function.declarations
      <+: s.function.declarations)
    (hty : f.valueType? finding.value = some finding.ty)
    (hwidth : finding.ty.intWidth? = some finding.range.width) {t : State}
    (htodo : t.todo = (guard.lower finding.value finding.ty g).1.instrs) {label : String}
    (hterminator : t.terminator = .branch (guard.lower finding.value finding.ty g).2 s.trap label)
    (hv : t.store.get? finding.value = some v) (hlt : v < modulus finding.range.width) :
    ∃ n u, n ≤ 9 ∧ State.Steps (i'.code s.function) n t u ∧ u.label = t.label ∧ u.todo = [] ∧
      Store.Same f.declarations.names t.store u.store ∧
      u.exit (i'.code s.function) = .ok (.jump (if guard.isViolated v then s.trap else label)) := by
  obtain ⟨hguardWidth, hfits⟩ := Settings.fits_guards h.fits hcall
  have hcondition := (Settings.mem_guards.1 hcall).2.1
  have hlength := Settings.length_lower_le hcondition.symm hterms finding.value finding.ty g
  have hname : g.valueType? finding.value = some finding.ty := by
    obtain ⟨more, hmore⟩ := hbefore
    unfold Function.valueType?
    rw [← hmore]
    exact Bindings.get?_append_of_some _ hty
  rw [← hguardWidth] at hfits hwidth hlt
  obtain ⟨store', hsteps, hkeeps, hresult⟩ := Guard.lower_evaluates t.label hterms
    (h.knows_of_prefix hafter) hname hwidth hfits hv hlt
  have hrun := hsteps t.origin [] t.terminator
  rw [List.append_nil, ← htodo] at hrun
  refine ⟨_, ⟨t.label, t.origin, [], t.terminator, store'⟩, hlength, ?_, rfl, rfl, ?_, ?_⟩
  · exact htodo ▸ hrun
  · -- The guard binds names of its own only.
    intro name hmem
    obtain ⟨more, hmore⟩ := hbefore
    refine hkeeps name ?_
    rw [← hmore, Bindings.names_append]
    exact List.mem_append_left _ hmem
  · unfold State.exit
    dsimp only
    rw [hterminator]
    dsimp only
    rw [hresult]
    cases guard.isViolated v <;> rfl

/-- The machine is about to carry out an instruction of a block, in the function and in the piece
that holds the instruction, and the instruction gives the value `v` for `dest`. -/
structure Carries (f : Function) (layout : Layout) (s : Splicer) (i : Interpreter) (block : Block)
    (index : Nat) (a b : State) (instr : Instr) (rest : List Instr) (dest : String) (v : Nat)
    (piece : Block) : Prop where
  matching : s.Matches f layout block index a b
  todo_eq : a.todo = instr :: rest
  traps?_eq : (i.code f).traps? instr = false
  define_eq : (i.code f).define a.label a.store instr = .ok (dest, v)
  piece_mem : piece ∈ s.function.blocks
  getElem?_eq : piece.instrs[(layout.place block.label index).2]? = some instr
  label_eq : b.label = piece.label
  todo_eq' : b.todo = piece.instrs.drop (layout.place block.label index).2
  terminator_eq : b.terminator = piece.terminator

variable {piece : Block}

theorem Carries.mem_instrs (hc : Carries f layout s i block index a b instr rest dest v piece) :
    instr ∈ block.instrs :=
  List.mem_of_getElem? (getElem?_of_todo hc.matching hc.todo_eq).1

/-- The instruction is a definition of the function. -/
theorem Carries.mem_definitions
    (hc : Carries f layout s i block index a b instr rest dest v piece) :
    Definition.mk block.label index instr dest ∈ f.definitions := by
  obtain ⟨hget, -, hphi⟩ := getElem?_of_todo hc.matching hc.todo_eq
  refine Function.mem_definitions.2 ⟨block, hc.matching.block_mem, Block.mem_definitions.2 ?_⟩
  exact ⟨rfl, hget, hphi, Code.dest?_of_define hc.define_eq⟩

/-- The value fits the type of its name. -/
theorem define_lt (h : Guarding f settings oracle layout s i i')
    (hc : Carries f layout s i block index a b instr rest dest v piece) :
    ∃ ty, f.valueType? dest = some ty ∧ v < modulus ty.bits :=
  h.wellFormed.toTyped.define_lt hc.matching.typed
    (h.wellFormed.fitsTypes block hc.matching.block_mem instr hc.mem_instrs) hc.define_eq

theorem Carries.next_eq (hc : Carries f layout s i block index a b instr rest dest v piece) :
    a.next (i.code f) = .ok (.running { a with todo := rest, store := a.store.insert dest v }) := by
  rw [State.next_of_todo_cons hc.todo_eq hc.traps?_eq, hc.define_eq]
  rfl

/-- The piece gives the same value. -/
theorem next_eq (h : Guarding f settings oracle layout s i i')
    (hc : Carries f layout s i block index a b instr rest dest v piece) {todo : List Instr}
    (hdrop : piece.instrs.drop (layout.place block.label index).2 = instr :: todo) :
    b.next (i'.code s.function)
      = .ok (.running { b with todo := todo, store := b.store.insert dest v }) := by
  have hblock := hc.matching.block_mem
  have hnames := h.wellFormed.instr_names_mem block hblock instr hc.mem_instrs
  have hphi := (getElem?_of_todo hc.matching hc.todo_eq).2.2
  rw [State.next_of_todo_cons (hc.todo_eq'.trans hdrop)
    ((h.traps?_eq hblock hc.mem_instrs).trans hc.traps?_eq)]
  rw [Code.define_congr (h.sameTypes.mono hnames) (hc.matching.same.mono hnames) hphi
    a.label b.label, hc.define_eq]
  rfl

theorem Carries.refused?_eq (hc : Carries f layout s i block index a b instr rest dest v piece) :
    a.refused? (f.refuses settings oracle)
        { a with todo := rest, store := a.store.insert dest v }
      = if f.refuses settings oracle dest block.label v then some dest else none := by
  rw [State.refused?_define hc.todo_eq hc.define_eq rfl, hc.matching.label_eq]

/-- The trap block, entered from the piece, stands for a violation by the value. -/
theorem agrees_violated (h : Guarding f settings oracle layout s i i')
    (hc : Carries f layout s i block index a b instr rest dest v piece) :
    Watched.Agrees s.function s.trap layout.home (.violated a.label dest)
      (.ok (.trapped s.trap (some b.label))) := by
  rw [hc.label_eq]
  refine .violated hc.piece_mem ?_ ?_
  · rw [← hc.label_eq, h.home_label hc.matching]
  · exact List.mem_filterMap.2
      ⟨instr, List.mem_of_getElem? hc.getElem?_eq, Code.dest?_of_define hc.define_eq⟩

/-- The value is not refused, and both functions get to matching states. -/
theorem Carries.keepsUp_of_not_refused
    (hc : Carries f layout s i block index a b instr rest dest v piece)
    (hrefuses : f.refuses settings oracle dest block.label v = false) {n : Nat} {b' : State}
    (hn : n ≤ 10) (hsteps : State.Steps (i'.code s.function) (n + 1) b b')
    (hmatches : s.Matches f layout block (index + 1)
      { a with todo := rest, store := a.store.insert dest v } b') :
    KeepsUp f settings oracle layout s i i' a b := by
  refine .of_running hc.next_eq (fun _ => ?_) fun value hvalue => ?_
  · exact ⟨n, b', block, index + 1, hn, hsteps, hmatches⟩
  · rw [hc.refused?_eq, hrefuses, if_neg (by decide)] at hvalue
    cases hvalue

/-- The value is refused, and the guarded function jumps to the trap block from the piece. -/
theorem keepsUp_of_refused (h : Guarding f settings oracle layout s i i')
    (hc : Carries f layout s i block index a b instr rest dest v piece)
    (hrefuses : f.refuses settings oracle dest block.label v = true) {n : Nat} {t : State}
    (hn : n ≤ 10) (hsteps : State.Steps (i'.code s.function) n b t) (hlabel : t.label = b.label)
    (htodo : t.todo = []) (hexit : t.exit (i'.code s.function) = .ok (.jump s.trap)) :
    KeepsUp f settings oracle layout s i i' a b := by
  have hrefused : a.refused? (f.refuses settings oracle) _ = _ := hc.refused?_eq
  rw [hrefuses, if_pos rfl] at hrefused
  obtain ⟨u, hstep, hend⟩ := h.trapped_of_jump htodo hexit
  rw [hlabel] at hend
  refine .of_running hc.next_eq (fun hnone => ?_) fun value hvalue => ?_
  · cases hrefused.symm.trans hnone
  · cases hrefused.symm.trans hvalue
    exact ⟨n + 1, u, _, Nat.succ_le_succ hn, .trans hsteps (.one hstep), hend, h.agrees_violated hc⟩

/-- Without a guard, what follows the instruction in its block follows it in the piece. -/
theorem next_of_plain (h : Guarding f settings oracle layout s i i')
    (hc : Carries f layout s i block index a b instr rest dest v piece)
    (hdone : ∀ call ∈ settings.guards (f.survey oracle).findings, call.1.block = block.label →
      call.1.index ≠ index)
    (hplace : layout.place block.label (index + 1)
      = (piece.label, (layout.place block.label index).2 + 1)) :
    KeepsUp f settings oracle layout s i i' a b := by
  obtain ⟨ty, hty, hlt⟩ := h.define_lt hc
  have hrefuses := Settings.refuses_of_not_guarded h.surveyed hc.mem_definitions hty hlt hdone
  have hdrop := drop_eq_cons_iff.2 ⟨hc.getElem?_eq, rfl⟩
  refine hc.keepsUp_of_not_refused hrefuses (Nat.zero_le _) (.one (h.next_eq hc hdrop)) ?_
  refine h.matches_succ hc.matching hc.todo_eq hc.define_eq ?_ (hc.matching.same.insert dest v)
    hc.matching.origin_eq
  rw [hplace]
  exact ⟨piece, hc.piece_mem, rfl, hc.label_eq, rfl, hc.terminator_eq⟩

/-- A guard that always traps refuses every value. -/
theorem next_of_always (h : Guarding f settings oracle layout s i i')
    (hc : Carries f layout s i block index a b instr rest dest v piece) {finding : Finding}
    (hcall : (finding, .always) ∈ settings.guards (f.survey oracle).findings)
    (hblock : finding.block = block.label) (hindex : finding.index = index)
    (hdrop : piece.instrs.drop (layout.place block.label index).2 = [instr])
    (hterminator : piece.terminator = .goto s.trap) :
    KeepsUp f settings oracle layout s i i' a b := by
  obtain ⟨ty, hty, hlt⟩ := h.define_lt hc
  obtain ⟨hdescribes, htest⟩ := Settings.isViolated_guards h.wellFormed.labels_nodup
    hc.mem_definitions hcall hblock hindex
  have hrefuses := (htest v (hdescribes.lt_modulus hty hlt)).symm
  refine h.keepsUp_of_refused hc hrefuses (by omega) (.one (h.next_eq hc hdrop)) rfl rfl ?_
  unfold State.exit
  rw [hc.terminator_eq, hterminator]

/-- From the end of a piece, a jump to the next one, which has no phis, gets to a matching state. -/
theorem matches_of_jump (h : Guarding f settings oracle layout s i i')
    (hc : Carries f layout s i block index a b instr rest dest v piece) {label : String}
    (hplace : layout.place block.label (index + 1) = (label, 0)) (hfresh : label ∉ f.labels)
    {t : State} (hlabel : t.label = b.label) (htodo : t.todo = [])
    (hsame : Store.Same f.declarations.names (a.store.insert dest v) t.store)
    (hexit : t.exit (i'.code s.function) = .ok (.jump label)) :
    ∃ b', t.next (i'.code s.function) = .ok (.running b') ∧
      s.Matches f layout block (index + 1)
        { a with todo := rest, store := a.store.insert dest v } b' := by
  have hmem := h.guards.spread.place_mem block.label
    (Function.mem_labels.2 ⟨block, hc.matching.block_mem, rfl⟩) (index + 1)
  rw [hplace] at hmem
  obtain ⟨next, hnext, hnextLabel⟩ : ∃ next ∈ s.function.blocks, next.label = label :=
    Function.mem_labels.1 hmem
  have hphis := h.guards.spread.isPhi_eq_false next hnext (by rwa [hnextLabel])
  have hfound := (i'.block?_eq_some_iff h.guards.linked.labels_nodup label next).2
    ⟨hnext, hnextLabel⟩
  have hstep : t.next (i'.code s.function) = _ := State.next_of_todo_nil htodo
  rw [State.leave_of_jump hexit hfound, State.enter_of_not_phi hphis] at hstep
  -- The piece is entered from the one before, which stands for the block as well.
  have hne : next.label ≠ a.label := fun heq => by
    rw [hnextLabel, hc.matching.label_eq] at heq
    exact hfresh (Function.mem_labels.2 ⟨block, hc.matching.block_mem, heq.symm⟩)
  refine ⟨_, hstep, h.matches_succ hc.matching hc.todo_eq hc.define_eq ?_ hsame ?_⟩
  · rw [hplace]
    exact ⟨next, hnext, hnextLabel, rfl, rfl, rfl⟩
  · dsimp only
    rw [if_neg hne, hlabel]
    exact congrArg some (h.home_label hc.matching)

/-- A guard that tests the value leads into the trap block if the value is refused, and else into
the next piece. -/
theorem next_of_violated (h : Guarding f settings oracle layout s i i')
    (hc : Carries f layout s i block index a b instr rest dest v piece) {finding : Finding}
    {guard : Guard} {g : Function} {label : String}
    (hcall : (finding, .violated guard) ∈ settings.guards (f.survey oracle).findings)
    (hblock : finding.block = block.label) (hindex : finding.index = index)
    (hterms : guard.terms ≠ []) (hbefore : f.declarations <+: g.declarations)
    (hafter : (guard.lower finding.value finding.ty g).1.function.declarations
      <+: s.function.declarations)
    (hdrop : piece.instrs.drop (layout.place block.label index).2
      = instr :: (guard.lower finding.value finding.ty g).1.instrs)
    (hterminator : piece.terminator
      = .branch (guard.lower finding.value finding.ty g).2 s.trap label)
    (hplace : layout.place block.label (index + 1) = (label, 0)) (hfresh : label ∉ f.labels) :
    KeepsUp f settings oracle layout s i i' a b := by
  obtain ⟨ty, hty, hlt⟩ := h.define_lt hc
  obtain ⟨hdescribes, htest⟩ := Settings.isViolated_guards h.wellFormed.labels_nodup
    hc.mem_definitions hcall hblock hindex
  have hword := hdescribes.lt_modulus hty hlt
  have hvalue : finding.value = dest := hdescribes.value_eq
  have htested : guard.isViolated v = f.refuses settings oracle dest block.label v := htest v hword
  -- The guard tests the value in a store that holds it.
  have hnext := h.next_eq hc hdrop
  obtain ⟨n, u, hn, hsteps, hlabel, htodo, hsame, hexit⟩ := h.steps_guard hcall hterms hbefore
    hafter
    hdescribes.valueType?_eq hdescribes.intWidth?_eq
    (t := { b with todo := (guard.lower finding.value finding.ty g).1.instrs,
                   store := b.store.insert dest v })
    rfl (hc.terminator_eq.trans hterminator)
    (by rw [hvalue]; exact (Bindings.get?_insert ..).trans (if_pos rfl)) hword
  have hreach := State.Steps.trans (.one hnext) hsteps
  rw [htested] at hexit
  cases hcase : f.refuses settings oracle dest block.label v with
  | true =>
    rw [hcase] at hexit
    exact h.keepsUp_of_refused hc hcase (by omega) hreach hlabel htodo hexit
  | false =>
    rw [hcase] at hexit
    obtain ⟨b', hstep, hmatches⟩ := h.matches_of_jump hc hplace hfresh hlabel htodo
      ((hc.matching.same.insert dest v).trans hsame) hexit
    exact hc.keepsUp_of_not_refused hcase (by omega) (.trans hreach (.one hstep)) hmatches

/-- An instruction that gives a value is carried out in its piece, and what follows it there leads
on or, if the value is refused, into the trap block. -/
theorem next_of_define (h : Guarding f settings oracle layout s i i')
    (hc : Carries f layout s i block index a b instr rest dest v piece)
    (hfollows : layout.Follows f s.function s.trap (settings.guards (f.survey oracle).findings)
      block.label index instr piece) :
    KeepsUp f settings oracle layout s i i' a b := by
  cases hfollows with
  | plain hdone _ hplace => exact h.next_of_plain hc hdone hplace
  | always hcall hblock hindex hdrop hterminator =>
    exact h.next_of_always hc hcall hblock hindex hdrop hterminator
  | violated hcall hblock hindex hterms hbefore hafter hdrop hterminator hplace hfresh =>
    exact h.next_of_violated hc hcall hblock hindex hterms hbefore hafter hdrop hterminator hplace
      hfresh

/-- The guarded function keeps up with every instruction. -/
theorem next_of_todo_cons (h : Guarding f settings oracle layout s i i')
    (hm : s.Matches f layout block index a b) (htodo : a.todo = instr :: rest) :
    KeepsUp f settings oracle layout s i i' a b := by
  obtain ⟨hget, -, hphi⟩ := getElem?_of_todo hm htodo
  have hinstr : instr ∈ block.instrs := List.mem_of_getElem? hget
  have hmem : block.label ∈ f.labels := Function.mem_labels.2 ⟨block, hm.block_mem, rfl⟩
  obtain ⟨piece, hpiece, hplace, hfollows⟩ := h.guards.exists_follows hm.block_mem hget hphi
  obtain ⟨piece', hpiece', hplace', hlabel, htodo', hterminator⟩ := hm.exists_piece
  have hsame : piece' = piece := Function.eq_of_label_eq h.guards.linked.labels_nodup hpiece' hpiece
    (hplace'.trans hplace.symm)
  rw [hsame] at hlabel htodo' hterminator
  have htraps := h.traps?_eq hm.block_mem hinstr
  have hdrop := htodo'.trans (drop_eq_cons_iff.2 ⟨hfollows.getElem?, rfl⟩)
  cases hcall : (i.code f).traps? instr with
  | true =>
    -- The call stands in a piece of its block, which the trap block is not.
    have htrap : b.label ≠ s.trap := fun heq => by
      have hhome := h.home_label hm
      rw [heq, h.guards.spread.home_trap, hm.label_eq] at hhome
      exact h.guards.spread.trap_not_mem (hhome ▸ hmem)
    exact .of_finished (State.next_of_traps htodo hcall)
      (State.next_of_traps hdrop (htraps.trans hcall))
      (.trapped (h.home_label hm) htrap hm.origin_eq)
  | false =>
    cases hdefine : (i.code f).define a.label a.store instr with
    | ok entry =>
      exact h.next_of_define ⟨hm, htodo, hcall, hdefine, hpiece, hfollows.getElem?, hlabel, htodo',
        hterminator⟩ hfollows
    | error e =>
      have hnames := h.wellFormed.instr_names_mem block hm.block_mem instr hinstr
      have hdefine' := Code.define_congr (h.sameTypes.mono hnames) (hm.same.mono hnames) hphi
        a.label
        b.label
      -- The error names no label, so it is the same in both functions.
      have herror := EvalError.mapError_define layout.home (i.code f) a.store a.label hphi
      have hnext := State.next_of_todo_cons htodo hcall
      have hnext' := State.next_of_todo_cons hdrop (htraps.trans hcall)
      rw [hdefine] at hnext herror
      rw [hdefine', hdefine] at hnext'
      exact .of_failed hnext hnext' (Except.error.inj herror)

/-- The guarded function keeps up with every step. -/
theorem keepsUp (h : Guarding f settings oracle layout s i i')
    (hm : s.Matches f layout block index a b) : KeepsUp f settings oracle layout s i i' a b := by
  cases htodo : a.todo with
  | nil => exact h.next_of_todo_nil hm htodo
  | cons instr rest => exact h.next_of_todo_cons hm htodo

end Guarding

end FactGuard
