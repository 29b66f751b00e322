import FactGuard.Proofs.Guard.Spares
import FactGuard.Proofs.Machine.Passage
import FactGuard.Proofs.Site.Report

/-!
# The names that guards define

Guards change no instruction of a function but for the labels that phis name, and what they add
defines their own locals only (`Function.Adds`). The names of these locals are the first spare ones,
which are not declared. A function may yet mention a name that it does not declare. Guards are
hygienic as long as no such name is among those that they took, and then no run of the guarded
function changes a value that the function mentions, other than by an instruction of the function
itself (`Session.instrument_hygienic`).
-/

namespace FactGuard

/-! ## Where instructions come from -/

namespace Function

variable {f g : Function}

theorem mem_instrs {instr : Instr} : instr ∈ f.instrs ↔ ∃ block ∈ f.blocks, instr ∈ block.instrs :=
  List.mem_flatMap

/-- The instructions of the second function are instructions of the first, but for the labels that
phis name. The functions agree in all but their blocks. -/
structure Rearranges (f g : Function) : Prop where
  header_eq : g.header = f.header
  exists_instr : ∀ instr ∈ g.instrs, ∃ old ∈ f.instrs, instr.unlabelled = old.unlabelled

theorem Rearranges.refl (f : Function) : f.Rearranges f :=
  ⟨rfl, fun instr hinstr => ⟨instr, hinstr, rfl⟩⟩

theorem Rearranges.trans {g' : Function} (h : f.Rearranges g) (h' : g.Rearranges g') :
    f.Rearranges g' where
  header_eq := h'.header_eq.trans h.header_eq
  exists_instr := by
    intro instr hinstr
    obtain ⟨mid, hmid, heq⟩ := h'.exists_instr instr hinstr
    obtain ⟨old, hold, heq'⟩ := h.exists_instr mid hmid
    exact ⟨old, hold, heq.trans heq'⟩

/-- A block of modified blocks is one of the blocks, or one that was modified. -/
theorem mem_or_of_mem_modify {blocks : List Block} {index : Nat} {change : Block → Block}
    {block : Block} (h : block ∈ blocks.modify index change) :
    block ∈ blocks ∨ ∃ old ∈ blocks, block = change old := by
  obtain ⟨j, hj⟩ := List.mem_iff_getElem?.1 h
  rw [List.getElem?_modify] at hj
  obtain ⟨old, hold, heq⟩ := Option.map_eq_some_iff.1 hj
  have hmem := List.mem_of_getElem? hold
  split_ifs at heq
  · exact .inr ⟨old, hmem, heq.symm⟩
  · exact .inl (heq ▸ hmem)

theorem rearranges_redirect (old new : String) (f : Function) (target : String) :
    f.Rearranges (f.redirect old new target) := by
  unfold redirect
  cases f.position? target with
  | none => exact .refl f
  | some index =>
    refine ⟨rfl, fun instr hinstr => ?_⟩
    obtain ⟨block, hblock, hinstr⟩ := mem_instrs.1 hinstr
    rcases mem_or_of_mem_modify hblock with hmem | ⟨before, hmem, rfl⟩
    · exact ⟨instr, mem_instrs.2 ⟨block, hmem, hinstr⟩, rfl⟩
    · have hunlabelled := List.mem_map_of_mem (f := Instr.unlabelled) hinstr
      rw [Block.map_unlabelled_redirect] at hunlabelled
      obtain ⟨instr', hinstr', heq⟩ := List.mem_map.1 hunlabelled
      exact ⟨instr', mem_instrs.2 ⟨before, hmem, hinstr'⟩, heq.symm⟩

theorem rearranges_foldl_redirect (old new : String) (targets : List String) (f : Function) :
    f.Rearranges (targets.foldl (redirect old new) f) := by
  induction targets generalizing f with
  | nil => exact .refl f
  | cons target rest ih => exact (rearranges_redirect old new f target).trans (ih _)

theorem rearranges_split (f : Function) (host count : Nat) (label : String) :
    f.Rearranges (f.split host count label) := by
  unfold split
  cases hhost : f.blocks[host]? with
  | none => exact .refl f
  | some block =>
    dsimp only
    refine Rearranges.trans ?_ (rearranges_foldl_redirect block.label label _ _)
    refine ⟨rfl, fun instr hinstr => ?_⟩
    have hblock := List.mem_of_getElem? hhost
    obtain ⟨piece, hpiece, hinstr⟩ := mem_instrs.1 hinstr
    refine ⟨instr, mem_instrs.2 ?_, rfl⟩
    rcases List.mem_append.1 hpiece with hpiece | hpiece
    · rcases List.mem_or_eq_of_mem_set hpiece with hmem | rfl
      · exact ⟨piece, hmem, hinstr⟩
      · exact ⟨block, hblock, List.mem_of_mem_take hinstr⟩
    · rw [List.mem_singleton.1 hpiece] at hinstr
      exact ⟨block, hblock, List.mem_of_mem_drop hinstr⟩

/-- Ending a block adds the instructions that it is ended with. -/
theorem mem_or_of_mem_endBlock {host : Nat} {instrs : List Instr} {terminator : Terminator}
    {instr : Instr} (h : instr ∈ (f.endBlock host instrs terminator).instrs) :
    instr ∈ f.instrs ∨ instr ∈ instrs := by
  obtain ⟨block, hblock, hinstr⟩ := mem_instrs.1 h
  rcases mem_or_of_mem_modify hblock with hmem | ⟨before, hmem, rfl⟩
  · exact .inl (mem_instrs.2 ⟨block, hmem, hinstr⟩)
  · exact (List.mem_append.1 hinstr).imp_left fun hinstr => mem_instrs.2 ⟨before, hmem, hinstr⟩

/-- A function with its guards: locals under the first spare names, and instructions that define
only these besides those of the function, which differ at most in the labels that phis name. -/
structure Adds (f g : Function) (temps : Bindings Ty) (count : Nat) : Prop
    extends f.SparesFor g temps count where
  instr_cases : ∀ instr ∈ g.instrs, (∃ old ∈ f.instrs, instr.unlabelled = old.unlabelled) ∨
    ∀ name, instr.dest? = some name → name ∈ temps.names

namespace Adds

variable {temps : Bindings Ty} {count : Nat}

theorem refl (f : Function) : f.Adds f [] 0 where
  toSparesFor := .refl f
  instr_cases := fun instr hinstr => .inl ⟨instr, hinstr, rfl⟩

theorem rearranges (h : f.Adds g temps count) {g' : Function} (hg : g.Rearranges g') :
    f.Adds g' temps count where
  toSparesFor := h.of_header_eq hg.header_eq
  instr_cases := by
    intro instr hinstr
    obtain ⟨mid, hmid, heq⟩ := hg.exists_instr instr hinstr
    refine (h.instr_cases mid hmid).imp (fun ⟨old, hold, heq'⟩ => ⟨old, hold, heq.trans heq'⟩)
      fun htemps name hname => htemps name ?_
    rwa [← Instr.dest?_unlabelled, ← heq, Instr.dest?_unlabelled]

theorem endBlock (h : f.Adds g temps count) {host : Nat} {instrs : List Instr}
    {terminator : Terminator}
    (hinstrs : ∀ instr ∈ instrs, ∀ name, instr.dest? = some name → name ∈ temps.names) :
    f.Adds (g.endBlock host instrs terminator) temps count where
  toSparesFor := h.of_header_eq rfl
  instr_cases := fun instr hinstr =>
    (mem_or_of_mem_endBlock hinstr).elim (h.instr_cases instr) fun hmem => .inr (hinstrs instr hmem)

/-- The types of names that were declared before stay. -/
theorem valueType?_of_some (h : f.Adds g temps count) {name : String} {ty : Ty}
    (hname : f.valueType? name = some ty) : g.valueType? name = some ty := by
  rw [valueType?_of_declarations_eq h.declarations_eq
    ((Bindings.isSome_get?_iff _ _).1 (Option.isSome_of_eq_some hname)), hname]

/-- Lowering a guard declares the next spare names, and its instructions define these. -/
theorem lower (h : f.Adds g temps count) {guard : Guard} (hterms : guard.terms ≠ [])
    {value : String} {ty : Ty} (hvalue : f.valueType? value = some ty) :
    ∃ temps' count', f.Adds (guard.lower value ty g).1.function temps' count' ∧
      ∀ instr ∈ (guard.lower value ty g).1.instrs, ∀ name, instr.dest? = some name →
        name ∈ temps'.names := by
  obtain ⟨result, -, hyields⟩ := Guard.lower_yields hterms (h.valueType?_of_some hvalue)
  obtain ⟨more, count', hspares, hemitted⟩ := hyields.emits.spares h.toSparesFor
  -- Lowering leaves the blocks alone: the instructions of the guard go in when a block is ended.
  have hsame : (guard.lower value ty g).1.function.instrs = g.instrs := by
    unfold instrs
    rw [Guard.blocks_lower]
  refine ⟨temps ++ more, count', ⟨hspares, fun instr hinstr => ?_⟩,
    fun instr hinstr name hname => ?_⟩
  · rw [hsame] at hinstr
    refine (h.instr_cases instr hinstr).imp_right fun htemps name hname => ?_
    rw [Bindings.names_append]
    exact List.mem_append_left _ (htemps name hname)
  · obtain ⟨temp, htemp, hdest⟩ := (hemitted instr hinstr).resolve_left (by simp)
    rw [hdest] at hname
    cases hname
    rw [Bindings.names_append]
    exact List.mem_append_right _ htemp

end Adds

end Function

namespace Splicer

variable {f : Function} {s s' : Splicer} {finding : Finding} {condition : Condition}
  {temps : Bindings Ty} {count : Nat}

/-- The trap block defines nothing. -/
theorem adds_start (f : Function) : f.Adds (start f).function [] 0 where
  toSparesFor := (Function.SparesFor.refl f).of_header_eq rfl
  instr_cases := by
    intro instr hinstr
    obtain ⟨block, hblock, hinstr⟩ := Function.mem_instrs.1 hinstr
    rcases List.mem_append.1 hblock with hblock | hblock
    · exact .inl ⟨instr, Function.mem_instrs.2 ⟨block, hblock, hinstr⟩, rfl⟩
    · rw [List.mem_singleton.1 hblock, trapBlock, List.mem_singleton] at hinstr
      rw [hinstr]
      refine .inr fun name hname => ?_
      cases hname

/-- Putting in a guard adds locals under the next spare names, and instructions that define these.
-/
theorem adds_insert (h : f.Adds s.function temps count)
    (hvalue : f.valueType? finding.value = some finding.ty)
    (hvacuous : ¬ condition.isVacuous = true) (host index : Nat) :
    ∃ temps' count', f.Adds (s.insert finding condition host index).1.function temps' count' := by
  have hsplit := h.rearranges (s.function.rearranges_split host (index + 1)
    (s.function.freshLabel (finding.block ++ ".cont")))
  cases condition with
  | always => exact ⟨temps, count, hsplit.endBlock fun instr hinstr => nomatch hinstr⟩
  | violated guard =>
    have hterms : guard.terms ≠ [] := fun hnil =>
      hvacuous (by rw [Condition.isVacuous, hnil]; rfl)
    obtain ⟨temps', count', hlower, hinstrs⟩ := hsplit.lower hterms hvalue
    exact ⟨temps', count', hlower.endBlock hinstrs⟩

/-- So does guarding a finding, unless there is nothing to check. Labels may stand twice, so that the
block which is cut need not be the one that holds the value. -/
theorem adds_guard (h : f.Adds s.function temps count)
    (hvalue : f.valueType? finding.value = some finding.ty) {kind : SiteKind}
    (hguard : s.guard finding condition = .ok (s', kind)) :
    ∃ temps' count', f.Adds s'.function temps' count' := by
  unfold guard at hguard
  split_ifs at hguard with hvacuous
  · cases hguard
    exact ⟨temps, count, h⟩
  · obtain ⟨⟨host, index⟩, -, hinsert⟩ := bind_eq_ok.1 hguard
    have hfunction := congrArg Prod.fst (Except.ok.inj hinsert)
    rw [← show (s.insert finding condition host index).1 = s' from hfunction]
    exact adds_insert h hvalue hvacuous host index

/-- So it is with all guards, whether they all go in or not. -/
theorem adds_guardAll (h : f.Adds s.function temps count) (settings : Settings)
    {findings : List Finding}
    (hvalues : ∀ finding ∈ findings, f.valueType? finding.value = some finding.ty) :
    ∃ temps' count', f.Adds (s.guardAll settings findings).splicer.function temps' count' := by
  induction findings generalizing s temps count with
  | nil => exact ⟨temps, count, h⟩
  | cons finding rest ih =>
    unfold guardAll
    cases hguard : s.guard finding (settings.condition finding.range finding.known) with
    | error failure => exact ⟨temps, count, h⟩
    | ok result =>
      obtain ⟨temps', count', hnext⟩ :=
        adds_guard h (hvalues finding List.mem_cons_self) hguard
      exact ih hnext fun other hother => hvalues other (List.mem_cons_of_mem _ hother)

end Splicer

/-- A function that was guarded, or that could not be, is the function with its guards so far. -/
theorem Session.adds_instrument (session : Session) (settings : Settings) (source : FactSource)
    (f : Function) :
    ∃ temps count, f.Adds (session.instrument settings source f).subject temps count := by
  rcases instrument_cases settings source f with ⟨-, heq⟩ |
    ⟨-, ⟨failure, -, heq⟩ | ⟨oracle, -, ⟨failure, -, heq⟩ | ⟨-, heq⟩⟩⟩
  · exact ⟨[], 0, by rw [heq]; exact .refl f⟩
  · exact ⟨[], 0, by rw [heq]; exact .refl f⟩
  · exact ⟨[], 0, by rw [heq]; exact .refl f⟩
  · have hvalues : ∀ finding ∈ (f.survey oracle).findings,
        f.valueType? finding.value = some finding.ty := by
      intro finding hfinding
      obtain ⟨d, -, hfound⟩ := Function.exists_definition hfinding
      exact (Oracle.describes_of_found hfound).valueType?_eq
    obtain ⟨temps, count, hall⟩ := Splicer.adds_guardAll (Splicer.adds_start f) settings hvalues
    refine ⟨temps, count, ?_⟩
    rw [heq]
    unfold splice
    dsimp only
    split <;> exact hall

/-! ## Names that are mentioned -/

/-- The names that a function declares, defines or reads. -/
def Function.mentioned (f : Function) : List String :=
  f.declarations.names ++ f.instrs.flatMap Instr.names
    ++ f.blocks.flatMap fun block => block.terminator.names

/-- No local that was added has a name that the function mentions. -/
def Function.Hygienic (f : Function) (temps : Bindings Ty) : Prop :=
  ∀ name ∈ temps.names, name ∉ f.mentioned

/-- Guards are hygienic if none of the numbers that were tried makes a name that is mentioned
without being declared. -/
theorem Function.SparesFor.hygienic_iff {f g : Function} {temps : Bindings Ty} {count : Nat}
    (h : f.SparesFor g temps count) :
    f.Hygienic temps ↔ ∀ name ∈ f.mentioned, name ∉ f.declarations.names →
      ∀ number, f.locals.length ≤ number → number < f.locals.length + count →
        name ≠ Function.numberedName number := by
  unfold Hygienic
  rw [h.names_eq]
  constructor
  · rintro hclean name hname hundeclared number hle hlt rfl
    exact hclean _ (mem_spareNames.2 ⟨⟨number, hle, hlt, rfl⟩, hundeclared⟩) hname
  · intro hclean name hspare hname
    obtain ⟨⟨number, hle, hlt, heq⟩, hundeclared⟩ := mem_spareNames.1 hspare
    exact hclean name hname hundeclared number hle hlt heq.symm

/-! ## Values that change -/

/-- A step carries out an instruction: it comes next in the block, or it is a phi of the block that
is entered. -/
def State.CarriesOut (g : Function) (s t : State) (instr : Instr) : Prop :=
  (∃ rest, s.todo = instr :: rest) ∨
    s.todo = [] ∧ ∃ block ∈ g.blocks, block.label = t.label ∧ instr ∈ block.phis

/-- A value changes only where an instruction defines it. -/
theorem Interpreter.Visits.exists_carriesOut {i : Interpreter} {g : Function} {args : List Nat}
    {s t : State} (hs : i.Visits g args s) (hstep : s.next (i.code g) = .ok (.running t))
    {name : String} (hchange : t.store.get? name ≠ s.store.get? name) :
    ∃ instr ∈ g.instrs, s.CarriesOut g t instr ∧ instr.dest? = some name := by
  rcases State.next_eq_running hstep with
    ⟨instr, rest, dest, v, htodo, -, hdefine, rfl⟩ | ⟨htodo, target, block, -, hblock, henter⟩
  · have hdest : dest = name := by
      by_contra hne
      exact hchange (by rw [Bindings.get?_insert, if_neg hne])
    refine ⟨instr, ?_, .inl ⟨rest, htodo⟩, hdest ▸ Code.dest?_of_define hdefine⟩
    exact Function.mem_instrs.2 (hs.within.exists_mem (by rw [htodo]; exact List.mem_cons_self))
  · obtain ⟨values, hvalues, rfl⟩ := State.enter_eq_ok_iff.1 henter
    obtain ⟨v, hv⟩ : ∃ v, (name, v) ∈ values := by
      by_contra hnone
      exact hchange (Store.get?_insertAll_of_forall fun v hv => hnone ⟨v, hv⟩)
    obtain ⟨sources, operand, ty, hphi, -⟩ := Code.exists_of_mem_phiValues hvalues hv
    have hmem : block ∈ g.blocks := Code.mem_of_block? hblock
    exact ⟨.phi name sources,
      Function.mem_instrs.2 ⟨block, hmem, (List.takeWhile_prefix _).subset hphi⟩,
      .inr ⟨htodo, block, hmem, rfl, hphi⟩, rfl⟩

/-- Whatever a function and its source are, the names of the locals that guards added are the first
spare ones. They are distinct and not declared in the function, so guards are hygienic unless one of
them is a name that the function mentions without declaring it. And if they are hygienic, no step of
the guarded function changes what the function mentions, or holds a value for it that was not there,
other than by carrying out an instruction of the function that defines it. -/
theorem Session.instrument_hygienic (session : Session) (settings : Settings) (source : FactSource)
    (f : Function) :
    let g := (session.instrument settings source f).subject
    ∃ (temps : Bindings Ty) (count : Nat),
      g.header = { f.header with locals := f.locals ++ temps } ∧
      temps.names = f.spareNames count ∧ temps.names.Nodup ∧
      (f.Hygienic temps ↔ ∀ name ∈ f.mentioned, name ∉ f.declarations.names →
        ∀ number, f.locals.length ≤ number → number < f.locals.length + count →
          name ≠ Function.numberedName number) ∧
      (f.Hygienic temps → ∀ (i : Interpreter) args s t, i.Visits g args s →
        s.next (i.code g) = .ok (.running t) →
          ∀ name ∈ f.mentioned, t.store.get? name ≠ s.store.get? name →
            ∃ instr, s.CarriesOut g t instr ∧ instr.dest? = some name ∧
              ∃ old ∈ f.instrs, instr.unlabelled = old.unlabelled) := by
  intro g
  obtain ⟨temps, count, hg⟩ := session.adds_instrument settings source f
  refine ⟨temps, count, hg.header_eq, hg.names_eq, hg.names_eq ▸ f.nodup_spareNames count,
    hg.hygienic_iff, fun hclean i args s t hs hstep name hname hchange => ?_⟩
  obtain ⟨instr, hmem, hcarries, hdest⟩ := hs.exists_carriesOut hstep hchange
  -- The instruction defines a name that is mentioned, so no guard added it.
  have hold := (hg.instr_cases instr hmem).resolve_right fun htemps =>
    hclean name (htemps name hdest) hname
  exact ⟨instr, hcarries, hdest, hold⟩

/-- The digit declares every name that it mentions, so a run of the guarded digit changes its values
by its own instructions only. -/
theorem Session.instrument_hygienic_digit :
    let g := (Session.start.instrument Settings.default .inferred digit).subject
    ∀ (i : Interpreter) args s t, i.Visits g args s → s.next (i.code g) = .ok (.running t) →
      ∀ name ∈ digit.mentioned, t.store.get? name ≠ s.store.get? name →
        ∃ instr, s.CarriesOut g t instr ∧ instr.dest? = some name ∧
          ∃ old ∈ digit.instrs, instr.unlabelled = old.unlabelled := by
  intro g
  obtain ⟨temps, count, -, -, -, hiff, hchanges⟩ :=
    Session.start.instrument_hygienic Settings.default .inferred digit
  have hdeclared : ∀ name ∈ digit.mentioned, name ∈ digit.declarations.names := by decide
  exact hchanges (hiff.2 fun name hname hundeclared => absurd (hdeclared name hname) hundeclared)

/-- Copies its argument to a name that it does not declare, and takes the last decimal digit. -/
def undeclared : Function where
  name := "undeclared"
  params := [("x", .u8)]
  result := .u8
  locals := [("r", .u8)]
  blocks := [⟨"entry", [
    .copy "rg1" "x",
    .binary "r" .mod (.place "x") (.constant (.int 10))], .ret (some (.place "rg1"))⟩]

/-- A guard takes a name that the function defines and returns without declaring it, and the guarded
function returns what the guard has computed. -/
theorem Session.instrument_overwrites_undeclared :
    let attempt := Session.start.instrument Settings.default .inferred undeclared
    let i : Interpreter := ⟨[trapCallee], 100⟩
    (∃ report, attempt.result = .ok report ∧ report.sites = 1) ∧
    "rg1" ∈ undeclared.mentioned ∧ "rg1" ∉ undeclared.declarations.names ∧
    "rg1" ∈ Bindings.names attempt.subject.locals ∧
    i.run undeclared [200] = .ok (.returned (some 200)) ∧
    i.run attempt.subject [200] = .ok (.returned (some 0)) :=
  ⟨⟨_, rfl, rfl⟩, by decide, by decide, by decide, rfl, rfl⟩

end FactGuard
