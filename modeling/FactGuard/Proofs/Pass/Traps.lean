import Mathlib.Logic.Relation
import FactGuard.Proofs.Pass.Agreement
import FactGuard.Proofs.Site.Refinement
import FactGuard.Proofs.Site.TrapBlocks

/-!
# Programs that are guarded several times

A run, directly or through the standard pipeline, declares the trap function unless there is a
declaration of its name, and puts a trap block into each function that is not skipped. Any number of
runs, one after another, declare it once at most (`Program.externs_of_runs`), and leave the trap
blocks of earlier runs as they are (`Program.trapsAt_of_runs`). Whether a run of the program that
comes to a trap block traps there depends on the declarations that the program had at first: a
declaration of the same name is kept, also one that may return (`Program.trap_effective`).
-/

namespace FactGuard

/-- The declaration is that of a function which takes nothing and never returns or unwinds. -/
def Extern.NeverReturns (decl : Extern) : Prop :=
  decl.params = [] ∧ decl.noReturn = true ∧ decl.noUnwind = true

namespace Program

/-- The declarations of the name of the trap function. -/
def trapExterns (p : Program) : List Extern := p.externs.filter (·.name == trapCallee)

/-- The second program is what a successful run makes of the first. -/
inductive Instrumented : Program → Program → Prop
  | direct {p : Program} {report : Report} (session : Session) (settings : Settings)
      (source : FactSource)
      (h : (session.instrumentProgram settings source p).result = .ok report) :
      Instrumented p (session.instrumentProgram settings source p).subject
  | piped {p : Program} {summary : Summary} (session : Session) (settings : Settings)
      (analyses : Analyses)
      (h : ((Pipeline.standard settings).run analyses p session).result = .ok summary) :
      Instrumented p ((Pipeline.standard settings).run analyses p session).subject

variable {p q : Program}

/-- A run through the pipeline makes of a program what a direct run does. -/
theorem Instrumented.exists_direct (h : p.Instrumented q) :
    ∃ (session : Session) (settings : Settings) (source : FactSource) (report : Report),
      (session.instrumentProgram settings source p).result = .ok report ∧
        q = (session.instrumentProgram settings source p).subject := by
  cases h with
  | direct session settings source h => exact ⟨session, settings, source, _, h, rfl⟩
  | piped session settings analyses h =>
    obtain ⟨source?⟩ := analyses
    cases source? with
    | none => cases h
    | some source =>
      obtain ⟨hsubject, -, hresult⟩ := Pipeline.run_standard_matches settings source p session
      have hresult' := hresult.symm.trans h
      cases hdirect : (session.instrumentProgram settings source p).result with
      | error failure =>
        rw [hdirect] at hresult'
        cases hresult'
      | ok report => exact ⟨session, settings, source, report, hdirect, hsubject⟩

/-! ## Declarations -/

theorem extern?_eq_none_iff : p.extern? trapCallee = none ↔ p.trapExterns = [] := by
  unfold extern? trapExterns
  rw [List.find?_eq_none, List.filter_eq_nil_iff]

/-- Where the name is declared, nothing is. -/
theorem declareExtern_eq_self (h : p.trapExterns ≠ []) : p.declareExtern trapExtern = p := by
  unfold declareExtern
  rw [if_neg]
  rw [Option.isNone_iff_eq_none]
  exact mt extern?_eq_none_iff.1 h

/-- Where it is not, the trap function is. -/
theorem externs_declareExtern (h : p.trapExterns = []) :
    (p.declareExtern trapExtern).externs = p.externs ++ [trapExtern] := by
  unfold declareExtern
  rw [show p.extern? trapExtern.name = none from extern?_eq_none_iff.2 h]
  rfl

theorem trapExterns_declareExtern (p : Program) :
    (p.declareExtern trapExtern).trapExterns
      = if p.trapExterns = [] then [trapExtern] else p.trapExterns := by
  split_ifs with h
  · have hnil := h
    unfold trapExterns at hnil ⊢
    rw [externs_declareExtern h, List.filter_append, hnil]
    rfl
  · rw [declareExtern_eq_self h]

theorem trapExterns_declareExtern_ne_nil (p : Program) :
    (p.declareExtern trapExtern).trapExterns ≠ [] := by
  rw [trapExterns_declareExtern]
  split_ifs with h
  · exact List.cons_ne_nil _ _
  · exact h

theorem Instrumented.externs_eq (h : p.Instrumented q) :
    q.externs = (p.declareExtern trapExtern).externs := by
  obtain ⟨session, settings, source, report, -, rfl⟩ := h.exists_direct
  rfl

/-- The first run declares the trap function, and later ones find it declared. -/
theorem externs_of_runs (h : Relation.TransGen Instrumented p q) :
    q.externs = (p.declareExtern trapExtern).externs := by
  induction h with
  | single h => exact h.externs_eq
  | @tail mid q _ h ih =>
    have hdeclared : mid.trapExterns ≠ [] := by
      unfold trapExterns
      rw [ih]
      exact trapExterns_declareExtern_ne_nil p
    rw [h.externs_eq, declareExtern_eq_self hdeclared, ih]

/-- The trap function is declared once, and as what it is, unless the program has declared the name
otherwise. -/
theorem trapExterns_of_runs (h : Relation.TransGen Instrumented p q) :
    q.trapExterns = if p.trapExterns = [] then [trapExtern] else p.trapExterns := by
  rw [← trapExterns_declareExtern]
  unfold trapExterns
  rw [externs_of_runs h]

theorem mem_traps_iff (limit : Nat) :
    trapCallee ∈ (p.interpreter limit).traps ↔ ∃ decl ∈ p.trapExterns, decl.noReturn = true := by
  show trapCallee ∈ (p.externs.filter (·.noReturn)).map (·.name) ↔ _
  unfold trapExterns
  simp only [List.mem_map, List.mem_filter, beq_iff_eq]
  exact ⟨fun ⟨decl, ⟨hmem, hreturn⟩, hname⟩ => ⟨decl, ⟨hmem, hname⟩, hreturn⟩,
    fun ⟨decl, ⟨hmem, hname⟩, hreturn⟩ => ⟨decl, ⟨hmem, hreturn⟩, hname⟩⟩

/-! ## Trap blocks -/

/-- The functions of a guarded program are guarded one by one. -/
theorem exists_of_instrumentAll {session : Session} {settings : Settings} {source : FactSource}
    {functions : List Function} {report : Report}
    (h : (session.instrumentAll settings source functions).result = .ok report) {index : Nat}
    {f : Function} (hf : functions[index]? = some f) :
    ∃ (session' : Session) (report' : Report),
      (session'.instrument settings source f).result = .ok report' ∧
        (session.instrumentAll settings source functions).subject[index]?
          = some (session'.instrument settings source f).subject := by
  -- By induction on the functions, over all sessions, because each function changes the session.
  induction functions generalizing session report index with
  | nil => cases hf
  | cons first rest ih =>
    unfold Session.instrumentAll at h ⊢
    dsimp only at h ⊢
    cases hfirst : (session.instrument settings source first).result with
    | error failure =>
      rw [hfirst] at h
      cases h
    | ok report' =>
      rw [hfirst] at h
      dsimp only at h ⊢
      cases index with
      | zero =>
        cases hf
        exact ⟨session, report', hfirst, rfl⟩
      | succ index =>
        cases hrest : ((session.instrument settings source first).session.instrumentAll settings
          source rest).result with
        | error failure =>
          rw [hrest] at h
          cases h
        | ok later => exact ih hrest hf

/-- A run guards each function in its place. -/
theorem Instrumented.exists_instrument (h : p.Instrumented q) {index : Nat} {f : Function}
    (hf : p.functions[index]? = some f) :
    ∃ (session : Session) (settings : Settings) (source : FactSource) (report : Report),
      (session.instrument settings source f).result = .ok report ∧
        q.functions[index]? = some (session.instrument settings source f).subject := by
  obtain ⟨session, settings, source, report, hresult, rfl⟩ := h.exists_direct
  rw [← functions_declareExtern p trapExtern] at hf
  obtain ⟨session', report', hguarded, hsubject⟩ := exists_of_instrumentAll hresult hf
  exact ⟨session', settings, source, report', hguarded, hsubject⟩

/-- What earlier runs have put in is left as it is. -/
theorem trapsAt_of_runs (h : Relation.ReflTransGen Instrumented p q) {index : Nat} {label : String}
    {f : Function} (hf : p.functions[index]? = some f) (htraps : f.TrapsAt label) :
    ∃ g, q.functions[index]? = some g ∧ g.TrapsAt label := by
  induction h with
  | refl => exact ⟨f, hf, htraps⟩
  | tail _ h ih =>
    obtain ⟨g, hg, htraps⟩ := ih
    obtain ⟨session, settings, source, -, -, hsubject⟩ := h.exists_instrument hg
    exact ⟨_, hsubject, htraps.instrument session settings source⟩

/-! ## Main result -/

/-- Programs that were guarded, once or more often. There is exactly one declaration of the trap
function, and it takes nothing and never returns, if and only if the program had no declaration of
the name or just one of this kind: a declaration of the name is kept as it is. Each run leaves a
function as it is or gives it a trap block, which later runs keep. A run of the final function that
comes to the block ends there, under every limit above the number of steps that lead to it: it traps
if the program had no declaration of the name or had one that never returns, and fails at the call
if not. -/
theorem trap_effective (h : Relation.TransGen Instrumented p q) :
    q.externs = (if p.trapExterns = [] then p.externs ++ [trapExtern] else p.externs) ∧
    ((∃ decl, q.trapExterns = [decl] ∧ decl.NeverReturns) ↔
      p.trapExterns = [] ∨ ∃ decl, p.trapExterns = [decl] ∧ decl.NeverReturns) ∧
    (∀ limit, trapCallee ∈ (q.interpreter limit).traps ↔
      p.trapExterns = [] ∨ ∃ decl ∈ p.trapExterns, decl.noReturn = true) ∧
    ∀ before after : Program, Relation.ReflTransGen Instrumented p before →
      before.Instrumented after → Relation.ReflTransGen Instrumented after q →
      ∀ (index : Nat) (f : Function), before.functions[index]? = some f →
        after.functions[index]? = some f ∨
          ∃ g, q.functions[index]? = some g ∧ trapBlock (f.freshLabel trapLabel) ∈ g.blocks ∧
            ∀ limit args s, (q.interpreter limit).Visits g args s →
              s.label = f.freshLabel trapLabel →
              ∃ steps, (q.interpreter limit).EndsAtTrap g args steps s := by
  have hexterns := trapExterns_of_runs h
  refine ⟨?_, ?_, fun limit => ?_, ?_⟩
  · rw [externs_of_runs h]
    split_ifs with hnone
    · exact externs_declareExtern hnone
    · rw [declareExtern_eq_self hnone]
  · rw [hexterns]
    split_ifs with hnone
    · exact iff_of_true ⟨trapExtern, rfl, rfl, rfl, rfl⟩ (.inl hnone)
    · exact ⟨.inr, fun h => h.resolve_left hnone⟩
  · rw [mem_traps_iff, hexterns]
    split_ifs with hnone
    · exact iff_of_true ⟨trapExtern, List.mem_cons_self, rfl⟩ (.inl hnone)
    · exact ⟨.inr, fun h => h.resolve_left hnone⟩
  -- A run leaves the function alone or gives it a trap block, and the later runs keep the block.
  · intro before after _ hrun hlater index f hf
    obtain ⟨session, settings, source, report, hresult, hsubject⟩ := hrun.exists_instrument hf
    rcases Session.eq_or_trapsAt_of_instrument hresult with heq | htraps
    · exact .inl (heq ▸ hsubject)
    · obtain ⟨g, hg, htraps⟩ := trapsAt_of_runs hlater hsubject htraps
      exact .inr ⟨g, hg, htraps.mem, fun limit args s hs hlabel => hs.endsAtTrap htraps hlabel⟩

/-- The digit declares nothing. After a direct run and one through the pipeline the trap function is
declared once, its callee traps, and the trap block of each of the runs is there. -/
theorem trap_effective_digit :
    let p : Program := ⟨[digit], []⟩
    let mid := (Session.start.instrumentProgram Settings.default .inferred p).subject
    let q := ((Pipeline.standard Settings.default).run (.ofSource .inferred) mid
      Session.start).subject
    (∃ decl, q.trapExterns = [decl] ∧ decl.NeverReturns) ∧
      trapCallee ∈ (q.interpreter 100).traps ∧
      ∃ g, q.functions[0]? = some g ∧ trapBlock "trap" ∈ g.blocks ∧
        ∀ limit args s, (q.interpreter limit).Visits g args s → s.label = "trap" →
          ∃ steps, (q.interpreter limit).EndsAtTrap g args steps s := by
  intro p mid q
  have hfirst : p.Instrumented mid := .direct Session.start Settings.default .inferred (p := p) rfl
  have hsecond : mid.Instrumented q := .piped Session.start Settings.default _ rfl
  obtain ⟨-, hone, htraps, hblocks⟩ := trap_effective (.tail (.single hfirst) hsecond)
  refine ⟨hone.2 (.inl rfl), (htraps 100).2 (.inl rfl), ?_⟩
  exact (hblocks p mid .refl hfirst (.single hsecond) 0 digit rfl).resolve_left (by decide)

/-- A claim about the digit that is wrong: its remainder is below five. -/
def wrongTable : FactTable := ⟨[("digit", [("rest", .ofRange (.bounds 0 5))])]⟩

/-- A program that declares the trap function as one that may return keeps this declaration, and the
guard that the remainder of eight violates leads to a call that is not supported. -/
theorem trap_ineffective_digit :
    let p : Program := ⟨[digit], [{ trapExtern with noReturn := false, noUnwind := false }]⟩
    let attempt := Session.start.instrumentProgram Settings.default (.layered [wrongTable]) p
    (∃ report, attempt.result = .ok report ∧ report.sites = 2) ∧
      (∃ decl, attempt.subject.trapExterns = [decl] ∧ ¬ decl.NeverReturns) ∧
      ∃ g ∈ attempt.subject.functions, trapBlock "trap" ∈ g.blocks ∧
        (attempt.subject.interpreter 100).run g [8] = .error (.unsupportedCall trapCallee) :=
  ⟨⟨_, rfl, rfl⟩, ⟨_, rfl, fun h => nomatch h.2.1⟩, _, List.mem_cons_self, by decide, rfl⟩

end Program

end FactGuard
