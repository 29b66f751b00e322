import FactGuard.Proofs.Guard.Execution
import FactGuard.Proofs.KnownBits.Membership

/-!
# Conditions, guards and instructions agree

What it means that a value violates a fact is said three times: by the range and the known bits, by
the condition that is made of them, and by the instructions of a guard. `Settings.condition_agrees`
shows that the three agree on every word of a type, with or without sign, whichever checks are asked
for. It puts `Settings.isViolated_condition` and `Guard.lower_evaluates` together. What is added is
that an interpreter knows the types that a guard needs (`Interpreter.knows_code`), and that a range
is empty in its bounds exactly if it contains no word (`ValueRange.isEmpty_iff_contains`).
-/

namespace FactGuard

/-- Instructions run through from a store, one step each, whatever follows them. They lead to a
store with the same values for the names, in which the operand is not zero exactly if `b` holds. -/
def Code.Decides (code : Code) (label : String) (instrs : List Instr) (cond : Operand)
    (names : List String) (store : Store) (b : Bool) : Prop :=
  ∃ (store' : Store) (bit : Nat),
    (∀ origin rest terminator,
      State.Steps code instrs.length ⟨label, origin, instrs ++ rest, terminator, store⟩
        ⟨label, origin, rest, terminator, store'⟩) ∧
    (∀ name ∈ names, store'.get? name = store.get? name) ∧
    store'.operand .bool cond = .ok bit ∧ (bit ≠ 0 ↔ b = true)

/-- An interpreter knows the types that a function declares, in every function with the same
declarations. -/
theorem Interpreter.knows_code (i : Interpreter) {f g : Function}
    (hnames : f.declarations.names.Nodup) (hg : g.declarations = f.declarations) :
    (i.code g).Knows f := by
  intro name ty hname
  rw [Function.typeOf_eq_ok_iff (by rwa [hg])]
  unfold Function.valueType?
  rw [hg]
  exact hname

/-- The instructions of a guard with terms decide whether a word violates it, in every function that
declares what the lowered one does. -/
theorem Guard.decides {guard : Guard} {f g : Function} {value : String} {ty : Ty} {store : Store}
    {v : Nat} (i : Interpreter) (label : String) (hterms : guard.terms ≠ [])
    (hnames : f.declarations.names.Nodup) (hvalue : f.valueType? value = some ty)
    (hg : g.declarations = (guard.lower value ty f).1.function.declarations)
    (hw : ty.intWidth? = some guard.width) (hfits : ∀ t ∈ guard.terms, t.Fits guard.width)
    (hv : store.get? value = some v) (hlt : v < modulus guard.width) :
    (i.code g).Decides label (guard.lower value ty f).1.instrs (guard.lower value ty f).2
      f.declarations.names store (guard.isViolated v) := by
  obtain ⟨temps, result, hgains, -⟩ := guard.lower_gains hterms hvalue
  have hcode := i.knows_code (hgains.nodup hnames) hg
  obtain ⟨store', hsteps, hkeeps, hcond⟩ :=
    guard.lower_evaluates label hterms hcode hvalue hw hfits hv hlt
  refine ⟨store', _, hsteps, hkeeps, hcond, ?_⟩
  cases guard.isViolated v <;> decide

/-- The condition that the settings make of a range and known bits of an integer type always holds
exactly if ranges are checked and no word lies in this one. It holds of a word exactly if a check
that is asked for refuses the word. If it is a guard with terms, its instructions decide whether it
holds of the word, in whichever function it is lowered and from whichever values. -/
theorem Settings.condition_agrees (settings : Settings) {range : ValueRange} {known : KnownBits}
    {ty : Ty} {w : Nat} (hw : ty.intWidth? = some w) (hrange : range.Fits w)
    (hknown : known.Fits w) :
    (settings.condition range known = .always ↔
        settings.checkRanges = true ∧ ∀ v < 2 ^ w, range.contains v = false) ∧
      ∀ v < 2 ^ w,
        ((settings.condition range known).isViolated v = true ↔
          settings.checkRanges = true ∧ range.contains v = false ∨
            settings.checkKnownBits = true ∧ known.contains v = false) ∧
        ∀ guard, settings.condition range known = .violated guard → guard.terms ≠ [] →
          ∀ (f g : Function) (value : String), f.declarations.names.Nodup →
            f.valueType? value = some ty →
            g.declarations = (guard.lower value ty f).1.function.declarations →
            ∀ (i : Interpreter) (label : String) (store : Store), store.get? value = some v →
              (i.code g).Decides label (guard.lower value ty f).1.instrs
                (guard.lower value ty f).2 f.declarations.names store
                ((settings.condition range known).isViolated v) := by
  obtain rfl := hrange.width_eq
  have hwidth := Ty.isWidth_of_intWidth? hw
  rw [← hwidth.modulus_eq]
  refine ⟨?_, fun v hlt => ⟨?_, ?_⟩⟩
  · rw [settings.condition_eq_always_iff, ValueRange.isEmpty_iff_contains hwidth hrange]
  · rw [settings.isViolated_condition hwidth hknown.width_eq hlt]
    simp [refuses]
  -- The bounds and masks are words of the width, so the comparisons in the code are those of the
  -- terms.
  · intro guard hguard hterms f g value hnames hvalue hg i label store hv
    obtain ⟨hguardWidth, hfits⟩ := Settings.fits_of_condition hguard hrange.lower_lt
      hrange.upper_lt hknown.zero_lt hknown.one_lt
    rw [← hguardWidth] at hw hfits hlt
    rw [hguard]
    exact guard.decides i label hterms hnames hvalue hg hw hfits hv hlt

/-- A signed byte from -1 to 15 whose second bit is set: -2 is refused by the range and 5 by the bit,
and 7 is not refused. -/
theorem condition_agrees_level :
    let range : ValueRange := ⟨8, 255, 16⟩
    let known := KnownBits.ofBits 8 0 2
    let level : Function := ⟨"level", [("n", .i8)], .bool, [("rg", .bool)], []⟩
    Ty.i8.intWidth? = some 8 ∧ range.Fits 8 ∧ known.Fits 8 ∧ level.declarations.names.Nodup ∧
      level.valueType? "n" = some .i8 ∧
      ∃ guard, Settings.default.condition range known = .violated guard ∧ guard.terms ≠ [] ∧
        ∀ (i : Interpreter) (label : String),
          let lowered := guard.lower "n" .i8 level
          let decides := fun n => (i.code lowered.1.function).Decides label lowered.1.instrs lowered.2
            ["n", "rg"] [("n", n)]
          decides 254 true ∧ decides 5 true ∧ decides 7 false := by
  intro range known level
  have hw : Ty.i8.intWidth? = some 8 := rfl
  have hrange : range.Fits 8 := ⟨rfl, by decide, by decide⟩
  have hknown : known.Fits 8 := KnownBits.fits_ofBits ..
  have hnames : level.declarations.names.Nodup := by decide
  obtain ⟨-, hwords⟩ := Settings.default.condition_agrees hw hrange hknown
  refine ⟨hw, hrange, hknown, hnames, rfl, _, rfl, by decide, fun i label => ?_⟩
  intro lowered decides
  have hdecides : ∀ n b, n < 2 ^ 8 →
      (Settings.default.condition range known).isViolated n = b → decides n b := by
    rintro n b hn rfl
    exact (hwords n hn).2 _ rfl (by decide) level _ "n" hnames rfl rfl i label [("n", n)] rfl
  exact ⟨hdecides 254 true (by decide) (by decide), hdecides 5 true (by decide) (by decide),
    hdecides 7 false (by decide) (by decide)⟩

end FactGuard
