import FactGuard.Proofs.Site.Simulation

/-!
# Guarded functions trap at the first refused value

A run of a guarded function is followed step by step (`Guarding.keepsUp`), so it ends as the watched
run of the function does, with at most eleven steps for one, and two more in the trap block
(`Guarding.run_agrees`). As it makes no fewer steps, it is still running where the watched run is
(`Guarding.run_of_watch_eq_unfinished`). `Session.instrument_refines` says this of the function that
guarding leaves.
-/

namespace FactGuard

namespace Guarding

variable {f : Function} {settings : Settings} {oracle : Oracle} {layout : Layout} {s : Splicer}
  {i i' : Interpreter} {block : Block} {index : Nat} {a b : State}

/-! ## Runs -/

/-- If a watched run ends, the guarded function ends with it. -/
theorem run_agrees (h : Guarding f settings oracle layout s i i')
    (hm : s.Matches f layout block index a b) {budget more : Nat}
    (hended : a.watch (i.code f) (f.refuses settings oracle) budget ≠ .unfinished)
    (hle : 11 * budget + 1 ≤ more) (limit : Nat) :
    Watched.Agrees s.function s.trap layout.home
      (a.watch (i.code f) (f.refuses settings oracle) budget)
      (b.run (i'.code s.function) limit more) := by
  induction budget generalizing block index a b more with
  | zero => exact absurd rfl hended
  | succ budget ih =>
    have hkeeps := h.keepsUp hm
    rw [State.watch] at hended ⊢
    cases hnext : a.next (i.code f) with
    | error e =>
      obtain ⟨e', he', hrelabel⟩ := hkeeps.failed e hnext
      have hrun : b.run (i'.code s.function) limit more = .error e' := by
        obtain ⟨more, rfl⟩ : ∃ k, more = k + 1 := ⟨more - 1, by omega⟩
        rw [State.run, he']
      rw [hrun]
      exact .failed hrelabel
    | ok progress =>
      cases progress with
      | finished outcome =>
        obtain ⟨outcome', hend, hagrees⟩ := hkeeps.finished outcome hnext
        have hrun : b.run (i'.code s.function) limit more = .ok outcome' := by
          obtain ⟨more, rfl⟩ : ∃ k, more = k + 1 := ⟨more - 1, by omega⟩
          rw [State.run, hend]
        rw [hrun]
        exact hagrees
      | running a' =>
        rw [hnext] at hended
        dsimp only at hended ⊢
        cases hrefused : a.refused? (f.refuses settings oracle) a' with
        | some value =>
          -- Here the watched run stops, and the guarded function gets into the trap block.
          obtain ⟨n, b', outcome, hn, hsteps, hend, hagrees⟩ :=
            hkeeps.refused a' value hnext hrefused
          have hrun : b.run (i'.code s.function) limit more = .ok outcome := by
            obtain ⟨more, rfl⟩ : ∃ k, more = n + (k + 1) := ⟨more - n - 1, by omega⟩
            rw [hsteps.run_add, State.run, hend]
          rw [hrun]
          exact hagrees
        | none =>
          -- Nothing is refused: the states match again, and the induction goes on from there.
          obtain ⟨n, b', block', index', hn, hsteps, hm'⟩ := hkeeps.running a' hnext hrefused
          rw [hrefused] at hended
          obtain ⟨more, rfl⟩ : ∃ k, more = n + 1 + k := ⟨more - (n + 1), by omega⟩
          rw [hsteps.run_add]
          exact ih hm' hended (by omega)

/-- If a watched run is out of steps, so is the guarded function. -/
theorem run_of_watch_eq_unfinished (h : Guarding f settings oracle layout s i i')
    (hm : s.Matches f layout block index a b) {budget fewer : Nat}
    (hunfinished : a.watch (i.code f) (f.refuses settings oracle) budget = .unfinished)
    (hle : fewer ≤ budget) (limit : Nat) :
    b.run (i'.code s.function) limit fewer = .error (.stepLimit limit) := by
  induction budget generalizing block index a b fewer with
  | zero =>
    rw [Nat.le_zero.1 hle]
    rfl
  | succ budget ih =>
    rw [State.watch] at hunfinished
    cases hnext : a.next (i.code f) with
    | error e =>
      rw [hnext] at hunfinished
      cases hunfinished
    | ok progress =>
      rw [hnext] at hunfinished
      cases progress with
      | finished outcome => cases hunfinished
      | running a' =>
        dsimp only at hunfinished
        cases hrefused : a.refused? (f.refuses settings oracle) a' with
        | some value =>
          rw [hrefused] at hunfinished
          cases hunfinished
        | none =>
          rw [hrefused] at hunfinished
          obtain ⟨n, b', block', index', -, hsteps, hm'⟩ := (h.keepsUp hm).running a' hnext hrefused
          -- The limit is reached on the way to the next matching state, or behind it.
          rcases Nat.le_total fewer (n + 1) with hfew | hmany
          · exact hsteps.run_of_le limit hfew
          · obtain ⟨rest, rfl⟩ : ∃ k, fewer = n + 1 + k := ⟨fewer - (n + 1), by omega⟩
            rw [hsteps.run_add]
            exact ih hm' hunfinished (by omega)

/-- The guarded function starts where the function starts. -/
theorem start (h : Guarding f settings oracle layout s i i') (args : List Nat) :
    (∀ e, i.start f args = .error e →
      ∃ e', i'.start s.function args = .error e' ∧ e'.relabel layout.home = e) ∧
    ∀ a, i.start f args = .ok a → ∃ b block index, i'.start s.function args = .ok b ∧
      s.Matches f layout block index a b := by
  have hparams := h.guards.spread.params_eq
  have harguments : Interpreter.arguments s.function args = Interpreter.arguments f args := by
    unfold Interpreter.arguments
    rw [hparams]
  unfold Interpreter.start
  rw [hparams, harguments]
  by_cases harity : f.params.length = args.length
  · rw [if_neg (not_not.2 harity), if_neg (not_not.2 harity)]
    cases hblocks : f.blocks with
    | nil => exact absurd hblocks h.wellFormed.blocks_ne_nil
    | cons entry rest =>
      have hentry : entry ∈ f.blocks := by
        rw [hblocks]
        exact List.mem_cons_self
      have hmem : entry.label ∈ f.labels := Function.mem_labels.2 ⟨entry, hentry, rfl⟩
      -- No phi of the entry knows a block under the empty label.
      have hpred : ∀ label ∈ f.labels, s.arrival f entry.label label = "" ↔ label = "" := by
        intro label hlabel
        have hne : label ≠ "" := fun heq => h.wellFormed.empty_not_mem (heq ▸ hlabel)
        refine ⟨fun heq => ?_, fun heq => absurd heq hne⟩
        unfold Splicer.arrival at heq
        split_ifs at heq
        · exact absurd (heq ▸ h.guards.tracks.cursor_mem hlabel) h.guards.spread.empty_not_mem
        · exact heq
      have horigin : (none : Option String).map layout.home = none := rfl
      obtain ⟨first, hfirst, hfirstLabel, hfail, henter⟩ := h.enter hentry (fun _ _ => rfl)
        (Interpreter.arguments_typed h.wellFormed.toTyped) horigin hpred
      obtain ⟨more, hmore⟩ := h.guards.spread.labels_prefix
      cases hpieces : s.function.blocks with
      | nil =>
        rw [hpieces] at hfirst
        simp at hfirst
      | cons piece pieces =>
        -- New labels come behind those of the function, so the first block is the first piece.
        have hpiece : piece = first := by
          refine Function.eq_of_label_eq h.guards.linked.labels_nodup ?_ hfirst ?_
          · rw [hpieces]
            exact List.mem_cons_self
          · unfold Function.labels at hmore
            rw [hblocks, hpieces, List.map_cons, List.map_cons, List.cons_append] at hmore
            rw [hfirstLabel]
            exact (List.cons.inj hmore).1.symm
        dsimp only
        rw [hpiece]
        refine ⟨hfail, fun a ha => ?_⟩
        obtain ⟨b, hb, hm⟩ := henter a ha
        exact ⟨b, entry, _, hb, hm⟩
  · rw [if_pos harity, if_pos harity]
    exact ⟨fun e he => ⟨_, rfl, Except.error.inj he⟩, fun a ha => nomatch ha⟩

/-! ## Watched runs -/

/-- If the watched run of the function ends, the run of the guarded function ends with it, with
eleven times the steps and one more. -/
theorem interpreter_agrees (h : Guarding f settings oracle layout s i i') {args : List Nat}
    (hended : i.watch f (f.refuses settings oracle) args ≠ .unfinished)
    (hle : 11 * i.stepLimit + 1 ≤ i'.stepLimit) :
    Watched.Agrees s.function s.trap layout.home (i.watch f (f.refuses settings oracle) args)
      (i'.run s.function args) := by
  obtain ⟨hfail, hstart⟩ := h.start args
  unfold Interpreter.watch at hended ⊢
  unfold Interpreter.run
  cases hcase : i.start f args with
  | error e =>
    obtain ⟨e', he', hrelabel⟩ := hfail e hcase
    rw [he']
    exact .failed hrelabel
  | ok a =>
    obtain ⟨b, block, index, hb, hm⟩ := hstart a hcase
    rw [hcase] at hended
    rw [hb]
    exact h.run_agrees hm hended hle i'.stepLimit

/-- If the watched run of the function is out of steps, so is the run of the guarded function. -/
theorem interpreter_unfinished (h : Guarding f settings oracle layout s i i') {args : List Nat}
    (hunfinished : i.watch f (f.refuses settings oracle) args = .unfinished)
    (hle : i'.stepLimit ≤ i.stepLimit) :
    i'.run s.function args = .error (.stepLimit i'.stepLimit) := by
  obtain ⟨-, hstart⟩ := h.start args
  unfold Interpreter.watch at hunfinished
  unfold Interpreter.run
  cases hcase : i.start f args with
  | error e =>
    rw [hcase] at hunfinished
    cases hunfinished
  | ok a =>
    obtain ⟨b, block, index, hb, hm⟩ := hstart a hcase
    rw [hcase] at hunfinished
    rw [hb]
    exact h.run_of_watch_eq_unfinished hm hunfinished hle i'.stepLimit

end Guarding

/-! ## Guarding a function -/

/-- The interpreter for functions of a program, with a limit. -/
def Program.interpreter (p : Program) (limit : Nat) : Interpreter :=
  (Interpreter.forProgram p).withStepLimit limit

/-- With the trap function declared, the callees that trap are those before and the trap function.
-/
theorem Program.traps_declareExtern {p : Program} (h : p.extern? trapCallee = none) (limit : Nat)
    (callee : String) : callee ∈ ((p.declareExtern trapExtern).interpreter limit).traps ↔
      callee ∈ (p.interpreter limit).traps ∨ callee = trapCallee := by
  have hexterns : (p.declareExtern trapExtern).externs = p.externs ++ [trapExtern] := by
    unfold Program.declareExtern
    rw [show p.extern? trapExtern.name = none from h]
    rfl
  show callee ∈ (((p.declareExtern trapExtern).externs.filter (·.noReturn)).map (·.name)) ↔ _
  rw [hexterns, List.filter_append, List.map_append, List.mem_append]
  exact or_congr_right List.mem_singleton

/-- A guarded function does what the function does, up to the first value that the oracle's claims
refuse, and traps in its trap block there.

`watch` follows the run of the function and stops at the first value that is refused. Where it ends,
the guarded function ends, in the same way up to labels of pieces: returned values, errors and traps
are those of the function as long as no value is refused, and a refused value leads into the trap
block from a piece of its block. One step of the function takes eleven steps at most. And whenever
the guarded function ends within a limit, the watched run has ended within that limit. -/
theorem Session.instrument_refines {session : Session} {settings : Settings} {source : FactSource}
    {p : Program} {f : Function} {oracle : Oracle} {report : Report} (hf : f.WellFormed)
    (hdeclared : p.extern? trapCallee = none)
    (hcalled : ∀ block ∈ f.blocks, ∀ instr ∈ block.instrs, instr.callee? ≠ some trapCallee)
    (hskips : settings.skips f.name = false) (hsource : source f = .ok oracle)
    (hfits : oracle.Fits f) (h : (session.instrument settings source f).result = .ok report) :
    ∃ trap home, trap ∉ f.labels ∧
      trapBlock trap ∈ (session.instrument settings source f).subject.blocks ∧
      (∀ label ∈ f.labels, home label = label) ∧
      ∀ args limit,
        ((p.interpreter limit).watch f (f.refuses settings oracle) args ≠ .unfinished →
          ∀ more, 11 * limit + 1 ≤ more →
            Watched.Agrees (session.instrument settings source f).subject trap home
              ((p.interpreter limit).watch f (f.refuses settings oracle) args)
              (((p.declareExtern trapExtern).interpreter more).run
                (session.instrument settings source f).subject args)) ∧
        (((p.declareExtern trapExtern).interpreter limit).run
            (session.instrument settings source f).subject args ≠ .error (.stepLimit limit) →
          Watched.Agrees (session.instrument settings source f).subject trap home
            ((p.interpreter limit).watch f (f.refuses settings oracle) args)
            (((p.declareExtern trapExtern).interpreter limit).run
              (session.instrument settings source f).subject args)) ∧
        (∀ result,
          (p.interpreter limit).watch f (f.refuses settings oracle) args = .ended result →
            (p.interpreter limit).run f args = result) ∧
        ((p.interpreter limit).watch f (f.refuses settings oracle) args = .unfinished →
          (p.interpreter limit).run f args = .error (.stepLimit limit)) := by
  rcases instrument_eq_ok hf.labels_nodup h with ⟨hskipped, -⟩
    | ⟨-, oracle', s, hsource', hsurveyed, hs, hsubject⟩
  · rw [hskips] at hskipped
    cases hskipped
  cases hsource.symm.trans hsource'
  have hawaits := Splicer.awaits_start hf.labels_nodup oracle
  rw [← settings.map_fst_calls (f.survey oracle).findings] at hawaits
  obtain ⟨layout, hguards⟩ := Splicer.exists_guards hf hawaits hs
  have hguarding : ∀ limit more, Guarding f settings oracle layout s (p.interpreter limit)
      ((p.declareExtern trapExtern).interpreter more) := fun limit more =>
    ⟨hf, hfits, hsurveyed, hguards, Program.traps_declareExtern hdeclared limit, hcalled⟩
  rw [hsubject]
  refine ⟨s.trap, layout.home, hguards.spread.trap_not_mem, hguards.tracks.trap_mem,
    hguards.spread.home_of_mem, fun args limit => ⟨?_, ?_, ?_, ?_⟩⟩
  · exact fun hended more hle => (hguarding limit more).interpreter_agrees hended hle
  · intro hended
    have hwatched : (p.interpreter limit).watch f (f.refuses settings oracle) args ≠ .unfinished :=
      fun hunfinished => hended ((hguarding limit limit).interpreter_unfinished hunfinished
        (Nat.le_refl limit))
    have hle : limit ≤ 11 * limit + 1 := by omega
    -- The run has ended, so it ends alike under the limit that the simulation asks for.
    have hmore : ((p.declareExtern trapExtern).interpreter (11 * limit + 1)).run s.function args
        = ((p.declareExtern trapExtern).interpreter limit).run s.function args :=
      Interpreter.run_withStepLimit hle hended
    rw [← hmore]
    exact (hguarding limit (11 * limit + 1)).interpreter_agrees hwatched (Nat.le_refl _)
  · exact fun result => Interpreter.run_of_watch_eq_ended
  · exact Interpreter.run_of_watch_eq_unfinished

/-- The countdown from zero counts below zero, which its claim refuses, and the guarded countdown
traps there. -/
theorem Session.instrument_refines_countdown :
    countdown.WellFormed ∧ countdownOracle.Fits countdown ∧
    ((Program.mk [countdown] []).interpreter 2).watch countdown
      (countdown.refuses Settings.default countdownOracle) [0] = .violated "loop" "d" ∧
    ∃ trap label, (((Program.mk [countdown] []).declareExtern trapExtern).interpreter 23).run
      (start.instrument Settings.default (fun _ => .ok countdownOracle) countdown).subject [0]
        = .ok (.trapped trap (some label)) := by
  have hwatched : ((Program.mk [countdown] []).interpreter 2).watch countdown
      (countdown.refuses Settings.default countdownOracle) [0] = .violated "loop" "d" := rfl
  have hcalled : ∀ block ∈ countdown.blocks, ∀ instr ∈ block.instrs,
      instr.callee? ≠ some trapCallee := by decide
  refine ⟨countdown_wellFormed, countdownOracle_fits, hwatched, ?_⟩
  obtain ⟨trap, home, -, -, -, hruns⟩ := instrument_refines (p := ⟨[countdown], []⟩)
    countdown_wellFormed rfl hcalled rfl rfl countdownOracle_fits
    (rfl : (start.instrument Settings.default (fun _ => .ok countdownOracle) countdown).result
      = .ok _)
  obtain ⟨hagrees, -⟩ := hruns [0] 2
  rw [hwatched] at hagrees
  have hend := hagrees (by simp) 23 (by decide)
  generalize ((Program.declareExtern _ _).interpreter 23).run _ [0] = result at hend ⊢
  cases hend
  exact ⟨_, _, rfl⟩

end FactGuard
