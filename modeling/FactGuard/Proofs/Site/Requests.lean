import FactGuard.Proofs.Site.Report
import FactGuard.Proofs.Site.Tracking

/-!
# Requests in any order

A splicer may be asked for guards in any order, also again and also for instructions that are not
there. It takes those that it can put in, and what it answers can be told from the function that it
started from and the requests that it has accepted so far (`Splicer.requests_relocate`): it refuses
what does not come behind all instructions of the same block that it has guarded, and what the
original block does not have at the index. Requests that it does not accept leave no trace.

The invariant is `Splicer.Serves`. The splicer keeps track of all blocks, and the base of a block's
cursor is one more than the greatest accepted index.
-/

namespace FactGuard

namespace Splicer

/-! ## Serving requests -/

/-- What a splicer says to a request. -/
def answer (s : Splicer) (call : Finding × Condition) : Except Failure SiteKind :=
  (s.guard call.1 call.2).map Prod.snd

/-- The splicer after a request, which is the same if it fails. -/
def after (s : Splicer) (call : Finding × Condition) : Splicer :=
  match s.guard call.1 call.2 with
  | .ok (next, _) => next
  | .error _ => s

/-- The request puts in a guard. -/
def accepts (s : Splicer) (call : Finding × Condition) : Bool :=
  match s.answer call with
  | .ok .skipped => false
  | .ok _ => true
  | .error _ => false

/-- The splicer after requests, one after another. -/
def serve (s : Splicer) (calls : List (Finding × Condition)) : Splicer := calls.foldl after s

/-- What a splicer says to requests, one after another. -/
def answers (s : Splicer) : List (Finding × Condition) → List (Except Failure SiteKind)
  | [] => []
  | call :: rest => s.answer call :: (s.after call).answers rest

/-- Those of the requests that put in a guard. -/
def accepted (s : Splicer) : List (Finding × Condition) → List (Finding × Condition)
  | [] => []
  | call :: rest =>
    if s.accepts call then call :: (s.after call).accepted rest else (s.after call).accepted rest

end Splicer

/-- One more than the greatest index in a block that one of the requests is about, and zero if none
is about the block. -/
def nextIndex (calls : List (Finding × Condition)) (block : String) : Nat :=
  ((calls.filter fun call => call.1.block = block).map fun call => call.1.index + 1).foldl max 0

/-- The cut guards the instruction at an index of a block, whose instructions from `start` on were
in one piece. They stay in front of the cut up to this one, with the instructions of the guard
behind them, and those that follow are behind the cut, in a part that ends as the block does. Only
the labels in phis may be others than in the block. -/
structure Cut.GuardsAt (c : Cut) (block : Block) (start index : Nat) : Prop where
  instrs_head : c.head.instrs.map Instr.unlabelled
    = ((block.instrs.take (index + 1)).drop start ++ c.extra).map Instr.unlabelled
  instrs_tail : c.tail.instrs.map Instr.unlabelled
    = (block.instrs.drop (index + 1)).map Instr.unlabelled
  terminator_tail : c.tail.terminator = block.terminator

namespace Splicer

variable {f : Function} {s : Splicer} {call : Finding × Condition}
  {calls done : List (Finding × Condition)} {block : Block}

theorem nextIndex_append_singleton (calls : List (Finding × Condition)) (call : Finding × Condition)
    (block : String) :
    nextIndex (calls ++ [call]) block
      = if call.1.block = block then max (nextIndex calls block) (call.1.index + 1)
        else nextIndex calls block := by
  unfold nextIndex
  split_ifs with h <;> simp [List.filter_append, h]

/-! ## One request -/

/-- What is answered to a request with nothing to check. -/
theorem answer_of_vacuous (h : call.2.isVacuous = true) : s.answer call = .ok .skipped := by
  rw [answer, guard, if_pos h]
  rfl

/-- A request fails if its instruction cannot be located. -/
theorem answer_of_locate_eq_error {failure : Failure} (hvacuous : call.2.isVacuous = false)
    (hlocate : s.locate call.1 = .error failure) : s.answer call = .error failure := by
  rw [answer, guard, if_neg (by simp [hvacuous]), hlocate]
  rfl

/-- A request puts in a guard if its instruction is located. -/
theorem guard_of_locate_eq_ok {place : Nat × Nat} (hvacuous : call.2.isVacuous = false)
    (hlocate : s.locate call.1 = .ok place) :
    s.guard call.1 call.2 = .ok ((s.insert call.1 call.2 place.1 place.2).1, call.2.kind) := by
  have hguard : s.guard call.1 call.2 = .ok ((s.insert call.1 call.2 place.1 place.2).1,
      (s.insert call.1 call.2 place.1 place.2).2) := by
    rw [guard, if_neg (by simp [hvacuous]), hlocate]
    rfl
  rw [hguard, kind_eq_of_guard hguard]

/-- The requests that are not accepted are those that are skipped or fail. -/
theorem accepts_eq_false_iff :
    s.accepts call = false ↔
      s.answer call = .ok .skipped ∨ ∃ failure, s.answer call = .error failure := by
  unfold accepts
  cases s.answer call with
  | error failure => simp
  | ok kind => cases kind <;> simp

/-- A request that is not accepted leaves the splicer as it is. -/
theorem after_eq_self (h : s.accepts call = false) : s.after call = s := by
  rw [accepts_eq_false_iff, answer] at h
  unfold after
  cases hguard : s.guard call.1 call.2 with
  | error failure => rfl
  | ok result =>
    obtain ⟨next, kind⟩ := result
    rw [hguard] at h
    have hkind : kind = .skipped := by simpa [Except.map] using h
    have hvacuous : call.2.isVacuous = true :=
      Condition.kind_eq_skipped_iff.1 ((kind_eq_of_guard hguard).symm.trans hkind)
    rw [guard, if_pos hvacuous] at hguard
    cases hguard
    rfl

/-- A request that is accepted cuts the block that holds the rest of the finding's block. -/
theorem exists_inserts (hs : s.function.labels.Nodup) (h : s.accepts call = true) :
    ∃ host c, Inserts s call.1 call.2 (s.after call) host c := by
  cases hguard : s.guard call.1 call.2 with
  | error failure =>
    rw [accepts, answer, hguard] at h
    cases h
  | ok result =>
    obtain ⟨next, kind⟩ := result
    have hafter : s.after call = next := by rw [after, hguard]
    rcases guard_eq_ok hs hguard with ⟨-, -, rfl⟩ | ⟨-, -, hinserts⟩
    · rw [accepts, answer, hguard] at h
      cases h
    · rwa [hafter]

/-- What a cut does to the block that it cuts, in terms of the block that the splicer started from.
-/
theorem Inserts.guardsAt {s' : Splicer} {finding : Finding} {condition : Condition} {host : Nat}
    {c : Cut} (h : Inserts s finding condition s' host c) (hs : Tracks f s)
    (hblock : block ∈ f.blocks) (hlabel : block.label = finding.block) :
    c.GuardsAt block (s.cursor finding.block).base finding.index := by
  obtain ⟨hinstrs, hterm⟩ := h.block_eq hs hblock hlabel
  have hle := h.base_le
  have hcount := h.count_eq
  refine ⟨?_, ?_, ?_⟩
  · have hfront : c.front.instrs.map Instr.unlabelled
        = ((block.instrs.take (finding.index + 1)).drop (s.cursor finding.block).base).map
            Instr.unlabelled := by
      calc c.front.instrs.map Instr.unlabelled
          = ((block.instrs.map Instr.unlabelled).drop (s.cursor finding.block).base).take c.count :=
            by rw [Cut.front, List.map_take, hinstrs]
        _ = ((block.instrs.map Instr.unlabelled).take (finding.index + 1)).drop
              (s.cursor finding.block).base := by
            rw [List.drop_take]
            congr 1
            omega
        _ = _ := by rw [← List.map_take, ← List.map_drop]
    rw [Cut.head, List.map_append, Cut.map_unlabelled_rewire, hfront, ← List.map_append]
  · rw [Cut.tail, Cut.map_unlabelled_rewire, List.map_drop, hinstrs, List.drop_drop, List.map_drop]
    congr 1
    omega
  · rw [Cut.terminator_tail, hterm]

/-! ## Many requests -/

/-- The splicer keeps track of the blocks of a function, and the cursors stand behind the last
instructions that accepted requests are about. -/
structure Serves (f : Function) (accepted : List (Finding × Condition)) (s : Splicer) : Prop where
  tracks : Tracks f s
  base_eq : ∀ block, (s.cursor block).base = nextIndex accepted block

theorem serves_start (hf : f.labels.Nodup) : Serves f [] (start f) where
  tracks := tracks_start hf
  base_eq := fun _ => rfl

/-- One request more. If it is accepted, its index is not below the next one of its block, and so it
is the greatest index accepted there. -/
theorem Serves.after (h : Serves f calls s) (hcall : call.1.block ∈ f.labels) :
    Serves f (if s.accepts call then calls ++ [call] else calls) (s.after call) := by
  cases haccepts : s.accepts call with
  | false =>
    rw [after_eq_self haccepts]
    exact h
  | true =>
    obtain ⟨host, c, hinserts⟩ := exists_inserts h.tracks.labels_nodup haccepts
    refine ⟨hinserts.tracks h.tracks hcall, fun block => ?_⟩
    have hle := hinserts.base_le
    rw [h.base_eq] at hle
    rw [hinserts.cursor_eq, if_pos rfl, nextIndex_append_singleton]
    split_ifs with hblock
    · rw [← hblock, Nat.max_eq_right (Nat.le_succ_of_le hle)]
    · exact h.base_eq block

/-- The invariant after any requests about blocks of the function. -/
theorem Serves.serve (h : Serves f done s) (hcalls : ∀ call ∈ calls, call.1.block ∈ f.labels) :
    Serves f (done ++ s.accepted calls) (s.serve calls) := by
  induction calls generalizing s done with
  | nil =>
    rw [accepted, List.append_nil]
    exact h
  | cons call rest ih =>
    have hstep := ih (h.after (hcalls call (by simp)))
      fun other hother => hcalls other (List.mem_cons_of_mem _ hother)
    rw [accepted]
    split_ifs at hstep ⊢ with haccepts
    · rwa [List.append_assoc] at hstep
    · exact hstep

theorem serve_append (s : Splicer) (calls later : List (Finding × Condition)) :
    s.serve (calls ++ later) = (s.serve calls).serve later := List.foldl_append

theorem answers_append (s : Splicer) (calls later : List (Finding × Condition)) :
    s.answers (calls ++ later) = s.answers calls ++ (s.serve calls).answers later := by
  induction calls generalizing s with
  | nil => rfl
  | cons call rest ih =>
    rw [List.cons_append, answers, ih]
    rfl

theorem length_answers (s : Splicer) (calls : List (Finding × Condition)) :
    (s.answers calls).length = calls.length := by
  induction calls generalizing s with
  | nil => rfl
  | cons call rest ih => rw [answers, List.length_cons, ih, List.length_cons]

/-- A request that is not accepted leaves no trace: without it the splicer becomes the same and says
the same to all others. -/
theorem serve_answers_skip (h : (s.serve done).accepts call = false)
    (later : List (Finding × Condition)) :
    s.serve (done ++ call :: later) = s.serve (done ++ later) ∧
      (s.answers (done ++ call :: later)).eraseIdx done.length = s.answers (done ++ later) := by
  have hafter := after_eq_self h
  constructor
  · rw [serve_append, serve_append]
    show ((s.serve done).after call).serve later = _
    rw [hafter]
  · rw [answers_append, answers_append, answers, hafter, ← s.length_answers done,
      List.eraseIdx_append_of_length_le (Nat.le_refl _), Nat.sub_self]
    rfl

/-- What is said to a request about a block of the function, after any requests about its blocks.
Nothing is done where there is nothing to check. Else the accepted requests about the block tell
which index may come next. Below it the request is out of order, and from there on it is accepted
just if the block has an instruction at the index that defines the value, which is the one that gets
the guard. A request that is not accepted leaves no trace. -/
theorem requests_relocate (hf : f.labels.Nodup) (hdone : ∀ other ∈ done, other.1.block ∈ f.labels)
    (call : Finding × Condition) (hblock : block ∈ f.blocks) (hlabel : block.label = call.1.block) :
    let s := (start f).serve done
    let next := nextIndex ((start f).accepted done) call.1.block
    let defines := block.instrs[call.1.index]?.bind Instr.dest? = some call.1.value
    (call.2.isVacuous = true → s.answer call = .ok .skipped) ∧
    (call.2.isVacuous = false →
      (call.1.index < next →
        s.answer call = .error (.outOfOrderFact call.1.value call.1.block call.1.index)) ∧
      (next ≤ call.1.index → ¬ defines →
        ∃ label, s.answer call = .error (.missingSuccessor call.1.value label)) ∧
      (next ≤ call.1.index → defines → s.answer call = .ok call.2.kind ∧ call.2.kind ≠ .skipped ∧
        ∃ host c, Inserts s call.1 call.2 (s.after call) host c ∧
          c.GuardsAt block next call.1.index)) ∧
    (s.answer call = .ok .skipped ∨ (∃ failure, s.answer call = .error failure) → ∀ later,
      (start f).serve (done ++ call :: later) = (start f).serve (done ++ later) ∧
      ((start f).answers (done ++ call :: later)).eraseIdx done.length
        = (start f).answers (done ++ later)) := by
  intro s next defines
  -- All that matters of the requests so far is which were accepted: they tell where cursors stand.
  have hserves : Serves f ((start f).accepted done) s := (serves_start hf).serve hdone
  have hbase : (s.cursor call.1.block).base = next := hserves.base_eq call.1.block
  refine ⟨answer_of_vacuous, fun hvacuous => ⟨fun hlt => ?_, fun hle hmissing => ?_,
    fun hle hdefines => ?_⟩, fun hrefused => serve_answers_skip (accepts_eq_false_iff.2 hrefused)⟩
  · -- The block was cut behind the instruction, or behind a later one.
    refine answer_of_locate_eq_error hvacuous ?_
    rw [locate, if_pos (hbase ▸ hlt)]
    rfl
  · obtain ⟨host, hlocate⟩ := hserves.tracks.locate_eq hblock hlabel (hbase ▸ hle)
    rw [if_neg hmissing] at hlocate
    exact ⟨_, answer_of_locate_eq_error hvacuous hlocate⟩
  · obtain ⟨host, hlocate⟩ := hserves.tracks.locate_eq hblock hlabel (hbase ▸ hle)
    rw [if_pos hdefines] at hlocate
    have hguard := guard_of_locate_eq_ok hvacuous hlocate
    have hanswer : s.answer call = .ok call.2.kind := by
      rw [answer, hguard]
      rfl
    have hkind : call.2.kind ≠ .skipped := fun hskipped => by
      rw [Condition.kind_eq_skipped_iff.1 hskipped] at hvacuous
      cases hvacuous
    -- So the request is accepted, and the step it makes is a cut.
    have haccepts : s.accepts call = true := by
      rw [← Bool.not_eq_false, accepts_eq_false_iff, hanswer]
      rintro (hskipped | ⟨failure, hfailure⟩)
      · exact hkind (Except.ok.inj hskipped)
      · cases hfailure
    obtain ⟨host, c, hinserts⟩ := exists_inserts hserves.tracks.labels_nodup haccepts
    have hguards := hinserts.guardsAt hserves.tracks hblock hlabel
    rw [hbase] at hguards
    exact ⟨hanswer, hkind, host, c, hinserts, hguards⟩

/-- The countdown with a guard behind the second instruction of its loop: the first one comes too
late then, the third one does not, and there is no fourth. -/
theorem requests_relocate_countdown :
    let request := fun value index =>
      ((⟨value, "loop", index, .u8, .full 8, .unknown 8, ""⟩, .always) : Finding × Condition)
    let s := (start countdown).serve [request "d" 1]
    countdown.labels.Nodup ∧ "loop" ∈ countdown.labels ∧
      s.answer (request "i" 0) = .error (.outOfOrderFact "i" "loop" 0) ∧
      s.answer (request "more" 2) = .ok .unconditional ∧
      ∃ label, s.answer (request "more" 3) = .error (.missingSuccessor "more" label) := by
  intro request s
  have hnodup : countdown.labels.Nodup := by decide
  have hloop : "loop" ∈ countdown.labels := by decide
  have hdone : ∀ other ∈ [request "d" 1], other.1.block ∈ countdown.labels := by
    intro other hother
    rw [List.mem_singleton.1 hother]
    exact hloop
  have hnext : nextIndex ((start countdown).accepted [request "d" 1]) "loop" = 2 := by decide
  have hblock : countdown.blocks[1] ∈ countdown.blocks := List.getElem_mem (by decide)
  obtain ⟨-, hlate, -⟩ := requests_relocate hnodup hdone (request "i" 0) hblock rfl
  obtain ⟨-, haccepted, -⟩ := requests_relocate hnodup hdone (request "more" 2) hblock rfl
  obtain ⟨-, hmissing, -⟩ := requests_relocate hnodup hdone (request "more" 3) hblock rfl
  exact ⟨hnodup, hloop, (hlate rfl).1 (by rw [hnext]; decide),
    ((haccepted rfl).2.2 (le_of_eq hnext) rfl).1,
    (hmissing rfl).2.1 (by rw [hnext]; decide) (by decide)⟩

end Splicer

end FactGuard
