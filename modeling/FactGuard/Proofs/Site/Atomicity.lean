import FactGuard.Proofs.Site.Tracking

/-!
# Failures change nothing

A function is guarded by one step for each finding, `Splicer.guardEach`, and no step fails on
findings of a survey that are taken in their order. So guarding a function fails only where its
facts are collected, which is before anything changes (`Session.instrument_error_unchanged`). What
guarding a function can come to is said by `Session.instrument_cases`, and what it does if it
succeeds by `Session.instrument_eq_ok`.
-/

namespace FactGuard

namespace Splicer

/-- Guard the instructions of findings by conditions, one after another. -/
def guardEach (s : Splicer) : List (Finding × Condition) → Except Failure Splicer
  | [] => .ok s
  | call :: rest => do
    let (next, _) ← s.guard call.1 call.2
    next.guardEach rest

variable {f : Function} {s s' : Splicer}

/-- A guard that is awaited is put in, or there is nothing to check. -/
theorem Tracks.exists_guard (hs : Tracks f s) {finding : Finding} {rest : List Finding}
    (hawaits : Awaits f s (finding :: rest)) (condition : Condition) :
    ∃ s' kind, s.guard finding condition = .ok (s', kind) := by
  unfold guard
  split_ifs
  · exact ⟨s, .skipped, rfl⟩
  · obtain ⟨place, hplace⟩ := hs.exists_locate hawaits
    rw [hplace]
    exact ⟨_, _, rfl⟩

/-- A step of guarding keeps track of all blocks, and still awaits the findings that follow. -/
theorem Tracks.guard (hs : Tracks f s) {finding : Finding} {rest : List Finding}
    (hawaits : Awaits f s (finding :: rest)) {condition : Condition} {kind : SiteKind}
    (h : s.guard finding condition = .ok (s', kind)) : Tracks f s' ∧ Awaits f s' rest := by
  rcases guard_eq_ok hs.labels_nodup h with ⟨-, rfl, -⟩ | ⟨-, -, host, c, hc⟩
  · exact ⟨hs, hawaits.sublist (List.sublist_cons_self finding rest)⟩
  · obtain ⟨d, hd, hdescribes⟩ := hawaits.exists_definition finding (by simp)
    have hfinding : finding.block ∈ f.labels := by
      rw [hdescribes.block_eq]
      exact Function.mem_labels_of_mem_definitions hd
    exact ⟨hc.tracks hs hfinding, hc.awaits hawaits⟩

/-- Guarding awaited findings does not fail. -/
theorem Tracks.exists_guardEach {calls : List (Finding × Condition)} (hs : Tracks f s)
    (hawaits : Awaits f s (calls.map Prod.fst)) : ∃ s', s.guardEach calls = .ok s' := by
  induction calls generalizing s with
  | nil => exact ⟨s, rfl⟩
  | cons call rest ih =>
    obtain ⟨next, kind, hnext⟩ := hs.exists_guard hawaits call.2
    obtain ⟨hs', hawaits'⟩ := hs.guard hawaits hnext
    obtain ⟨last, hlast⟩ := ih hs' hawaits'
    exact ⟨last, by rw [guardEach, hnext]; exact hlast⟩

/-- What is kept by every guard, and by every step that puts in none, guarding awaited findings
keeps. It may tell of the findings that are done. -/
theorem Tracks.guardEach_induction {P : List (Finding × Condition) → Splicer → Prop}
    {calls : List (Finding × Condition)} (hs : Tracks f s) (done : List (Finding × Condition))
    (hawaits : Awaits f s (calls.map Prod.fst)) (h : s.guardEach calls = .ok s') (hP : P done s)
    (skip : ∀ done t call, call ∈ calls → call.2.isVacuous = true → P done t → P (done ++ [call]) t)
    (step : ∀ done t t' call host c, call ∈ calls → call.2.isVacuous = false → Tracks f t →
      Inserts t call.1 call.2 t' host c → P done t → P (done ++ [call]) t') :
    P (done ++ calls) s' := by
  -- By induction on the calls: what was awaited of the rest still is, wherever the guard was put.
  induction calls generalizing done s with
  | nil =>
    cases h
    rwa [List.append_nil]
  | cons call rest ih =>
    obtain ⟨next, kind, hnext⟩ := hs.exists_guard hawaits call.2
    obtain ⟨hs', hawaits'⟩ := hs.guard hawaits hnext
    rw [guardEach, hnext] at h
    rw [List.append_cons]
    refine ih hs' _ hawaits' h ?_
      (fun done t other hother => skip done t other (List.mem_cons_of_mem _ hother))
      (fun done t t' other host c hother =>
        step done t t' other host c (List.mem_cons_of_mem _ hother))
    rcases guard_eq_ok hs.labels_nodup hnext with ⟨hvacuous, rfl, -⟩ | ⟨hvacuous, -, host, c, hc⟩
    · exact skip done next call (by simp) hvacuous hP
    · exact step done s next call host c (by simp) hvacuous hs hc hP

end Splicer

/-! ## Guarding a function -/

/-- The findings of a survey with the conditions that the settings ask for. -/
def Settings.calls (settings : Settings) (findings : List Finding) : List (Finding × Condition) :=
  findings.map fun finding => (finding, settings.condition finding.range finding.known)

theorem Settings.map_fst_calls (settings : Settings) (findings : List Finding) :
    (settings.calls findings).map Prod.fst = findings := by
  simp [calls, Function.comp_def]

/-- Guarding all findings is guarding each of them, and the failure is that of the first guard that
fails. -/
theorem Splicer.guardAll_eq (settings : Settings) (s : Splicer) (findings : List Finding) :
    s.guardEach (settings.calls findings)
      = match (s.guardAll settings findings).failure? with
        | none => .ok (s.guardAll settings findings).splicer
        | some failure => .error failure := by
  induction findings generalizing s with
  | nil => rfl
  | cons finding rest ih =>
    unfold guardAll
    show s.guardEach
      ((finding, settings.condition finding.range finding.known) :: settings.calls rest) = _
    rw [guardEach]
    cases h : s.guard finding (settings.condition finding.range finding.known) with
    | error failure => rfl
    | ok result => exact ih result.1

namespace Session

variable {f : Function}

/-- What guarding a function does, whatever the session: the settings skip the function, or its
source or its survey fails, or it is guarded by what was found. -/
theorem instrument_cases (settings : Settings) (source : FactSource) (f : Function) :
    (settings.skips f.name = true ∧ ∀ session : Session,
        session.instrument settings source f
          = ⟨f, session.log [.skipped f.name], .ok Report.zero⟩) ∨
      settings.skips f.name = false ∧
        ((∃ failure, source f = .error failure ∧ ∀ session : Session,
            session.instrument settings source f = ⟨f, session, .error failure⟩) ∨
          ∃ oracle, source f = .ok oracle ∧
            ((∃ failure, (f.survey oracle).failure? = some failure ∧ ∀ session : Session,
                session.instrument settings source f
                  = ⟨f, session.log (f.survey oracle).events, .error failure⟩) ∨
              ((f.survey oracle).failure? = none ∧ ∀ session : Session,
                session.instrument settings source f
                  = session.splice settings f (f.survey oracle)))) := by
  unfold instrument
  cases hskip : settings.skips f.name with
  | true => exact .inl ⟨rfl, fun _ => rfl⟩
  | false =>
    refine .inr ⟨rfl, ?_⟩
    cases hsource : source f with
    | error failure => exact .inl ⟨failure, rfl, fun _ => rfl⟩
    | ok oracle =>
      refine .inr ⟨oracle, rfl, ?_⟩
      dsimp only
      cases hsurvey : (f.survey oracle).failure? with
      | some failure => exact .inl ⟨failure, rfl, fun _ => rfl⟩
      | none => exact .inr ⟨rfl, fun _ => rfl⟩

/-- Guarding a function by the findings of a survey does not fail. -/
theorem splice_eq (session : Session) (settings : Settings) (hf : f.labels.Nodup)
    (oracle : Oracle) : ∃ s report,
      (Splicer.start f).guardEach (settings.calls (f.survey oracle).findings) = .ok s ∧
      (session.splice settings f (f.survey oracle)).subject = s.function ∧
      (session.splice settings f (f.survey oracle)).result = .ok report := by
  have hawaits := Splicer.awaits_start hf oracle
  rw [← settings.map_fst_calls (f.survey oracle).findings] at hawaits
  obtain ⟨s, hs⟩ := (Splicer.tracks_start hf).exists_guardEach hawaits
  have hall := Splicer.guardAll_eq settings (Splicer.start f) (f.survey oracle).findings
  rw [hs] at hall
  unfold splice
  dsimp only
  cases hfailure : ((Splicer.start f).guardAll settings (f.survey oracle).findings).failure? with
  | some failure =>
    rw [hfailure] at hall
    cases hall
  | none =>
    rw [hfailure] at hall
    exact ⟨s, _, hs, congrArg Splicer.function (Except.ok.inj hall).symm, rfl⟩

/-- What guarding a function does if it does not fail: nothing if the settings skip it, and else it
guards the findings of a survey that went through. -/
theorem instrument_eq_ok {session : Session} {settings : Settings} {source : FactSource}
    {report : Report} (hf : f.labels.Nodup)
    (h : (session.instrument settings source f).result = .ok report) :
    (settings.skips f.name = true ∧ (session.instrument settings source f).subject = f) ∨
      (settings.skips f.name = false ∧ ∃ oracle s, source f = .ok oracle ∧
        (f.survey oracle).failure? = none ∧
        (Splicer.start f).guardEach (settings.calls (f.survey oracle).findings) = .ok s ∧
        (session.instrument settings source f).subject = s.function) := by
  rcases instrument_cases settings source f with ⟨hskip, heq⟩ |
    ⟨hskip, ⟨failure, -, heq⟩ | ⟨oracle, hsource, ⟨failure, -, heq⟩ | ⟨hsurvey, heq⟩⟩⟩
  · exact .inl ⟨hskip, by rw [heq]⟩
  · rw [heq] at h
    cases h
  · rw [heq] at h
    cases h
  · obtain ⟨s, -, hs, hsubject, -⟩ := session.splice_eq settings hf oracle
    exact .inr ⟨hskip, oracle, s, hsource, hsurvey, hs, by rw [heq, hsubject]⟩

/-- A function that cannot be guarded stays as it is, and so do all counters. For once its facts are
collected, guarding them in their order does not fail, whatever is checked and whichever of them are
left out. -/
theorem instrument_error_unchanged (session : Session) (settings : Settings) (source : FactSource)
    (hf : f.labels.Nodup) :
    (∀ failure, (session.instrument settings source f).result = .error failure →
      (session.instrument settings source f).subject = f ∧
      (session.instrument settings source f).session.stats = session.stats ∧
      (session.instrument settings source f).session.total = session.total) ∧
    ∀ oracle calls, (calls.map Prod.fst).Sublist (f.survey oracle).findings →
      ∃ s, (Splicer.start f).guardEach calls = .ok s := by
  constructor
  · intro failure h
    unfold instrument at h ⊢
    split_ifs at h ⊢ with hskip
    cases hsource : source f with
    | error _ => exact ⟨rfl, rfl, rfl⟩
    | ok oracle =>
      rw [hsource] at h
      dsimp only at h ⊢
      cases hfailure : (f.survey oracle).failure? with
      | some _ => exact ⟨rfl, rfl, rfl⟩
      | none =>
        -- Facts that were collected are guarded without failure.
        rw [hfailure] at h
        obtain ⟨_, report, -, -, hresult⟩ := session.splice_eq settings hf oracle
        rw [hresult] at h
        cases h
  · intro oracle calls hsub
    exact (Splicer.tracks_start hf).exists_guardEach ((Splicer.awaits_start hf oracle).sublist hsub)

/-- Claims of a width that no value has leave the countdown as it is. -/
theorem instrument_error_unchanged_countdown :
    countdown.labels.Nodup ∧
    (start.instrument Settings.default
      (fun _ => .ok ⟨fun _ _ => .full 7, fun _ => (.zeros 8, .zeros 8)⟩) countdown).result
        = .error (.rangeWidthMismatch "d" 7 8) ∧
    (start.instrument Settings.default
      (fun _ => .ok ⟨fun _ _ => .full 7, fun _ => (.zeros 8, .zeros 8)⟩) countdown).subject
        = countdown := by
  refine ⟨by decide, rfl, ?_⟩
  exact ((instrument_error_unchanged start Settings.default _ (by decide)).1 _ rfl).1

end Session

end FactGuard
