import FactGuard.Proofs.Claim.Bits
import FactGuard.Proofs.Site.Report

/-!
# Counters and reports account for every value

Functions are guarded one after another by tables over inferred facts, and all of them count into
one session. Some cannot be guarded and some are skipped; these count nothing. The others count
every value of a declared integer type that an instruction defines, phis apart (`Oracle.tally`), so
that the counters end at what they were and the sum over those functions
(`Session.attempts_account`). No more bits are known of a function's values than they have.

A report, on the other hand, counts the findings of one function, which are the values about which
something is known. Each of them is a site or was skipped, and each site is one block more
(`Session.accounts_report`).
-/

namespace FactGuard

/-! ## Counters without a limit -/

namespace Stats

/-- The counts of both. -/
def plus (a b : Stats) : Stats :=
  ⟨a.totalBits + b.totalBits, a.knownBits + b.knownBits, a.intervalBits + b.intervalBits⟩

/-- The counts of all. -/
def sum (counts : List Stats) : Stats := counts.foldr plus zero

/-- The counts are words, so that the counters can hold them. -/
def Fits (stats : Stats) : Prop :=
  stats.totalBits < 2 ^ 64 ∧ stats.knownBits < 2 ^ 64 ∧ stats.intervalBits < 2 ^ 64

instance (stats : Stats) : Decidable stats.Fits := inferInstanceAs (Decidable (_ ∧ _ ∧ _))

/-- No more bits are known than were inspected, by their masks and by their ranges. -/
structure Bounded (stats : Stats) : Prop where
  known_le : stats.knownBits ≤ stats.totalBits
  interval_le : stats.intervalBits ≤ stats.totalBits

variable {a b : Stats}

@[simp] theorem zero_plus (a : Stats) : zero.plus a = a := by simp [plus, zero]

@[simp] theorem plus_zero (a : Stats) : a.plus zero = a := rfl

theorem plus_assoc (a b c : Stats) : (a.plus b).plus c = a.plus (b.plus c) := by
  simp [plus, Nat.add_assoc]

theorem Fits.left (h : (a.plus b).Fits) : a.Fits := by
  obtain ⟨htotal, hknown, hinterval⟩ := h
  exact ⟨Nat.lt_of_le_of_lt (Nat.le_add_right _ _) htotal,
    Nat.lt_of_le_of_lt (Nat.le_add_right _ _) hknown,
    Nat.lt_of_le_of_lt (Nat.le_add_right _ _) hinterval⟩

theorem Fits.right (h : (a.plus b).Fits) : b.Fits := by
  obtain ⟨htotal, hknown, hinterval⟩ := h
  exact ⟨Nat.lt_of_le_of_lt (Nat.le_add_left _ _) htotal,
    Nat.lt_of_le_of_lt (Nat.le_add_left _ _) hknown,
    Nat.lt_of_le_of_lt (Nat.le_add_left _ _) hinterval⟩

/-- The counters do not wrap while they can hold the sums. -/
theorem add_eq_plus (h : (a.plus b).Fits) : a.add b = a.plus b := by
  obtain ⟨htotal, hknown, hinterval⟩ := h
  unfold add
  rw [truncate_of_lt htotal, truncate_of_lt hknown, truncate_of_lt hinterval]
  rfl

theorem bounded_zero : zero.Bounded := ⟨Nat.le_refl _, Nat.le_refl _⟩

theorem Bounded.plus (ha : a.Bounded) (hb : b.Bounded) : (a.plus b).Bounded :=
  ⟨Nat.add_le_add ha.known_le hb.known_le, Nat.add_le_add ha.interval_le hb.interval_le⟩

theorem bounded_sum {counts : List Stats} (h : ∀ stats ∈ counts, stats.Bounded) :
    (sum counts).Bounded := by
  induction counts with
  | nil => exact bounded_zero
  | cons stats rest ih =>
    exact (h stats List.mem_cons_self).plus
      (ih fun other hother => h other (List.mem_cons_of_mem _ hother))

end Stats

/-! ## Counting the values of a function -/

namespace Oracle

/-- How many bits a value has and how many of them the oracle knows, if the value is declared as an
integer. -/
def tally? (oracle : Oracle) (f : Function) (d : Definition) : Option Stats :=
  ((f.valueType? d.value).bind Ty.intWidth?).map fun width =>
    ⟨width, KnownBits.knownCount ⟨(oracle.masks d.value).1, (oracle.masks d.value).2⟩,
      (oracle.range d.value d.block).informationBits⟩

/-- How many bits the values have that instructions of a function define, phis apart, and how many
of them the oracle knows. -/
def tally (oracle : Oracle) (f : Function) : Stats :=
  Stats.sum (f.definitions.filterMap (oracle.tally? f))

variable {oracle : Oracle} {f : Function}

/-- What a finding counts is what the oracle knows about its value. -/
theorem stats_eq_of_finding {d : Definition} {ty : Ty} {width : Nat} {finding : Finding}
    (hty : f.valueType? d.value = some ty) (hwidth : ty.intWidth? = some width)
    (h : oracle.finding d ty width = .ok finding) :
    oracle.tally? f d = some (finding.stats width) := by
  obtain ⟨known, hmasks, -, -, rfl⟩ := finding_eq_ok_iff.1 h
  obtain ⟨-, -, rfl⟩ := KnownBits.ofMasks_eq_ok_iff.1 hmasks
  unfold tally?
  rw [hty, Option.bind_some, hwidth]
  rfl

end Oracle

section Survey

variable {f : Function} {oracle : Oracle} {definitions : List Definition}

/-- A survey that goes through counts every value of integer type. -/
theorem Survey.stats_eq (h : (ofDefinitions f oracle definitions).failure? = none)
    (hfits : (Stats.sum (definitions.filterMap (oracle.tally? f))).Fits) :
    (ofDefinitions f oracle definitions).stats
      = Stats.sum (definitions.filterMap (oracle.tally? f)) := by
  -- By induction on the definitions: one without integer type is counted on neither side.
  induction definitions with
  | nil => rfl
  | cons d rest ih =>
    rcases cons_cases f oracle d rest with ⟨hnone, events, heq⟩ |
      ⟨ty, width, hty, hwidth, ⟨failure, -, heq⟩ | ⟨finding, hfinding, heq⟩⟩
    · have htally : oracle.tally? f d = none := by
        rw [Oracle.tally?, hnone, Option.map_none]
      rw [heq] at h ⊢
      rw [List.filterMap_cons_none htally] at hfits ⊢
      exact ih h hfits
    · rw [heq] at h
      cases h
    · have htally := Oracle.stats_eq_of_finding hty hwidth hfinding
      rw [heq] at h ⊢
      rw [List.filterMap_cons_some htally] at hfits ⊢
      show (finding.stats width).add (ofDefinitions f oracle rest).stats = _
      rw [ih h hfits.right]
      exact Stats.add_eq_plus hfits

/-- If tables over inferred facts do not fail on a function, they know no more bits of its values
than these have. -/
theorem Oracle.bounded_tally (hnames : f.declarations.names.Nodup) {tables : List FactTable}
    (hsource : FactSource.layered tables f = .ok oracle) (h : (f.survey oracle).failure? = none) :
    (oracle.tally f).Bounded := by
  refine Stats.bounded_sum fun stats hstats => ?_
  obtain ⟨d, hd, htally⟩ := List.mem_filterMap.1 hstats
  obtain ⟨width, hwidth, rfl⟩ := Option.map_eq_some_iff.1 htally
  obtain ⟨ty, hty, hint⟩ := Option.bind_eq_some_iff.1 hwidth
  -- The oracle has answered about the value, so its masks do not contradict each other.
  obtain ⟨finding, hfinding⟩ := Survey.exists_finding h hd hty hint
  obtain ⟨known, hmasks, hrange, -, -⟩ := finding_eq_ok_iff.1 hfinding
  obtain ⟨-, hdisjoint, -⟩ := KnownBits.ofMasks_eq_ok_iff.1 hmasks
  obtain ⟨hzero, hone⟩ := FactSource.masks_lt hnames hsource hwidth
  refine ⟨KnownBits.knownCount_le (Ty.isWidth_of_intWidth? hint) hzero hone hdisjoint, ?_⟩
  show (oracle.range d.value d.block).informationBits ≤ width
  rw [← hrange]
  exact ValueRange.informationBits_le _

end Survey

/-! ## Counting findings -/

/-- How the counts of a report on a guarded function depend on each other and on the settings. -/
structure Report.Accounts (report : Report) (settings : Settings) (f g : Function) : Prop where
  facts_eq : report.facts = report.sites + report.skipped
  unconditional_le : report.unconditionalSites ≤ report.sites
  length_blocks : g.blocks.length = f.blocks.length + report.functions + report.sites
  skipped_eq : settings.checkRanges = true → settings.checkKnownBits = true → report.skipped = 0
  sites_eq : settings.checkRanges = false → settings.checkKnownBits = false → report.sites = 0

namespace Settings

variable {settings : Settings}

/-- If everything is checked, there is something to check for a finding that says something. -/
theorem isVacuous_eq_false (hranges : settings.checkRanges = true)
    (hbits : settings.checkKnownBits = true) {finding : Finding}
    (h : finding.isTrivial = false) :
    (settings.condition finding.range finding.known).isVacuous = false := by
  unfold Finding.isTrivial KnownBits.isUnknown at h
  unfold condition
  rw [hranges, hbits]
  cases hempty : finding.range.isEmpty with
  | true => rfl
  | false =>
    cases hfull : finding.range.isFull with
    | false =>
      cases hwrapped : finding.range.isWrapped <;>
        simp [Condition.isVacuous, rangeTerms, hfull, hwrapped]
    | true =>
      by_cases hzero : finding.known.zero.bits = 0 <;>
        simp_all [Condition.isVacuous, rangeTerms, bitTerms]

/-- If nothing is checked, there is nothing to check. -/
theorem isVacuous_of_unchecked (hranges : settings.checkRanges = false)
    (hbits : settings.checkKnownBits = false) (finding : Finding) :
    (settings.condition finding.range finding.known).isVacuous = true := by
  unfold condition
  rw [hranges, hbits]
  rfl

/-- Every finding is a site or was skipped. -/
theorem facts_report (settings : Settings) (findings : List Finding) :
    (settings.report findings).facts
      = (settings.report findings).sites + (settings.report findings).skipped := by
  have hsplit := (settings.calls findings).length_eq_countP_add_countP fun call => !call.2.isVacuous
  have hlength : (settings.calls findings).length = findings.length := List.length_map _
  unfold report guards
  rw [← List.countP_eq_length_filter]
  simpa [hlength] using hsplit

end Settings

namespace Splicer

variable {f : Function} {s : Splicer}

/-- Guarding the findings of a survey makes one block more for each guard, besides the trap block.
-/
theorem length_blocks (hf : f.labels.Nodup) {settings : Settings} {oracle : Oracle}
    (h : (start f).guardEach (settings.calls (f.survey oracle).findings) = .ok s) :
    s.function.blocks.length
      = f.blocks.length + 1 + (settings.guards (f.survey oracle).findings).length := by
  have hawaits := awaits_start hf oracle
  rw [← settings.map_fst_calls (f.survey oracle).findings] at hawaits
  refine (tracks_start hf).guardEach_induction (P := fun done t => t.function.blocks.length
      = f.blocks.length + 1 + (done.filter fun call => !call.2.isVacuous).length)
    [] hawaits h ?_ ?_ ?_
  · exact List.length_append
  · intro done t call _ hvacuous ht
    simpa [hvacuous] using ht
  · intro done t t' call host c _ hvacuous _ hinserts ht
    have hlabels := congrArg List.length hinserts.labels_eq
    simp only [Function.labels, List.length_map, List.length_append, List.length_singleton]
      at hlabels
    simp [hvacuous, hlabels, ht, Nat.add_assoc]

end Splicer

/-- A report accounts for all findings, and for all blocks that the function gained. -/
theorem Session.accounts_report {session : Session} {settings : Settings} {source : FactSource}
    {f : Function} (hf : f.labels.Nodup) {report : Report}
    (h : (session.instrument settings source f).result = .ok report) :
    report.Accounts settings f (session.instrument settings source f).subject := by
  -- A function that is skipped has an empty report. Else the report is that of its findings.
  rcases instrument_eq_ok hf h with ⟨hskip, hsubject⟩ | ⟨hskip, oracle, s, hsource, -, hs, hsubject⟩
  · rcases instrument_report h with ⟨-, rfl⟩ | ⟨hnot, -⟩
    · exact ⟨rfl, Nat.le_refl _, congrArg (·.blocks.length) hsubject, fun _ _ => rfl,
        fun _ _ => rfl⟩
    · rw [hskip] at hnot
      cases hnot
  · rcases instrument_report h with ⟨hnot, -⟩ | ⟨-, oracle', hsource', -, rfl⟩
    · rw [hskip] at hnot
      cases hnot
    rw [hsource] at hsource'
    cases hsource'
    refine ⟨settings.facts_report _, List.countP_le_length, ?_, fun hranges hbits => ?_,
      fun hranges hbits => ?_⟩
    · rw [hsubject]
      exact Splicer.length_blocks hf hs
    · refine List.countP_eq_zero.2 fun call hcall => ?_
      obtain ⟨finding, hfinding, rfl⟩ := List.mem_map.1 hcall
      obtain ⟨d, -, hfound⟩ := Function.exists_definition hfinding
      have htrivial := (Oracle.found_eq_some_iff.1 hfound).1
      rw [Settings.isVacuous_eq_false hranges hbits htrivial]
      decide
    · refine List.length_eq_zero_iff.2 (List.filter_eq_nil_iff.2 fun call hcall => ?_)
      obtain ⟨finding, -, rfl⟩ := List.mem_map.1 hcall
      rw [Settings.isVacuous_of_unchecked hranges hbits finding]
      decide

/-! ## Functions one after another -/

/-- A function to be guarded, with the settings and the tables over what is inferred from it. -/
structure Job where
  settings : Settings
  tables : List FactTable
  function : Function

/-- A job and what became of it counts: it went through, and the function was not skipped. -/
def Job.counts (job : Job) (attempt : Attempt Function Report) : Bool :=
  !job.settings.skips job.function.name && attempt.result.toBool

/-- What the tables of a job know about the values of its function, if they know of any. -/
def Job.tally (job : Job) : Stats :=
  match FactSource.layered job.tables job.function with
  | .ok oracle => oracle.tally job.function
  | .error _ => Stats.zero

namespace Session

/-- Guard the function of a job. -/
def attempt (session : Session) (job : Job) : Attempt Function Report :=
  session.instrument job.settings (FactSource.layered job.tables) job.function

/-- What becomes of jobs, one after another, in one session. -/
def attempts (session : Session) : List Job → List (Job × Attempt Function Report)
  | [] => []
  | job :: rest => (job, session.attempt job) :: (session.attempt job).session.attempts rest

/-- The session after jobs. -/
def after (session : Session) (jobs : List Job) : Session :=
  jobs.foldl (fun session job => (session.attempt job).session) session

/-- What is known about the values of the functions whose jobs count. -/
def inspected (attempts : List (Job × Attempt Function Report)) : Stats :=
  Stats.sum ((attempts.filter fun entry => entry.1.counts entry.2).map fun entry => entry.1.tally)

variable {session : Session} {job : Job}

/-- One job more. -/
theorem inspected_cons (entry : Job × Attempt Function Report)
    (rest : List (Job × Attempt Function Report)) :
    inspected (entry :: rest)
      = Stats.plus (if entry.1.counts entry.2 then entry.1.tally else Stats.zero)
          (inspected rest) := by
  unfold inspected
  rw [List.filter_cons]
  split_ifs
  · rfl
  · rw [Stats.zero_plus]

/-- What a job does to the counters: nothing unless it counts, and then it adds to them what a
survey that went through has counted. -/
theorem attempt_cases (session : Session) (hlabels : job.function.labels.Nodup) :
    (job.counts (session.attempt job) = false ∧
        (session.attempt job).session.stats = session.stats) ∨
      (job.counts (session.attempt job) = true ∧ ∃ oracle,
        FactSource.layered job.tables job.function = .ok oracle ∧
        (job.function.survey oracle).failure? = none ∧
        (session.attempt job).session.stats
          = session.stats.add (job.function.survey oracle).stats) := by
  unfold Job.counts attempt
  rcases instrument_cases job.settings (FactSource.layered job.tables) job.function with
    ⟨hskip, heq⟩ | ⟨hskip, ⟨failure, -, heq⟩ | ⟨oracle, hsource, ⟨failure, -, heq⟩ |
      ⟨hsurvey, heq⟩⟩⟩
  · exact .inl ⟨by rw [hskip]; rfl, by rw [heq]; rfl⟩
  · exact .inl ⟨by rw [heq, hskip]; rfl, by rw [heq]⟩
  · exact .inl ⟨by rw [heq, hskip]; rfl, by rw [heq]; rfl⟩
  · obtain ⟨s, report, -, -, hresult⟩ := session.splice_eq job.settings hlabels oracle
    refine .inr ⟨by rw [heq, hskip, hresult]; rfl, oracle, hsource, hsurvey, ?_⟩
    rw [heq]
    unfold splice
    dsimp only
    split <;> rfl

/-- A job that counts adds what its tables know. -/
theorem stats_attempt (hlabels : job.function.labels.Nodup)
    (hfits : (session.stats.plus
      (if job.counts (session.attempt job) then job.tally else Stats.zero)).Fits) :
    (session.attempt job).session.stats
      = session.stats.plus
          (if job.counts (session.attempt job) then job.tally else Stats.zero) := by
  rcases session.attempt_cases hlabels with ⟨hcounts, hstats⟩ |
    ⟨hcounts, oracle, hsource, hsurvey, hstats⟩
  · rw [hstats, hcounts, if_neg (by decide), Stats.plus_zero]
  · have htally : job.tally = oracle.tally job.function := by
      unfold Job.tally
      rw [hsource]
    rw [hcounts, if_pos rfl, htally] at hfits ⊢
    have hsum : (job.function.survey oracle).stats = oracle.tally job.function :=
      Survey.stats_eq hsurvey hfits.right
    rw [hstats, hsum, Stats.add_eq_plus hfits]

/-- The tables of a job that counts know no more bits than the values of its function have. -/
theorem bounded_tally (hlabels : job.function.labels.Nodup)
    (hnames : job.function.declarations.names.Nodup)
    (h : job.counts (session.attempt job) = true) : job.tally.Bounded := by
  rcases session.attempt_cases hlabels with ⟨hcounts, -⟩ | ⟨-, oracle, hsource, hsurvey, -⟩
  · rw [h] at hcounts
    cases hcounts
  · unfold Job.tally
    rw [hsource]
    exact Oracle.bounded_tally hnames hsource hsurvey

/-- Each of several attempts is made in some session. -/
theorem exists_of_mem_attempts {jobs : List Job} {entry : Job × Attempt Function Report}
    (h : entry ∈ session.attempts jobs) :
    ∃ job ∈ jobs, ∃ before : Session, entry = (job, before.attempt job) := by
  induction jobs generalizing session with
  | nil => cases h
  | cons job rest ih =>
    rcases List.mem_cons.1 h with rfl | h
    · exact ⟨job, List.mem_cons_self, session, rfl⟩
    · obtain ⟨other, hother, hbefore⟩ := ih h
      exact ⟨other, List.mem_cons_of_mem _ hother, hbefore⟩

/-- While the counters can hold the sums, they end at what they were and what is known about the
values of all functions that were guarded. -/
theorem stats_after {jobs : List Job} (hlabels : ∀ job ∈ jobs, job.function.labels.Nodup)
    (hfits : (session.stats.plus (inspected (session.attempts jobs))).Fits) :
    (session.after jobs).stats = session.stats.plus (inspected (session.attempts jobs)) := by
  induction jobs generalizing session with
  | nil => rfl
  | cons job rest ih =>
    have hcons : inspected (session.attempts (job :: rest))
        = Stats.plus (if job.counts (session.attempt job) then job.tally else Stats.zero)
            (inspected ((session.attempt job).session.attempts rest)) := inspected_cons _ _
    rw [hcons, ← Stats.plus_assoc] at hfits ⊢
    -- The first job has not come to the limit, because all jobs together do not.
    have hfirst := stats_attempt (hlabels job List.mem_cons_self) hfits.left
    rw [← hfirst] at hfits ⊢
    exact ih (fun other hother => hlabels other (List.mem_cons_of_mem _ hother)) hfits

/-- Guarding any functions one after another, each by tables over inferred facts, accounts for every
value. While the counters can hold the sums, they end at what they were and, summed over the values
of the functions that were guarded and not skipped, the width of the value and the bits that are
known of it by its masks and by its range. Neither of these is more than there are bits. And every
report accounts for the findings and the blocks of its function. -/
theorem attempts_account (session : Session) (jobs : List Job)
    (hlabels : ∀ job ∈ jobs, job.function.labels.Nodup)
    (hnames : ∀ job ∈ jobs, job.function.declarations.names.Nodup)
    (hfits : (session.stats.plus (inspected (session.attempts jobs))).Fits) :
    (session.after jobs).stats = session.stats.plus (inspected (session.attempts jobs)) ∧
    (inspected (session.attempts jobs)).Bounded ∧
    ∀ entry ∈ session.attempts jobs,
      (entry.1.counts entry.2 = true → entry.1.tally.Bounded) ∧
      ∀ report, entry.2.result = .ok report →
        report.Accounts entry.1.settings entry.1.function entry.2.subject := by
  have hbounded : ∀ entry ∈ session.attempts jobs, entry.1.counts entry.2 = true →
      entry.1.tally.Bounded := by
    intro entry hentry hcounts
    obtain ⟨job, hjob, before, rfl⟩ := exists_of_mem_attempts hentry
    exact bounded_tally (hlabels job hjob) (hnames job hjob) hcounts
  refine ⟨stats_after hlabels hfits, Stats.bounded_sum fun stats hstats => ?_,
    fun entry hentry => ⟨hbounded entry hentry, fun report hreport => ?_⟩⟩
  · obtain ⟨entry, hentry, rfl⟩ := List.mem_map.1 hstats
    obtain ⟨hmem, hcounts⟩ := List.mem_filter.1 hentry
    exact hbounded entry hmem hcounts
  · obtain ⟨job, hjob, before, rfl⟩ := exists_of_mem_attempts hentry
    exact accounts_report (hlabels job hjob) hreport

/-- The digit twice, once by inferred facts and once with a claim about it, and in between a skipped
countdown and one about which a claim cannot be made: 32 bits are counted. -/
theorem attempts_account_digit :
    let first : Job := ⟨.default, [], digit⟩
    let skipped : Job := ⟨{ Settings.default with skipFunctions := ["countdown"] }, [], countdown⟩
    let failing : Job := ⟨.default, [⟨[("countdown", [("i", .ofMasks 256 0)])]⟩], countdown⟩
    let last : Job := ⟨.default, [⟨[("digit", [("rest", .ofMasks 248 0)])]⟩], digit⟩
    let jobs := [first, skipped, failing, last]
    (Session.start.after jobs).stats
      = Session.start.stats.plus (inspected (Session.start.attempts jobs)) ∧
    inspected (Session.start.attempts jobs) = ⟨32, 17, 16⟩ := by
  intro first skipped failing last jobs
  have hinspected : inspected (Session.start.attempts jobs) = ⟨32, 17, 16⟩ := by decide +kernel
  refine ⟨(attempts_account Session.start jobs (by decide) (by decide) ?_).1, hinspected⟩
  rw [hinspected]
  decide

end Session

end FactGuard
