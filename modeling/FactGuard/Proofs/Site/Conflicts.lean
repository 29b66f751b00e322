import FactGuard.Proofs.Claim.Layers

/-!
# When tables fail

Guarding a function against tables laid over its own facts fails for two reasons only. Either a
table makes a claim that cannot be made of a value of the function, or the effective masks of a
value that an instruction defines share a bit. The first such instruction is the one that is
reported (`Session.instrument_layered`).
-/

namespace FactGuard

/-- The bits that are claimed to be both zero and one in an integer value, if there are any. -/
def Function.overlap? (f : Function) (tables : List FactTable) (value : String) : Option Nat :=
  let masks := f.effectiveMasks tables value
  if ((f.valueType? value).bind Ty.intWidth?).isSome ∧ masks.1 &&& masks.2 ≠ 0 then
    some (masks.1 &&& masks.2)
  else none

/-- The first value that an instruction defines, phis apart, in which bits are claimed to be both,
with these bits. -/
def Function.conflict? (f : Function) (tables : List FactTable) : Option (String × Nat) :=
  f.definitions.findSome? fun d => (f.overlap? tables d.value).map (d.value, ·)

variable {f : Function} {tables : List FactTable} {oracle : Oracle} {settings : Settings}

/-- An answer about an integer value is refused if its masks overlap, and for no other reason. -/
theorem Oracle.finding_cases {d : Definition} {ty : Ty} {w : Nat}
    (hty : f.valueType? d.value = some ty) (hw : ty.intWidth? = some w)
    (h : oracle.Answers f tables d.value w) :
    (∃ overlap, f.overlap? tables d.value = some overlap ∧
        oracle.finding d ty w = .error (.conflictingKnownBits d.value overlap)) ∨
      (f.overlap? tables d.value = none ∧ ∃ finding, oracle.finding d ty w = .ok finding) := by
  have hisSome : ((f.valueType? d.value).bind Ty.intWidth?).isSome := by
    rw [hty, Option.bind_some, hw, Option.isSome_some]
  have hrange : ¬(oracle.range d.value d.block).width ≠ w := not_not.2 (h.range_width d.block)
  unfold finding
  simp only [hrange, if_false, h.masks_eq, BitMask.both]
  by_cases hoverlap :
      (f.effectiveMasks tables d.value).1 &&& (f.effectiveMasks tables d.value).2 = 0
  · refine .inr ⟨if_neg fun hconflict => hconflict.2 hoverlap, ?_⟩
    simp [KnownBits.ofMasks, KnownBits.width, hoverlap, bind, Except.bind, pure, Except.pure,
      Except.mapError]
  · refine .inl ⟨_, if_pos ⟨hisSome, hoverlap⟩, ?_⟩
    simp [KnownBits.ofMasks, hoverlap, bind, Except.bind, Except.mapError, MaskError.failure]

/-- Surveying definitions fails at the first one of a value whose effective masks overlap. -/
theorem Survey.failure?_eq
    (hanswers : ∀ value w, (f.valueType? value).bind Ty.intWidth? = some w →
      oracle.Answers f tables value w) (definitions : List Definition) :
    (ofDefinitions f oracle definitions).failure?
      = (definitions.findSome? fun d => (f.overlap? tables d.value).map (d.value, ·)).map
          fun conflict => .conflictingKnownBits conflict.1 conflict.2 := by
  -- By induction on the definitions: one without integer type neither overlaps nor is surveyed.
  induction definitions with
  | nil => rfl
  | cons d rest ih =>
    rcases cons_cases f oracle d rest with ⟨hnone, events, heq⟩ |
      ⟨ty, w, hty, hw, ⟨failure, hfinding, heq⟩ | ⟨finding, hfinding, heq⟩⟩
    · have hoverlap : f.overlap? tables d.value = none := by simp [Function.overlap?, hnone]
      rw [heq, List.findSome?_cons, hoverlap]
      exact ih
    · obtain ⟨overlap, hoverlap, herror⟩ | ⟨-, finding, hok⟩ := Oracle.finding_cases hty hw
        (hanswers d.value w (by rw [hty, Option.bind_some, hw]))
      · cases hfinding.symm.trans herror
        rw [heq, List.findSome?_cons, hoverlap]
        rfl
      · cases hfinding.symm.trans hok
    · obtain ⟨overlap, -, herror⟩ | ⟨hoverlap, -⟩ := Oracle.finding_cases hty hw
        (hanswers d.value w (by rw [hty, Option.bind_some, hw]))
      · cases hfinding.symm.trans herror
      · rw [heq, List.findSome?_cons, hoverlap]
        exact ih

namespace Function

/-- The first conflict is at a definition before which there is none. -/
theorem conflict?_eq_some_iff {value : String} {overlap : Nat} :
    f.conflict? tables = some (value, overlap) ↔ ∃ before d after,
      f.definitions = before ++ d :: after ∧
      (∀ other ∈ before, f.overlap? tables other.value = none) ∧
      d.value = value ∧ f.overlap? tables value = some overlap := by
  unfold conflict?
  rw [List.findSome?_eq_some_iff]
  constructor
  · rintro ⟨before, d, after, hdefinitions, hconflict, hbefore⟩
    obtain ⟨_, hoverlap, heq⟩ := Option.map_eq_some_iff.1 hconflict
    cases heq
    exact ⟨before, d, after, hdefinitions, fun other hother =>
      Option.map_eq_none_iff.1 (hbefore other hother), rfl, hoverlap⟩
  · rintro ⟨before, d, after, hdefinitions, hbefore, rfl, hoverlap⟩
    exact ⟨before, d, after, hdefinitions, by rw [hoverlap]; rfl, fun other hother =>
      Option.map_eq_none_iff.2 (hbefore other hother)⟩

/-- There is no conflict if there is none at any definition. -/
theorem conflict?_eq_none_iff :
    f.conflict? tables = none ↔ ∀ d ∈ f.definitions, f.overlap? tables d.value = none := by
  unfold conflict?
  simp only [List.findSome?_eq_none_iff, Option.map_eq_none_iff]

/-- What is inferred has no conflicts. -/
theorem overlap?_nil (f : Function) (value : String) : f.overlap? [] value = none := by
  obtain ⟨_, hconsistent, -⟩ := Oracle.consistent_ofFacts f value ""
  exact if_neg fun hoverlap => hoverlap.2 hconsistent.disjoint

end Function

namespace Session

/-- Guarding a function that is not skipped fails as its source or its survey does, and not later.
-/
theorem instrument_result (session : Session) (hf : f.labels.Nodup)
    (hskip : settings.skips f.name = false) (source : FactSource) :
    match source f with
    | .error failure => (session.instrument settings source f).result = .error failure
    | .ok oracle =>
      match (f.survey oracle).failure? with
      | some failure => (session.instrument settings source f).result = .error failure
      | none => ∃ report, (session.instrument settings source f).result = .ok report := by
  rcases instrument_cases settings source f with ⟨hskips, -⟩ |
    ⟨-, ⟨failure, hsource, heq⟩ | ⟨oracle, hsource, ⟨failure, hsurvey, heq⟩ | ⟨hsurvey, heq⟩⟩⟩
  · rw [hskip] at hskips
    cases hskips
  · rw [hsource, heq]
  · rw [hsource, heq]
    dsimp only
    rw [hsurvey]
  · obtain ⟨-, report, -, -, hreport⟩ := session.splice_eq settings hf oracle
    rw [hsource, heq]
    dsimp only
    rw [hsurvey]
    exact ⟨report, hreport⟩

/-- Guarding against tables fails for a claim that cannot be made, or else for the first conflict,
or else it goes through. -/
theorem instrument_layered_cases (session : Session) (hf : f.labels.Nodup)
    (hnames : f.declarations.names.Nodup) (hskip : settings.skips f.name = false)
    (tables : List FactTable) :
    ((∃ table ∈ tables, table.Misclaims f) ∧ ∃ value cause,
        (session.instrument settings (FactSource.layered tables) f).result
          = .error (.invalidFact f.name value cause)) ∨
      ((∀ table ∈ tables, ¬table.Misclaims f) ∧
        match f.conflict? tables with
        | some conflict => (session.instrument settings (FactSource.layered tables) f).result
            = .error (.conflictingKnownBits conflict.1 conflict.2)
        | none => ∃ report,
            (session.instrument settings (FactSource.layered tables) f).result = .ok report) := by
  have hresult := session.instrument_result hf hskip (FactSource.layered tables)
  rcases FactSource.layered_cases hnames tables with
    ⟨hmisclaims, value, cause, herror⟩ | ⟨hclaims, oracle, hok, hanswers⟩
  · rw [herror] at hresult
    exact .inl ⟨hmisclaims, value, cause, hresult⟩
  · -- There is an oracle, so only the survey can fail, and it does at the first conflict.
    have hsurvey : (f.survey oracle).failure? = (f.conflict? tables).map
        fun conflict => .conflictingKnownBits conflict.1 conflict.2 :=
      Survey.failure?_eq hanswers f.definitions
    rw [hok] at hresult
    dsimp only at hresult
    rw [hsurvey] at hresult
    refine .inr ⟨hclaims, ?_⟩
    cases hconflict : f.conflict? tables with
    | some conflict =>
      rw [hconflict] at hresult
      exact hresult
    | none =>
      rw [hconflict] at hresult
      exact hresult

/-- When guarding a function that is not skipped against tables fails. It fails for a claim if and
only if some table makes one that cannot be made. Else it fails for a conflict if and only if the
effective masks of a value overlap that an instruction defines, phis apart, and the first such
instruction is named. Else it goes through, and it always does if there are no tables. -/
theorem instrument_layered (session : Session) (hf : f.labels.Nodup)
    (hnames : f.declarations.names.Nodup) (hskip : settings.skips f.name = false)
    (tables : List FactTable) :
    let result := (session.instrument settings (FactSource.layered tables) f).result
    ((∃ value cause, result = .error (.invalidFact f.name value cause)) ↔
        ∃ table ∈ tables, table.Misclaims f) ∧
      ((∀ table ∈ tables, ¬table.Misclaims f) →
        (∀ value overlap, result = .error (.conflictingKnownBits value overlap) ↔
          ∃ before d after, f.definitions = before ++ d :: after ∧
            (∀ other ∈ before, f.overlap? tables other.value = none) ∧
            d.value = value ∧ f.overlap? tables value = some overlap) ∧
        ((∀ d ∈ f.definitions, f.overlap? tables d.value = none) →
          ∃ report, result = .ok report)) ∧
      (tables = [] → ∃ report, result = .ok report) := by
  intro result
  have hcases := session.instrument_layered_cases hf hnames hskip tables
  rw [show (session.instrument settings (FactSource.layered tables) f).result = result from rfl]
    at hcases
  -- A claim that cannot be made fails before any conflict is looked for, and there is none without
  -- tables.
  rcases hcases with ⟨⟨table, htable, hmisclaims⟩, value, cause, hresult⟩ | ⟨hclaims, hresult⟩
  · refine ⟨⟨fun _ => ⟨table, htable, hmisclaims⟩, fun _ => ⟨value, cause, hresult⟩⟩, ?_, ?_⟩
    · exact fun hnone => absurd hmisclaims (hnone table htable)
    · rintro rfl
      cases htable
  have hno : ¬∃ table ∈ tables, table.Misclaims f := fun ⟨table, htable, hmisclaims⟩ =>
    hclaims table htable hmisclaims
  -- From here on the claims can be made, so the result is told by the first conflict.
  simp only [← Function.conflict?_eq_some_iff, ← Function.conflict?_eq_none_iff]
  cases hconflict : f.conflict? tables with
  | some conflict =>
    obtain ⟨value, overlap⟩ := conflict
    rw [hconflict] at hresult
    refine ⟨⟨?_, fun h => absurd h hno⟩, fun _ => ⟨fun value' overlap' => ?_, ?_⟩, ?_⟩
    · rintro ⟨_, _, h⟩
      rw [hresult] at h
      cases h
    · rw [hresult]
      simp
    · rintro ⟨⟩
    · rintro rfl
      rw [Function.conflict?_eq_none_iff.2 fun d _ => f.overlap?_nil d.value] at hconflict
      cases hconflict
  | none =>
    rw [hconflict] at hresult
    obtain ⟨report, hreport⟩ := hresult
    refine ⟨⟨?_, fun h => absurd h hno⟩, fun _ => ⟨fun value overlap => ?_, ?_⟩, ?_⟩
    · rintro ⟨_, _, h⟩
      rw [hreport] at h
      cases h
    · rw [hreport]
      simp
    · exact fun _ => ⟨report, hreport⟩
    · exact fun _ => ⟨report, hreport⟩

/-- A digit cannot be claimed to have a ninth bit, nor a character to have and not to have its fifth
bit. Without claims the digit is guarded. -/
theorem instrument_layered_digit :
    digit.labels.Nodup ∧ digit.declarations.names.Nodup ∧
      Settings.default.skips digit.name = false ∧
      (∃ value cause, (start.instrument Settings.default
          (FactSource.layered [⟨[("digit", [("rest", .ofMasks 0 256)])]⟩]) digit).result
            = .error (.invalidFact "digit" value cause)) ∧
      (start.instrument Settings.default
          (FactSource.layered [⟨[("digit", [("char", .ofMasks 16 48)])]⟩]) digit).result
            = .error (.conflictingKnownBits "char" 16) ∧
      ∃ report, (start.instrument Settings.default (FactSource.layered []) digit).result
        = .ok report := by
  have hlabels : digit.labels.Nodup := by decide
  have hnames : digit.declarations.names.Nodup := by decide
  have hskip : Settings.default.skips digit.name = false := rfl
  have hlayered := start.instrument_layered hlabels hnames hskip
  refine ⟨hlabels, hnames, hskip, ?_, ?_, (hlayered []).2.2 rfl⟩
  · exact (hlayered _).1.2 ⟨_, List.mem_singleton_self _, by decide⟩
  · refine (((hlayered _).2.1 (by decide)).1 "char" 16).2 ⟨[_], _, [], rfl, ?_, rfl, rfl⟩
    decide

end Session

end FactGuard
