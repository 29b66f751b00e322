import FactGuard.Oracle
import FactGuard.Proofs.Claim.Resolution
import FactGuard.Proofs.Site.Report

/-!
# Tables over each other

A function's claims are checked in every table that is laid over its facts, also where a table above
claims something else. So tables have an oracle for a function if and only if none of them makes a
claim that cannot be made (`FactTable.Misclaims`). The oracle then answers about each integer value
at the width of the value, and with the masks of the first table that claims any bit of the value,
or else with those that are inferred (`FactSource.layered_cases`).
-/

namespace FactGuard

/-- The claim cannot be made of the value in the function, which may declare no such integer. -/
inductive Claim.Invalid (claim : Claim) (f : Function) (value : String) : Prop
  | notInteger (hnone : (f.valueType? value).bind Ty.intWidth? = none)
  | unfit {w : Nat} (hwidth : (f.valueType? value).bind Ty.intWidth? = some w)
      (hunfit : claim.Unfit w)

/-- Some claim about the function in the table cannot be made. -/
def FactTable.Misclaims (table : FactTable) (f : Function) : Prop :=
  ∃ entry ∈ table.claims f.name, entry.2.Invalid f entry.1

/-- The bits that the table says are zero in a value and those that it says are one, if any. -/
def FactTable.masks? (table : FactTable) (function value : String) : Option (Nat × Nat) :=
  (table.get? function value).bind Claim.masks?

/-- The bits that are zero in a value and those that are one, as the first table says that speaks of
bits of the value, and else as is inferred. -/
def Function.effectiveMasks (f : Function) (tables : List FactTable) (value : String) : Nat × Nat :=
  (tables.findSome? (·.masks? f.name value)).getD
    ((f.facts.lookup value).known.zero.bits, (f.facts.lookup value).known.one.bits)

/-- The answers about a value have the width and the effective masks. -/
structure Oracle.Answers (oracle : Oracle) (f : Function) (tables : List FactTable) (value : String)
    (w : Nat) : Prop where
  range_width : ∀ block, (oracle.range value block).width = w
  masks_eq : oracle.masks value = BitMask.both w (f.effectiveMasks tables value)

variable {f : Function} {w : Nat} {value : String}

/-! ## The claims of one table -/

/-- A claim gets the width of the value if it can be made. -/
theorem Function.resolveClaim_cases (f : Function) (value : String) (claim : Claim) :
    (claim.Invalid f value ∧
        ∃ cause, f.resolveClaim value claim = .error (.invalidFact f.name value cause)) ∨
      (¬claim.Invalid f value ∧ ∃ w resolved, (f.valueType? value).bind Ty.intWidth? = some w ∧
        f.resolveClaim value claim = .ok resolved ∧
        (∀ range ∈ resolved.range, range.width = w) ∧
        resolved.known = claim.masks?.map (BitMask.both w)) := by
  unfold resolveClaim
  cases hwidth : (f.valueType? value).bind Ty.intWidth? with
  | none => exact .inl ⟨.notInteger hwidth, .notInteger, rfl⟩
  | some w =>
    obtain ⟨ty, -, hty⟩ := Option.bind_eq_some_iff.1 hwidth
    rcases claim.resolve_cases (Ty.isWidth_of_intWidth? hty) with
      ⟨hunfit, cause, herror⟩ | ⟨hfit, resolved, hok, hrange, hknown⟩
    · exact .inl ⟨.unfit hwidth hunfit, cause, congrArg (Except.mapError _) herror⟩
    · refine .inr ⟨?_, w, resolved, rfl, congrArg (Except.mapError _) hok, hrange, hknown⟩
      rintro (hnone | ⟨hwidth', hunfit⟩)
      · rw [hwidth] at hnone
        cases hnone
      · rw [hwidth] at hwidth'
        cases hwidth'
        exact hfit hunfit

/-- Claims get the widths of their values if all of them can be made. What is resolved for a value
then is its claim. -/
theorem Function.resolveClaims_cases (f : Function) (claims : Bindings Claim) :
    ((∃ entry ∈ claims, entry.2.Invalid f entry.1) ∧
        ∃ value cause, f.resolveClaims claims = .error (.invalidFact f.name value cause)) ∨
      ((∀ entry ∈ claims, ¬entry.2.Invalid f entry.1) ∧
        ∃ resolved, f.resolveClaims claims = .ok resolved ∧
          ∀ value w, (f.valueType? value).bind Ty.intWidth? = some w →
            (∀ range ∈ (resolved.get? value).bind (·.range), range.width = w) ∧
            (resolved.get? value).bind (·.known)
              = ((claims.get? value).bind Claim.masks?).map (BitMask.both w)) := by
  -- By induction on the claims: the first that cannot be made is the one that is reported.
  induction claims with
  | nil => exact .inr ⟨by simp, [], rfl, by simp⟩
  | cons entry rest ih =>
    obtain ⟨key, claim⟩ := entry
    unfold resolveClaims
    rcases f.resolveClaim_cases key claim with
      ⟨hinvalid, cause, herror⟩ | ⟨hvalid, w, first, hwidth, hfirst, hrange, hknown⟩
    · exact .inl ⟨⟨(key, claim), List.mem_cons_self, hinvalid⟩, key, cause, by rw [herror]; rfl⟩
    rw [hfirst]
    rcases ih with
      ⟨⟨other, hother, hinvalid⟩, value, cause, herror⟩ | ⟨hall, later, hlater, hvalues⟩
    · exact .inl ⟨⟨other, List.mem_cons_of_mem _ hother, hinvalid⟩, value, cause, by
        rw [herror]; rfl⟩
    refine .inr ⟨fun other hother => ?_, (key, first) :: later, by rw [hlater]; rfl, ?_⟩
    · rcases List.mem_cons.1 hother with rfl | hother
      · exact hvalid
      · exact hall other hother
    intro value width hvalue
    by_cases hkey : key = value
    · subst hkey
      rw [hwidth] at hvalue
      cases hvalue
      simp only [Bindings.get?, if_true, Option.bind_some]
      exact ⟨hrange, hknown⟩
    · simp only [Bindings.get?, if_neg hkey]
      exact hvalues value width hvalue

/-- Whether a table makes a claim that cannot be made can be told by resolving its claims. -/
theorem FactTable.misclaims_iff (table : FactTable) (f : Function) :
    table.Misclaims f ↔ (f.resolveClaims (table.claims f.name)).toBool = false := by
  rcases f.resolveClaims_cases (table.claims f.name) with
    ⟨hmisclaims, value, cause, herror⟩ | ⟨hclaims, resolved, hok, -⟩
  · rw [herror]
    exact iff_of_true hmisclaims rfl
  · rw [hok]
    refine iff_of_false ?_ (by simp [Except.toBool])
    rintro ⟨entry, hentry, hinvalid⟩
    exact hclaims entry hentry hinvalid

instance (table : FactTable) (f : Function) : Decidable (table.Misclaims f) :=
  decidable_of_iff _ (table.misclaims_iff f).symm

/-! ## Layers -/

/-- A table on top answers with its masks, and else the tables below do. -/
theorem Function.effectiveMasks_cons (f : Function) (table : FactTable) (tables : List FactTable)
    (value : String) :
    f.effectiveMasks (table :: tables) value
      = (table.masks? f.name value).getD (f.effectiveMasks tables value) := by
  unfold effectiveMasks
  rw [List.findSome?_cons]
  cases table.masks? f.name value <;> rfl

/-- What is inferred answers with the masks that are inferred, at the width of the value. -/
theorem Oracle.answers_ofFacts (hnames : f.declarations.names.Nodup)
    (hwidth : (f.valueType? value).bind Ty.intWidth? = some w) :
    (ofFacts f.facts).Answers f [] value w := by
  -- The facts are inferred at the width of the last declaration, which is the only one.
  have hlatest : f.latestType? value = f.valueType? value := Bindings.last?_eq_get? hnames value
  refine ⟨fun block => ?_, ?_⟩
  · obtain ⟨w', hconsistent, hw'⟩ := consistent_ofFacts f value block
    rw [hconsistent.range_width, hw' w (by rw [hlatest, hwidth])]
  · obtain ⟨w', hconsistent, hw'⟩ := consistent_ofFacts f value ""
    have heq := hw' w (by rw [hlatest, hwidth])
    have hzero : (f.facts.lookup value).known.zero.width = w := hconsistent.zero_width.trans heq
    have hone : (f.facts.lookup value).known.one.width = w := hconsistent.one_width.trans heq
    exact Prod.ext (congrArg (BitMask.mk · _) hzero) (congrArg (BitMask.mk · _) hone)

/-- Claims over an oracle answer with their masks, and else the oracle does. -/
theorem Oracle.Answers.override {oracle : Oracle} {tables : List FactTable} {table : FactTable}
    {resolved : Bindings ResolvedClaim} (h : oracle.Answers f tables value w)
    (hrange : ∀ range ∈ (resolved.get? value).bind (·.range), range.width = w)
    (hknown : (resolved.get? value).bind (·.known)
      = (table.masks? f.name value).map (BitMask.both w)) :
    (oracle.override resolved).Answers f (table :: tables) value w := by
  refine ⟨fun block => ?_, ?_⟩
  · show (((resolved.get? value).bind (·.range)).getD (oracle.range value block)).width = w
    cases hclaim : (resolved.get? value).bind (·.range) with
    | none => exact h.range_width block
    | some range => exact hrange range hclaim
  · show ((resolved.get? value).bind (·.known)).getD (oracle.masks value) = _
    rw [hknown, f.effectiveMasks_cons, h.masks_eq]
    cases table.masks? f.name value <;> rfl

namespace FactSource

/-- Tables have no oracle for a function if one of them makes a claim that cannot be made. Else they
have one that answers at the width of each integer value, with the effective masks. -/
theorem layered_cases (hnames : f.declarations.names.Nodup) (tables : List FactTable) :
    ((∃ table ∈ tables, table.Misclaims f) ∧
        ∃ value cause, layered tables f = .error (.invalidFact f.name value cause)) ∨
      ((∀ table ∈ tables, ¬table.Misclaims f) ∧ ∃ oracle, layered tables f = .ok oracle ∧
        ∀ value w, (f.valueType? value).bind Ty.intWidth? = some w →
          oracle.Answers f tables value w) := by
  induction tables with
  | nil => exact .inr ⟨by simp, _, rfl, fun value w => Oracle.answers_ofFacts hnames⟩
  | cons table tables ih =>
    have hcons : layered (table :: tables) f = (do
        let oracle ← layered tables f
        let claims ← f.resolveClaims (table.claims f.name)
        return oracle.override claims) := rfl
    rw [hcons]
    -- The tables below are asked first, so a failure there comes first.
    rcases ih with
      ⟨⟨other, hother, hmisclaims⟩, value, cause, herror⟩ | ⟨hall, oracle, hok, hanswers⟩
    · exact .inl ⟨⟨other, List.mem_cons_of_mem _ hother, hmisclaims⟩, value, cause, by
        rw [herror]; rfl⟩
    rw [hok]
    rcases f.resolveClaims_cases (table.claims f.name) with
      ⟨hmisclaims, value, cause, herror⟩ | ⟨hclaims, resolved, hresolved, hvalues⟩
    · exact .inl ⟨⟨table, List.mem_cons_self, hmisclaims⟩, value, cause, by rw [herror]; rfl⟩
    · refine .inr ⟨fun other hother => ?_, oracle.override resolved, by rw [hresolved]; rfl, ?_⟩
      · rcases List.mem_cons.1 hother with rfl | hother
        · rintro ⟨entry, hentry, hinvalid⟩
          exact hclaims entry hentry hinvalid
        · exact hall other hother
      · intro value w hwidth
        obtain ⟨hrange, hknown⟩ := hvalues value w hwidth
        exact (hanswers value w hwidth).override hrange hknown

end FactSource

end FactGuard
