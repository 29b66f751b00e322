import FactGuard.Proofs.Claim.Layers

/-!
# The first table that claims something answers

Tables laid over each other are asked one inside the other. What they answer is flat nevertheless
(`Oracle.FirstMatch`): about the range of a value, the first table that claims a range of it, and
about its bits, the first table that claims any of these; what no table claims is inferred. The two
are independent, so that different tables can answer about the same value. Only claims about the
function count (`FactSource.layered_congr`).

The proof follows one claim through the layers. What a table resolves for a value stands beside what
it claims of it, part by part (`FactTable.rel_range`, `FactTable.rel_masks`). An answer that comes
from the first of two claims is one by precedence (`Prevails.override`), for either part.
-/

namespace FactGuard

/-- How an answer depends on what is claimed: it is one that the claim stands for, or a given answer
if there is no claim. -/
inductive Prevails {α β : Type} (stands : α → β → Prop) (otherwise : β) : Option α → β → Prop
  | claimed {claim : α} {answer : β} (h : stands claim answer) :
    Prevails stands otherwise (some claim) answer
  | unclaimed : Prevails stands otherwise none otherwise

/-- The range that the table claims of a value, if any. -/
def FactTable.range? (table : FactTable) (function value : String) : Option ClaimedRange :=
  (table.get? function value).bind (·.range)

namespace Function

/-- A claimed range of a value, at the width of the value. -/
def ClaimsRange (f : Function) (value : String) (claimed : ClaimedRange) (range : ValueRange) :
    Prop :=
  ∃ w, (f.valueType? value).bind Ty.intWidth? = some w ∧ claimed.resolve w = .ok range

/-- The bits of a value that are claimed to be zero and those that are claimed to be one, at the
width of the value. -/
def ClaimsMasks (f : Function) (value : String) (claimed : Nat × Nat) (masks : BitMask × BitMask) :
    Prop :=
  ∃ w, (f.valueType? value).bind Ty.intWidth? = some w ∧ masks = (⟨w, claimed.1⟩, ⟨w, claimed.2⟩)

end Function

/-- The oracle answers about a value of the function as the first tables do that claim something of
it, for its range and its masks apart, and as is inferred where none does. -/
structure Oracle.FirstMatch (oracle : Oracle) (f : Function) (tables : List FactTable)
    (value : String) : Prop where
  range : ∀ block, Prevails (f.ClaimsRange value) ((ofFacts f.facts).range value block)
    (tables.findSome? (·.range? f.name value)) (oracle.range value block)
  masks : Prevails (f.ClaimsMasks value) ((ofFacts f.facts).masks value)
    (tables.findSome? (·.masks? f.name value)) (oracle.masks value)

/-! ## Precedence -/

@[simp] theorem prevails_some_iff {α β : Type} {stands : α → β → Prop} {otherwise answer : β}
    {claim : α} : Prevails stands otherwise (some claim) answer ↔ stands claim answer :=
  ⟨fun h => by cases h; assumption, .claimed⟩

@[simp] theorem prevails_none_iff {α β : Type} {stands : α → β → Prop} {otherwise answer : β} :
    Prevails stands otherwise none answer ↔ answer = otherwise :=
  ⟨fun h => by cases h; rfl, fun h => h ▸ .unclaimed⟩

/-- A claim on top, and what it becomes, prevail over those below. -/
theorem Prevails.override {α β : Type} {stands : α → β → Prop} {otherwise below : β}
    {own rest : Option α} {top : Option β} (hown : Option.Rel stands own top)
    (h : Prevails stands otherwise rest below) :
    Prevails stands otherwise (own.or rest) (top.getD below) := by
  cases hown with
  | some hstands => exact .claimed hstands
  | none => exact h

/-- Related parts of related entries. -/
theorem rel_bind {α β γ δ : Type} {r : α → β → Prop} {s : γ → δ → Prop} {a : Option α}
    {b : Option β} {f : α → Option γ} {g : β → Option δ} (h : Option.Rel r a b)
    (hparts : ∀ x y, r x y → Option.Rel s (f x) (g y)) : Option.Rel s (a.bind f) (b.bind g) := by
  cases h with
  | some hentry => exact hparts _ _ hentry
  | none => exact .none

theorem rel_imp {α β : Type} {r s : α → β → Prop} {a : Option α} {b : Option β}
    (h : Option.Rel r a b) (himp : ∀ x y, r x y → s x y) : Option.Rel s a b := by
  cases h with
  | some hentry => exact .some (himp _ _ hentry)
  | none => exact .none

/-! ## Claims at the width of their values -/

variable {f : Function} {w : Nat} {value : String}

namespace Claim

variable {claim : Claim} {resolved : ResolvedClaim}

/-- A claim keeps its range, at the width. -/
theorem rel_range (h : claim.resolve w = .ok resolved) :
    Option.Rel (fun claimed range => claimed.resolve w = .ok range) claim.range resolved.range := by
  obtain ⟨range?, hrange, h⟩ := bind_eq_ok.1 h
  obtain ⟨known, -, h⟩ := bind_eq_ok.1 h
  cases h
  unfold resolveRange at hrange
  cases hclaimed : claim.range with
  | none =>
    rw [hclaimed] at hrange
    cases hrange
    exact .none
  | some claimed =>
    rw [hclaimed] at hrange
    dsimp only at hrange
    cases hresolve : claimed.resolve w with
    | error cause =>
      rw [hresolve] at hrange
      cases hrange
    | ok range =>
      rw [hresolve] at hrange
      cases hrange
      exact .some hresolve

/-- A claim keeps its masks, at the width. -/
theorem rel_masks (hw : IsWidth w) (h : claim.resolve w = .ok resolved) :
    Option.Rel (fun claimed masks => masks = BitMask.both w claimed) claim.masks?
      resolved.known := by
  rcases claim.resolve_cases hw with ⟨-, cause, herror⟩ | ⟨-, other, hok, -, hknown⟩
  · rw [herror] at h
    cases h
  · rw [hok] at h
    cases h
    rw [hknown]
    cases claim.masks? with
    | none => exact .none
    | some claimed => exact .some rfl

end Claim

/-- A claim about a value is resolved at the width of the value. -/
theorem Function.exists_of_resolveClaim {claim : Claim} {resolved : ResolvedClaim}
    (h : f.resolveClaim value claim = .ok resolved) :
    ∃ w, (f.valueType? value).bind Ty.intWidth? = some w ∧ claim.resolve w = .ok resolved := by
  unfold resolveClaim at h
  cases hwidth : (f.valueType? value).bind Ty.intWidth? with
  | none =>
    rw [hwidth] at h
    cases h
  | some w =>
    rw [hwidth] at h
    dsimp only at h
    cases hresolve : claim.resolve w with
    | error cause =>
      rw [hresolve] at h
      cases h
    | ok other =>
      rw [hresolve] at h
      cases h
      exact ⟨w, rfl, hresolve⟩

/-- What is resolved for a value is the claim about it. -/
theorem Function.rel_resolveClaims {claims : Bindings Claim} {resolved : Bindings ResolvedClaim}
    (h : f.resolveClaims claims = .ok resolved) (value : String) :
    Option.Rel (fun claim entry => f.resolveClaim value claim = .ok entry) (claims.get? value)
      (resolved.get? value) := by
  -- By induction on the claims, in the order in which they are looked through.
  induction claims generalizing resolved with
  | nil =>
    cases h
    exact .none
  | cons first rest ih =>
    obtain ⟨key, claim⟩ := first
    obtain ⟨entry, hentry, h⟩ := bind_eq_ok.1 h
    obtain ⟨later, hlater, h⟩ := bind_eq_ok.1 h
    cases h
    by_cases hkey : key = value
    · subst hkey
      simp only [Bindings.get?, if_true]
      exact .some hentry
    · simp only [Bindings.get?, if_neg hkey]
      exact ih hlater

namespace FactTable

variable {table : FactTable} {resolved : Bindings ResolvedClaim}

/-- The range that a table claims of a value stands for the one that is resolved. -/
theorem rel_range (h : f.resolveClaims (table.claims f.name) = .ok resolved) (value : String) :
    Option.Rel (f.ClaimsRange value) (table.range? f.name value)
      ((resolved.get? value).bind (·.range)) := by
  refine rel_bind (Function.rel_resolveClaims h value) fun claim entry hentry => ?_
  obtain ⟨w, hwidth, hresolve⟩ := Function.exists_of_resolveClaim hentry
  exact rel_imp (Claim.rel_range hresolve) fun _ _ hrange => ⟨w, hwidth, hrange⟩

/-- The masks that a table claims of a value stand for those that are resolved. -/
theorem rel_masks (h : f.resolveClaims (table.claims f.name) = .ok resolved) (value : String) :
    Option.Rel (f.ClaimsMasks value) (table.masks? f.name value)
      ((resolved.get? value).bind (·.known)) := by
  refine rel_bind (Function.rel_resolveClaims h value) fun claim entry hentry => ?_
  obtain ⟨w, hwidth, hresolve⟩ := Function.exists_of_resolveClaim hentry
  obtain ⟨ty, -, hty⟩ := Option.bind_eq_some_iff.1 hwidth
  exact rel_imp (Claim.rel_masks (Ty.isWidth_of_intWidth? hty) hresolve) fun _ _ hmasks =>
    ⟨w, hwidth, hmasks⟩

end FactTable

/-! ## Layers -/

namespace Oracle

/-- Without tables, all is inferred. -/
theorem firstMatch_ofFacts (f : Function) (value : String) :
    (ofFacts f.facts).FirstMatch f [] value :=
  ⟨fun _ => .unclaimed, .unclaimed⟩

/-- A table on top answers as far as it claims something, and else the oracle below does. -/
theorem FirstMatch.override {below : Oracle} {table : FactTable} {tables : List FactTable}
    {resolved : Bindings ResolvedClaim} (h : below.FirstMatch f tables value)
    (hresolved : f.resolveClaims (table.claims f.name) = .ok resolved) :
    (below.override resolved).FirstMatch f (table :: tables) value := by
  have hcons : ∀ {α : Type} (claim? : FactTable → Option α),
      (table :: tables).findSome? claim? = (claim? table).or (tables.findSome? claim?) :=
    fun claim? => by
      rw [List.findSome?_cons]
      cases claim? table <;> rfl
  refine ⟨fun block => ?_, ?_⟩
  · rw [hcons]
    exact (h.range block).override (FactTable.rel_range hresolved value)
  · rw [hcons]
    exact h.masks.override (FactTable.rel_masks hresolved value)

end Oracle

namespace FactSource

variable {tables : List FactTable} {oracle : Oracle}

/-- Tables that have an oracle answer by the first of them that claims something. -/
theorem firstMatch_of_layered (h : layered tables f = .ok oracle) (value : String) :
    oracle.FirstMatch f tables value := by
  induction tables generalizing oracle with
  | nil =>
    cases h
    exact Oracle.firstMatch_ofFacts f value
  | cons table tables ih =>
    -- The tables below have an oracle, and the claims of the table are laid over it.
    obtain ⟨below, hbelow, h⟩ := bind_eq_ok.1 h
    obtain ⟨resolved, hresolved, h⟩ := bind_eq_ok.1 h
    cases h
    exact (ih hbelow).override hresolved

/-- Tables that claim the same about a function have the same oracle for it. -/
theorem layered_congr {others : List FactTable}
    (h : others.map (·.claims f.name) = tables.map (·.claims f.name)) :
    layered others f = layered tables f := by
  induction tables generalizing others with
  | nil =>
    rw [List.map_nil, List.map_eq_nil_iff] at h
    rw [h]
  | cons table tables ih =>
    obtain ⟨other, rest, rfl, hother, hrest⟩ := List.map_eq_cons_iff.1 h
    show (layered rest f >>= _) = (layered tables f >>= _)
    rw [ih hrest, hother]

/-- Tables that have an oracle for a function without repeated names answer by precedence. About
each value, the first table that claims a range gives the range, and the first that claims any bit
gives the masks, both at the declared width; what no table claims is inferred. All answers about an
integer value have its declared width, and claims about other functions change nothing. -/
theorem layered_firstMatch (hnames : f.declarations.names.Nodup)
    (h : layered tables f = .ok oracle) :
    (∀ value, oracle.FirstMatch f tables value) ∧
      (∀ value w, (f.valueType? value).bind Ty.intWidth? = some w →
        (∀ block, (oracle.range value block).width = w) ∧
        (oracle.masks value).1.width = w ∧ (oracle.masks value).2.width = w) ∧
      ∀ others : List FactTable,
        others.map (·.claims f.name) = tables.map (·.claims f.name) →
          layered others f = .ok oracle := by
  refine ⟨firstMatch_of_layered h, fun value w hwidth => ?_, fun others hothers => ?_⟩
  · rcases layered_cases hnames tables with ⟨-, name, cause, herror⟩ | ⟨-, other, hok, hanswers⟩
    · rw [herror] at h
      cases h
    · rw [hok] at h
      cases h
      have hanswer := hanswers value w hwidth
      rw [hanswer.masks_eq]
      exact ⟨hanswer.range_width, rfl, rfl⟩
  · rw [layered_congr hothers, h]

/-- Two tables about the digit. The masks of the remainder are those of the first one, its range is
that of the second, and the character has a claimed range and inferred masks. What the first table
says of another function does not matter. -/
theorem layered_firstMatch_digit :
    let high : Claim := ⟨none, some 240, none⟩
    let small : Claim := ⟨some (.bounds 0 5), none, some 1⟩
    let lower : FactTable := ⟨[("digit", [("char", .ofRange (.bounds 48 58)), ("rest", small)])]⟩
    digit.declarations.names.Nodup ∧
      ∃ oracle, layered [⟨[("digit", [("rest", high)])]⟩, lower] digit = .ok oracle ∧
        oracle.range "rest" "entry" = ⟨8, 0, 5⟩ ∧ oracle.masks "rest" = (⟨8, 240⟩, ⟨8, 0⟩) ∧
        oracle.range "char" "entry" = ⟨8, 48, 58⟩ ∧
        oracle.masks "char" = (Oracle.ofFacts digit.facts).masks "char" ∧
        layered [⟨[("digit", [("rest", high)]), ("scale", [("rest", small)])]⟩, lower] digit
          = .ok oracle := by
  intro high small lower
  have hnames : digit.declarations.names.Nodup := by decide
  rcases layered_cases hnames [⟨[("digit", [("rest", high)])]⟩, lower] with
    ⟨hmisclaims, -⟩ | ⟨-, oracle, hok, -⟩
  · exact absurd hmisclaims (by decide)
  obtain ⟨hfirst, -, hothers⟩ := layered_firstMatch hnames hok
  obtain ⟨w, hwidth, hrest⟩ := prevails_some_iff.1 ((hfirst "rest").range "entry")
  obtain ⟨w', hwidth', hchar⟩ := prevails_some_iff.1 ((hfirst "char").range "entry")
  obtain ⟨w'', hwidth'', hmasks⟩ := prevails_some_iff.1 (hfirst "rest").masks
  obtain rfl : 8 = w := Option.some.inj hwidth
  obtain rfl : 8 = w' := Option.some.inj hwidth'
  obtain rfl : 8 = w'' := Option.some.inj hwidth''
  exact ⟨hnames, oracle, hok, (Except.ok.inj hrest).symm, hmasks, (Except.ok.inj hchar).symm,
    prevails_none_iff.1 (hfirst "char").masks, hothers _ rfl⟩

end FactSource

end FactGuard
