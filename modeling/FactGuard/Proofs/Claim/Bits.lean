import FactGuard.Proofs.Claim.Precedence

/-!
# How many bits are known

Masks that share no bit and lie within a width know as many bits as they have ones together, so at
most as many as the width has (`KnownBits.knownCount_le`). What tables over inferred facts answer
about the bits of an integer value lies within its width (`FactSource.masks_lt`), since claims are
cut to it.
-/

namespace FactGuard

/-! ## Counting bits -/

/-- Two properties that no element has both are had by no more elements together than a property
that either implies. -/
theorem countP_add_countP_le {α : Type} {p q r : α → Bool} {l : List α}
    (hp : ∀ a ∈ l, p a = true → r a = true) (hq : ∀ a ∈ l, q a = true → r a = true)
    (hpq : ∀ a ∈ l, p a = true → q a = false) : l.countP p + l.countP q ≤ l.countP r := by
  induction l with
  | nil => simp
  | cons a rest ih =>
    have hrest := ih (fun b hb => hp b (List.mem_cons_of_mem _ hb))
      (fun b hb => hq b (List.mem_cons_of_mem _ hb)) fun b hb => hpq b (List.mem_cons_of_mem _ hb)
    have hpa := hp a List.mem_cons_self
    have hqa := hq a List.mem_cons_self
    have hpqa := hpq a List.mem_cons_self
    rw [List.countP_cons, List.countP_cons, List.countP_cons]
    cases hcase : p a <;> cases hcase' : q a <;> simp_all <;> omega

/-- Below a width there are as many bits as the width has. -/
theorem countP_lt_range_le (w n : Nat) : (List.range n).countP (fun i => decide (i < w)) ≤ w := by
  rw [List.countP_eq_length_filter]
  have hsub : (List.range n).filter (fun i => decide (i < w)) ⊆ List.range w := by
    intro i hi
    rw [List.mem_filter, decide_eq_true_eq] at hi
    exact List.mem_range.2 hi.2
  simpa using (List.subperm_of_subset (List.nodup_range.filter _) hsub).length_le

/-- Masks of a width without a common bit know no more bits than the width has. -/
theorem KnownBits.knownCount_le {known : KnownBits} {w : Nat} (hw : IsWidth w)
    (hzero : known.zero.bits < modulus w) (hone : known.one.bits < modulus w)
    (hdisjoint : known.zero.bits &&& known.one.bits = 0) : known.knownCount ≤ w := by
  refine Nat.le_trans (countP_add_countP_le (r := fun i => decide (i < w)) ?_ ?_ ?_)
    (countP_lt_range_le w 64)
  · exact fun i _ hi => decide_eq_true (hw.lt_of_testBit hzero hi)
  · exact fun i _ hi => decide_eq_true (hw.lt_of_testBit hone hi)
  · intro i _ hi
    have hboth := congrArg (Nat.testBit · i) hdisjoint
    simpa [Nat.testBit_and, hi] using hboth

/-! ## The masks of tables -/

variable {f : Function} {w : Nat} {value : String}

/-- The masks of a resolved claim lie within the width. -/
theorem Claim.bits_lt_of_resolve {claim : Claim} {resolved : ResolvedClaim}
    (h : claim.resolve w = .ok resolved) :
    ∀ masks ∈ resolved.known, masks.1.bits < modulus w ∧ masks.2.bits < modulus w := by
  intro masks hmasks
  obtain ⟨range?, -, h⟩ := bind_eq_ok.1 h
  obtain ⟨known, hknown, h⟩ := bind_eq_ok.1 h
  cases h
  have hsome : known = some masks := hmasks
  rw [hsome] at hknown
  unfold resolveMasks at hknown
  dsimp only at hknown
  split_ifs at hknown
  · cases Except.ok.inj hknown
  · rw [← Option.some.inj (Except.ok.inj hknown)]
    exact ⟨truncate_lt _ _, truncate_lt _ _⟩

/-- The masks that are resolved for an integer value lie within its width. -/
theorem Function.bits_lt_of_resolveClaims {claims : Bindings Claim}
    {resolved : Bindings ResolvedClaim} (h : f.resolveClaims claims = .ok resolved)
    (hwidth : (f.valueType? value).bind Ty.intWidth? = some w) :
    ∀ masks ∈ (resolved.get? value).bind (·.known),
      masks.1.bits < modulus w ∧ masks.2.bits < modulus w := by
  intro masks hmasks
  have hrel := rel_resolveClaims h value
  obtain ⟨entry, hentry, hknown⟩ := Option.bind_eq_some_iff.1 hmasks
  rw [hentry] at hrel
  cases hclaim : claims.get? value with
  | none =>
    rw [hclaim] at hrel
    cases hrel
  | some claim =>
    rw [hclaim] at hrel
    cases hrel with
    | some hresolve =>
      obtain ⟨w', hwidth', hresolve⟩ := exists_of_resolveClaim hresolve
      rw [hwidth] at hwidth'
      cases hwidth'
      exact Claim.bits_lt_of_resolve hresolve masks hknown

/-- What tables over inferred facts answer about the bits of an integer value lies within its width.
-/
theorem FactSource.masks_lt (hnames : f.declarations.names.Nodup) {tables : List FactTable}
    {oracle : Oracle} (h : layered tables f = .ok oracle)
    (hwidth : (f.valueType? value).bind Ty.intWidth? = some w) :
    (oracle.masks value).1.bits < modulus w ∧ (oracle.masks value).2.bits < modulus w := by
  induction tables generalizing oracle with
  | nil =>
    cases h
    -- The facts are inferred at the width of the last declaration, which is the only one.
    have hlatest : f.latestType? value = f.valueType? value := Bindings.last?_eq_get? hnames value
    obtain ⟨w', hconsistent, hw'⟩ := Oracle.consistent_ofFacts f value ""
    cases hw' w (by rw [hlatest, hwidth])
    rw [hconsistent.isWidth.modulus_eq]
    exact ⟨hconsistent.zero_lt, hconsistent.one_lt⟩
  | cons table tables ih =>
    obtain ⟨below, hbelow, h⟩ := bind_eq_ok.1 h
    obtain ⟨resolved, hresolved, h⟩ := bind_eq_ok.1 h
    cases h
    have hclaimed := Function.bits_lt_of_resolveClaims hresolved hwidth
    show (((resolved.get? value).bind (·.known)).getD (below.masks value)).1.bits < _ ∧
      (((resolved.get? value).bind (·.known)).getD (below.masks value)).2.bits < _
    cases hknown : (resolved.get? value).bind (·.known) with
    | none => exact ih hbelow
    | some masks => exact hclaimed masks hknown

end FactGuard
