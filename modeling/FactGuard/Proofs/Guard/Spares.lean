import FactGuard.Proofs.Guard.Lowering

/-!
# The names of a guard's locals

A fresh local is numbered from the number of locals on, and numbers that make a declared name are
passed over. So guards take their names in order from one supply: the numbered names that the
function does not declare (`Function.spareNames`). However many guards there are, the names that
they took are the first ones of the supply (`Function.SparesFor`, `Lowering.Emits.spares`).
-/

namespace FactGuard

namespace Function

/-- The name with a number that a guard's local may get. -/
def numberedName (number : Nat) : String := Lowering.stem ++ toString number

/-- The numbered names are distinct. -/
theorem numberedName_injective : Function.Injective numberedName :=
  append_toString_injective Lowering.stem

/-- Of the names numbered from the number of locals on, `count` in all, those that the function does
not declare. -/
def spareNames (f : Function) (count : Nat) : List String :=
  ((List.range' f.locals.length count).map numberedName).filter fun name =>
    !f.declarations.names.contains name

variable {f g : Function} {count : Nat} {name : String}

theorem mem_spareNames :
    name ∈ f.spareNames count ↔
      (∃ number, f.locals.length ≤ number ∧ number < f.locals.length + count ∧
        numberedName number = name) ∧ name ∉ f.declarations.names := by
  simp [spareNames, List.mem_range'_1, and_assoc]

/-- A supply has no name twice. -/
theorem nodup_spareNames (f : Function) (count : Nat) : (f.spareNames count).Nodup :=
  (List.Nodup.map numberedName_injective List.nodup_range').filter _

/-- Numbers that make declared names add none to the supply, and the next one that does not adds its
name. -/
theorem spareNames_succ {more : Nat}
    (hused : ∀ number, f.locals.length + count ≤ number → number < f.locals.length + count + more →
      numberedName number ∈ f.declarations.names)
    (hfree : numberedName (f.locals.length + count + more) ∉ f.declarations.names) :
    f.spareNames (count + more + 1)
      = f.spareNames count ++ [numberedName (f.locals.length + count + more)] := by
  have hsplit : List.range' f.locals.length (count + more + 1)
      = List.range' f.locals.length count
        ++ (List.range' (f.locals.length + count) more
          ++ [f.locals.length + count + more]) := by
    rw [List.range'_concat, ← List.range'_append_1, Nat.one_mul, List.append_assoc,
      Nat.add_assoc]
  have hnone : ((List.range' (f.locals.length + count) more).map numberedName).filter
      (fun name => !f.declarations.names.contains name) = [] := by
    rw [List.filter_eq_nil_iff]
    intro name hname
    obtain ⟨number, hnumber, rfl⟩ := List.mem_map.1 hname
    rw [List.mem_range'_1] at hnumber
    simpa using hused number hnumber.1 hnumber.2
  unfold spareNames
  rw [hsplit, List.map_append, List.map_append, List.filter_append, List.filter_append, hnone]
  simpa using hfree

/-- A function that has gained locals whose names are the first of the supply. -/
structure SparesFor (f g : Function) (temps : Bindings Ty) (count : Nat) : Prop where
  header_eq : g.header = { f.header with locals := f.locals ++ temps }
  names_eq : temps.names = f.spareNames count

/-- Nothing gained. -/
theorem SparesFor.refl (f : Function) : f.SparesFor f [] 0 where
  header_eq := by simp [header]
  names_eq := rfl

theorem SparesFor.declarations_eq {temps : Bindings Ty} (h : f.SparesFor g temps count) :
    g.declarations = f.declarations ++ temps := by
  show g.header.declarations = _
  rw [h.header_eq]
  simp [declarations, header]

/-- A function whose header is the same has gained the same. -/
theorem SparesFor.of_header_eq {temps : Bindings Ty} (h : f.SparesFor g temps count) {g' : Function}
    (hheader : g'.header = g.header) : f.SparesFor g' temps count :=
  ⟨hheader.trans h.header_eq, h.names_eq⟩

/-- What is declared was declared before, or is a name of the supply. -/
theorem SparesFor.mem_names {temps : Bindings Ty} (h : f.SparesFor g temps count) :
    name ∈ g.declarations.names ↔ name ∈ f.declarations.names ∨ name ∈ f.spareNames count := by
  rw [h.declarations_eq, Bindings.names_append, h.names_eq, List.mem_append]

/-- Locals only come, and no more of them than numbers were tried. -/
theorem SparesFor.length_bounds {temps : Bindings Ty} (h : f.SparesFor g temps count) :
    f.locals.length ≤ g.locals.length ∧ g.locals.length ≤ f.locals.length + count := by
  have hlocals : g.locals = f.locals ++ temps := congrArg Function.locals h.header_eq
  have htemps : temps.length = (f.spareNames count).length := by
    rw [← h.names_eq, Bindings.names, List.length_map]
  have hcount : (f.spareNames count).length ≤ count := by
    simpa [spareNames] using List.length_filter_le (fun name =>
      !f.declarations.names.contains name) ((List.range' f.locals.length count).map numberedName)
  rw [hlocals, List.length_append]
  omega

/-- A fresh local takes the next name of the supply. -/
theorem SparesFor.freshLocal {temps : Bindings Ty} (h : f.SparesFor g temps count) (ty : Ty) :
    ∃ count', f.SparesFor (g.freshLocal Lowering.stem ty).2
      (temps ++ [((g.freshLocal Lowering.stem ty).1, ty)]) count' := by
  obtain ⟨hlower, hupper⟩ := h.length_bounds
  have hsearch : CandidateSearch numberedName g.declarations.names (g.unusedName Lowering.stem) :=
    g.unusedName_search Lowering.stem
  obtain ⟨more, -, hname, hused, -⟩ :=
    hsearch.exists_number g.locals.length g.declarations.length
  have hfree : numberedName (g.locals.length + more) ∉ g.declarations.names :=
    hname ▸ g.freshLocal_not_mem Lowering.stem ty
  -- The search starts among the numbers that were tried, but all of these make declared names. So
  -- the name that it finds lies behind them.
  have hle : f.locals.length + count ≤ g.locals.length + more := by
    by_contra hlt
    have hspare : numberedName (g.locals.length + more) ∉ f.declarations.names →
        numberedName (g.locals.length + more) ∈ f.spareNames count := fun hnew =>
      mem_spareNames.2 ⟨⟨g.locals.length + more, by omega, by omega, rfl⟩, hnew⟩
    exact hfree (h.mem_names.2 (or_iff_not_imp_left.2 hspare))
  obtain ⟨between, hbetween⟩ := Nat.exists_eq_add_of_le hle
  -- The numbers in between make names that are declared, and none of the supply has such a number.
  have hpassed : ∀ number, f.locals.length + count ≤ number →
      number < f.locals.length + count + between →
        numberedName number ∈ f.declarations.names := by
    intro number hnumber hlt
    have hdeclared := hused (number - g.locals.length) (by omega)
    rw [Nat.add_sub_cancel' (by omega)] at hdeclared
    refine (h.mem_names.1 hdeclared).resolve_right fun hspare => ?_
    obtain ⟨⟨other, -, hother, heq⟩, -⟩ := mem_spareNames.1 hspare
    have := numberedName_injective heq
    omega
  rw [hbetween] at hfree hname
  refine ⟨count + between + 1, ⟨?_, ?_⟩⟩
  · show { g.header with locals := g.locals ++ [((g.freshLocal Lowering.stem ty).1, ty)] } = _
    have hlocals : g.locals = f.locals ++ temps := congrArg Function.locals h.header_eq
    rw [h.header_eq, hlocals, List.append_assoc]
  · rw [Bindings.names_append, h.names_eq,
      spareNames_succ hpassed fun hdeclared => hfree (h.mem_names.2 (.inl hdeclared))]
    exact congrArg (f.spareNames count ++ [·]) hname

end Function

/-- The names that a guard takes are the next ones of the supply. -/
theorem Lowering.Emits.spares {l l' : Lowering} (h : Emits l l') {f : Function}
    {temps : Bindings Ty} {count : Nat} (hl : f.SparesFor l.function temps count) :
    ∃ temps' count', f.SparesFor l'.function (temps ++ temps') count' ∧
      ∀ instr ∈ l'.instrs, instr ∈ l.instrs ∨
        ∃ name ∈ Bindings.names temps', instr.dest? = some name := by
  -- By induction on what is emitted: each instruction takes the next name of the supply.
  induction h with
  | refl => exact ⟨[], count, by rwa [List.append_nil], fun instr hinstr => .inl hinstr⟩
  | @emit l' op ty result name rhs _ hname hrhs hop ih =>
    obtain ⟨temps', count', hl', hinstrs⟩ := ih
    obtain ⟨count'', hnext⟩ := hl'.freshLocal result
    refine ⟨temps' ++ [((l'.function.freshLocal stem result).1, result)], count'',
      by rwa [← List.append_assoc], fun instr hinstr => ?_⟩
    rcases List.mem_append.1 hinstr with hinstr | hinstr
    · refine (hinstrs instr hinstr).imp_right fun ⟨name, hname, hdest⟩ => ?_
      exact ⟨name, by simp [hname], hdest⟩
    · rw [List.mem_singleton.1 hinstr]
      exact .inr ⟨(l'.function.freshLocal stem result).1, by simp, rfl⟩

end FactGuard
