import FactGuard.Proofs.Program.Fresh
import FactGuard.Proofs.Program.WellFormed

/-!
# The instructions of a guard

A guard is lowered by emitting operations one after another, each into a fresh local
(`Lowering.Emits`). So the function gains locals whose names are new, and the instructions define
exactly these, read only what is declared, and fit the types (`Function.Gains`). `Guard.lower_gains`
says this of a whole guard, and that its result is a truth value that the instructions define.
-/

namespace FactGuard

/-! ## Types of more names -/

/-- An operand has its type wherever its names have the same types. -/
theorem Operand.HasType.congr {types types' : String → Option Ty} {ty : Ty} {operand : Operand}
    (h : operand.HasType types ty) (heq : ∀ name ∈ operand.names, types' name = types name) :
    operand.HasType types' ty := by
  cases operand with
  | place name =>
    have hname : types name = some ty := h
    exact (heq name (by simp [Operand.names])).trans hname
  | constant => trivial

/-- The types of an instruction fit wherever its names have the same types. -/
theorem Instr.FitsTypes.congr {types types' : String → Option Ty} {instr : Instr}
    (h : instr.FitsTypes types) (heq : ∀ name ∈ instr.names, types' name = types name) :
    instr.FitsTypes types' := by
  have hdest : ∀ name, instr.dest? = some name → types' name = types name := fun name hname =>
    heq name (by simp [Instr.names, hname])
  have hop : ∀ operand ∈ instr.operands, ∀ name ∈ operand.names, types' name = types name :=
    fun operand hoperand name hname =>
      heq name (List.mem_append_right _ (List.mem_flatMap.2 ⟨operand, hoperand, hname⟩))
  cases instr with
  | const | call => trivial
  | copy dest src =>
    have hsrc : types src = types dest := h
    show types' src = types' dest
    rw [hdest dest rfl, hop (.place src) (by simp [Instr.operands]) src (by simp [Operand.names]),
      hsrc]
  | binary dest op lhs rhs =>
    obtain ⟨ty, hl, hr, hresult, hconst⟩ := h
    refine ⟨ty, hl.congr (hop lhs (by simp [Instr.operands])),
      hr.congr (hop rhs (by simp [Instr.operands])), ?_, ?_⟩
    · rw [hdest dest rfl, hresult]
    · rw [hdest dest rfl]
      exact hconst
  | unary dest op src =>
    obtain ⟨ty, hs, hresult⟩ := h
    exact ⟨ty, hs.congr (hop src (by simp [Instr.operands])), by rw [hdest dest rfl, hresult]⟩
  | phi dest values =>
    obtain ⟨ty, hresult, hvalues⟩ := h
    refine ⟨ty, by rw [hdest dest rfl, hresult], fun value hvalue => ?_⟩
    exact (hvalues value hvalue).congr (hop value.1 (List.mem_map_of_mem hvalue))
  | cast dest src source target =>
    obtain ⟨hresult, hs, hne⟩ := h
    exact ⟨by rw [hdest dest rfl, hresult], hs.congr (hop src (by simp [Instr.operands])), hne⟩
  | select dest op lhs rhs ifTrue ifFalse =>
    obtain ⟨ty, hresult, htrue, hfalse⟩ := h
    exact ⟨ty, by rw [hdest dest rfl, hresult],
      htrue.congr (hop ifTrue (by simp [Instr.operands])),
      hfalse.congr (hop ifFalse (by simp [Instr.operands]))⟩

/-! ## Gained locals -/

/-- Declarations that grow at their end keep the types of the names declared before. -/
theorem Function.valueType?_of_declarations_eq {f f' : Function} {temps : Bindings Ty}
    (h : f'.declarations = f.declarations ++ temps) {name : String}
    (hname : name ∈ f.declarations.names) : f'.valueType? name = f.valueType? name := by
  obtain ⟨ty, hty⟩ := Option.isSome_iff_exists.1 ((Bindings.isSome_get?_iff _ _).2 hname)
  unfold Function.valueType?
  rw [h, hty, Bindings.get?_append_of_some _ hty]

/-- A function gains locals under new names, and instructions for one of its blocks that define
these, read only what is declared, and fit the types. -/
structure Function.Gains (f f' : Function) (temps : Bindings Ty) (instrs : List Instr) : Prop where
  header_eq : f'.header = { f.header with locals := f.locals ++ temps }
  names_nodup : temps.names.Nodup
  names_not_mem : ∀ name ∈ temps.names, name ∉ f.declarations.names
  dests_eq : instrs.map Instr.dest? = temps.names.map some
  isPhi_eq_false : ∀ instr ∈ instrs, instr.isPhi = false
  instr_names_mem : ∀ instr ∈ instrs, ∀ name ∈ instr.names, name ∈ f'.declarations.names
  fitsTypes : ∀ instr ∈ instrs, instr.FitsTypes f'.valueType?

namespace Function.Gains

variable {f f' : Function} {temps : Bindings Ty} {instrs : List Instr}

/-- Nothing gained. -/
theorem refl (f : Function) : f.Gains f [] [] where
  header_eq := by simp [Function.header]
  names_nodup := by simp
  names_not_mem := by simp
  dests_eq := by simp
  isPhi_eq_false := by simp
  instr_names_mem := by simp
  fitsTypes := by simp

theorem declarations_eq (h : f.Gains f' temps instrs) :
    f'.declarations = f.declarations ++ temps := by
  show f'.header.declarations = _
  rw [h.header_eq]
  simp [Function.declarations, Function.header]

/-- The types of the declared names stay. -/
theorem valueType?_eq (h : f.Gains f' temps instrs) {name : String}
    (hname : name ∈ f.declarations.names) : f'.valueType? name = f.valueType? name :=
  Function.valueType?_of_declarations_eq h.declarations_eq hname

theorem valueType?_of_some (h : f.Gains f' temps instrs) {name : String} {ty : Ty}
    (hname : f.valueType? name = some ty) : f'.valueType? name = some ty := by
  rw [h.valueType?_eq ((Bindings.isSome_get?_iff _ _).1 (Option.isSome_of_eq_some hname)), hname]

theorem mem_names (h : f.Gains f' temps instrs) {name : String}
    (hname : name ∈ f.declarations.names) : name ∈ f'.declarations.names := by
  rw [h.declarations_eq, Bindings.names_append]
  exact List.mem_append_left _ hname

/-- Names stay distinct. -/
theorem nodup (h : f.Gains f' temps instrs) (hf : f.declarations.names.Nodup) :
    f'.declarations.names.Nodup := by
  rw [h.declarations_eq, Bindings.names_append]
  exact List.nodup_append'.2 ⟨hf, h.names_nodup, fun name hname htemp =>
    h.names_not_mem name htemp hname⟩

/-- What is gained in two turns. -/
theorem trans {f'' : Function} {temps' : Bindings Ty} {instrs' : List Instr}
    (h : f.Gains f' temps instrs) (h' : f'.Gains f'' temps' instrs') :
    f.Gains f'' (temps ++ temps') (instrs ++ instrs') where
  header_eq := by
    have hlocals : f'.locals = f.locals ++ temps := congrArg Function.locals h.header_eq
    rw [h'.header_eq, h.header_eq, hlocals, List.append_assoc]
  names_nodup := by
    rw [Bindings.names_append]
    refine List.nodup_append'.2 ⟨h.names_nodup, h'.names_nodup, fun name hname hname' => ?_⟩
    -- The locals gained first are declared when the others are gained.
    apply h'.names_not_mem name hname'
    rw [h.declarations_eq, Bindings.names_append]
    exact List.mem_append_right _ hname
  names_not_mem := by
    intro name hname hdecl
    rw [Bindings.names_append, List.mem_append] at hname
    rcases hname with hname | hname
    · exact h.names_not_mem name hname hdecl
    · exact h'.names_not_mem name hname (h.mem_names hdecl)
  dests_eq := by
    rw [Bindings.names_append, List.map_append, List.map_append, h.dests_eq, h'.dests_eq]
  isPhi_eq_false := by
    intro instr hinstr
    rcases List.mem_append.1 hinstr with hinstr | hinstr
    · exact h.isPhi_eq_false instr hinstr
    · exact h'.isPhi_eq_false instr hinstr
  instr_names_mem := by
    intro instr hinstr name hname
    rcases List.mem_append.1 hinstr with hinstr | hinstr
    · exact h'.mem_names (h.instr_names_mem instr hinstr name hname)
    · exact h'.instr_names_mem instr hinstr name hname
  fitsTypes := by
    intro instr hinstr
    rcases List.mem_append.1 hinstr with hinstr | hinstr
    · exact (h.fitsTypes instr hinstr).congr fun name hname =>
        h'.valueType?_eq (h.instr_names_mem instr hinstr name hname)
    · exact h'.fitsTypes instr hinstr

end Function.Gains

/-- The names of an operand that has a type are declared. -/
theorem Operand.HasType.mem_names {f : Function} {ty : Ty} {operand : Operand}
    (h : operand.HasType f.valueType? ty) :
    ∀ name ∈ operand.names, name ∈ f.declarations.names := by
  intro name hname
  cases operand with
  | place place =>
    rw [Operand.names, List.mem_singleton] at hname
    subst hname
    exact (Bindings.isSome_get?_iff _ _).1 (Option.isSome_of_eq_some h)
  | constant => simp [Operand.names] at hname

/-- A fresh local is found under its type. -/
theorem Function.valueType?_freshLocal (f : Function) (stem : String) (ty : Ty) :
    (f.freshLocal stem ty).2.valueType? (f.freshLocal stem ty).1 = some ty := by
  unfold Function.valueType?
  rw [Function.freshLocal_declarations, Bindings.get?_append,
    (Bindings.get?_eq_none_iff _ _).2 (f.freshLocal_not_mem stem ty)]
  simp [Bindings.get?]

/-- A fresh local, and an operation on a place and an operand of its type that defines it. -/
theorem Function.gains_freshLocal (f : Function) (stem : String) {op : BinOp} {ty result : Ty}
    {name : String} {rhs : Operand} (hname : f.valueType? name = some ty)
    (hrhs : rhs.HasType f.valueType? ty) (hop : op.resultType ty = result) :
    f.Gains (f.freshLocal stem result).2 [((f.freshLocal stem result).1, result)]
      [.binary (f.freshLocal stem result).1 op (.place name) rhs] := by
  have hdecl := f.freshLocal_declarations stem result
  have hmem : ∀ n ∈ f.declarations.names, n ∈ (f.freshLocal stem result).2.declarations.names := by
    intro n hn
    rw [hdecl, Bindings.names_append]
    exact List.mem_append_left _ hn
  have hold : ∀ n ∈ f.declarations.names,
      (f.freshLocal stem result).2.valueType? n = f.valueType? n :=
    fun n hn => Function.valueType?_of_declarations_eq hdecl hn
  have hplace : (Operand.place name).HasType f.valueType? ty := hname
  refine ⟨rfl, by simp, ?_, rfl, by simp [Instr.isPhi], ?_, ?_⟩
  · intro n hn
    rw [Bindings.names_cons, Bindings.names_nil, List.mem_singleton] at hn
    subst hn
    exact f.freshLocal_not_mem stem result
  · intro instr hinstr n hn
    rw [List.mem_singleton.1 hinstr] at hn
    simp only [Instr.names, Instr.dest?, Instr.operands, Option.toList_some, List.flatMap_cons,
      List.flatMap_nil, List.append_nil, List.mem_append, List.mem_singleton] at hn
    rcases hn with rfl | hn | hn
    · rw [hdecl, Bindings.names_append]
      simp
    · exact hmem n (hplace.mem_names n hn)
    · exact hmem n (hrhs.mem_names n hn)
  · intro instr hinstr
    rw [List.mem_singleton.1 hinstr]
    refine ⟨ty, hplace.congr fun n hn => hold n (hplace.mem_names n hn),
      hrhs.congr fun n hn => hold n (hrhs.mem_names n hn), ?_,
      fun h => by simp [Operand.isConstant] at h⟩
    rw [hop]
    exact f.valueType?_freshLocal stem result

namespace Lowering

/-- `l'` was reached from `l` by operations on a place and an operand of its type. -/
inductive Emits : Lowering → Lowering → Prop
  | refl (l : Lowering) : Emits l l
  | emit {l l' : Lowering} {op : BinOp} {ty result : Ty} {name : String} {rhs : Operand}
      (h : Emits l l') (hname : l'.function.valueType? name = some ty)
      (hrhs : rhs.HasType l'.function.valueType? ty) (hop : op.resultType ty = result) :
      Emits l (l'.emit result op (.place name) rhs).2

theorem Emits.trans {a b c : Lowering} (h : Emits a b) (h' : Emits b c) : Emits a c := by
  induction h' with
  | refl => exact h
  | emit _ hname hrhs hop ih => exact .emit ih hname hrhs hop

/-- What has been emitted, instruction by instruction, gains the function its locals. -/
theorem Emits.gains {l l' : Lowering} (h : Emits l l') :
    ∃ temps instrs, l.function.Gains l'.function temps instrs ∧ l'.instrs = l.instrs ++ instrs := by
  induction h with
  | refl => exact ⟨[], [], Function.Gains.refl _, by simp⟩
  | @emit l' op ty result name rhs _ hname hrhs hop ih =>
    obtain ⟨temps, instrs, hg, hinstrs⟩ := ih
    refine ⟨_, _, hg.trans (l'.function.gains_freshLocal stem hname hrhs hop), ?_⟩
    show l'.instrs ++ [_] = _
    rw [hinstrs, List.append_assoc]

/-- The result of an operation is defined by its instruction. -/
theorem mem_defined_emit (l : Lowering) (ty : Ty) (op : BinOp) (lhs rhs : Operand) :
    some (l.emit ty op lhs rhs).1 ∈ (l.emit ty op lhs rhs).2.instrs.map Instr.dest? := by
  simp [emit, Instr.dest?]

/-- The result of an operation has the type asked for. -/
theorem valueType?_emit (l : Lowering) (ty : Ty) (op : BinOp) (lhs rhs : Operand) :
    (l.emit ty op lhs rhs).2.function.valueType? (l.emit ty op lhs rhs).1 = some ty :=
  l.function.valueType?_freshLocal stem ty

/-- `l'` was reached from `l`, and `r` is a truth value that its instructions define. -/
structure Yields (l l' : Lowering) (r : String) : Prop where
  emits : Emits l l'
  valueType? : l'.function.valueType? r = some .bool
  mem_defined : some r ∈ l'.instrs.map Instr.dest?

variable {l : Lowering} {value : String} {ty : Ty}

/-- Types stay while operations are emitted. -/
theorem Emits.valueType? {l l' : Lowering} (h : Emits l l') {name : String} {ty : Ty}
    (hname : l.function.valueType? name = some ty) : l'.function.valueType? name = some ty := by
  obtain ⟨temps, instrs, hg, -⟩ := h.gains
  exact hg.valueType?_of_some hname

theorem yields_compare (hvalue : l.function.valueType? value = some ty) (op : BinOp)
    (hop : op.resultType ty = .bool) (constant : Nat) :
    Yields l (l.compare value op constant).2 (l.compare value op constant).1 :=
  ⟨.emit (.refl l) hvalue trivial hop, valueType?_emit .., mem_defined_emit ..⟩

theorem yields_combine {a b : String} (ha : l.function.valueType? a = some .bool)
    (hb : l.function.valueType? b = some .bool) (op : BinOp) (hop : op.resultType .bool = .bool) :
    Yields l (l.combine op a b).2 (l.combine op a b).1 :=
  ⟨.emit (.refl l) ha hb hop, valueType?_emit .., mem_defined_emit ..⟩

theorem yields_maskedDiffers (hvalue : l.function.valueType? value = some ty)
    (mask expected : Nat) :
    Yields l (l.maskedDiffers value ty mask expected).2
      (l.maskedDiffers value ty mask expected).1 :=
  ⟨.emit (.emit (.refl l) hvalue trivial rfl) (valueType?_emit ..) trivial rfl,
    valueType?_emit .., mem_defined_emit ..⟩

theorem yields_compareBoth (hvalue : l.function.valueType? value = some ty) {op : BinOp}
    (hop : op.resultType .bool = .bool) (lower upper : Nat) :
    Yields l (l.compareBoth value op lower upper).2 (l.compareBoth value op lower upper).1 := by
  have hbelow := yields_compare hvalue .ult rfl lower
  have habove := yields_compare (hbelow.emits.valueType? hvalue) .uge rfl upper
  have hboth := yields_combine (habove.emits.valueType? hbelow.valueType?) habove.valueType? op hop
  exact ⟨(hbelow.emits.trans habove.emits).trans hboth.emits, hboth.valueType?, hboth.mem_defined⟩

theorem yields_term (hvalue : l.function.valueType? value = some ty) (t : Term) :
    Yields l (l.term value ty t).2 (l.term value ty t).1 := by
  cases t with
  | outsideRange lower upper =>
    unfold term
    dsimp only
    split_ifs
    · exact yields_compare hvalue .uge rfl upper
    · exact yields_compareBoth hvalue rfl lower upper
  | insideGap lower upper =>
    unfold term
    dsimp only
    split_ifs
    · exact yields_compare hvalue .ult rfl lower
    · exact yields_compareBoth hvalue rfl lower upper
  | forcedZeroSet mask => exact yields_maskedDiffers hvalue mask 0
  | forcedOneClear mask => exact yields_maskedDiffers hvalue mask mask

/-- Combining further terms keeps a truth value. -/
theorem yields_furtherTerms {start : Lowering} {result : String} (terms : List Term)
    (h : Yields start l result) (hvalue : l.function.valueType? value = some ty) :
    Yields start (l.furtherTerms value ty result terms).2
      (l.furtherTerms value ty result terms).1 := by
  induction terms generalizing l result with
  | nil => exact h
  | cons t rest ih =>
    -- The result so far and that of the term are truth values, and so is the combined one.
    have hnext := yields_term hvalue t
    have hboth := yields_combine (hnext.emits.valueType? h.valueType?) hnext.valueType? .or
      rfl
    refine ih ⟨(h.emits.trans hnext.emits).trans hboth.emits, hboth.valueType?,
      hboth.mem_defined⟩ ?_
    exact hboth.emits.valueType? (hnext.emits.valueType? hvalue)

end Lowering

namespace Guard

variable {guard : Guard} {value : String} {ty : Ty} {f : Function}

/-- A guard with terms is lowered by emitting operations, and its result is a truth value that they
define. -/
theorem lower_yields (hterms : guard.terms ≠ []) (hvalue : f.valueType? value = some ty) :
    ∃ result, (guard.lower value ty f).2 = .place result ∧
      Lowering.Yields ⟨f, []⟩ (guard.lower value ty f).1 result := by
  cases hcase : guard.terms with
  | nil => exact absurd hcase hterms
  | cons t rest =>
    have hfirst := Lowering.yields_term (l := ⟨f, []⟩) hvalue t
    have hall := Lowering.yields_furtherTerms rest hfirst (hfirst.emits.valueType? hvalue)
    unfold Guard.lower
    rw [hcase]
    exact ⟨_, rfl, hall⟩

/-- The instructions of a guard with terms gain the function their locals, and the result is a truth
value that they define. -/
theorem lower_gains (hterms : guard.terms ≠ []) (hvalue : f.valueType? value = some ty) :
    ∃ temps result,
      f.Gains (guard.lower value ty f).1.function temps (guard.lower value ty f).1.instrs ∧
      (guard.lower value ty f).2 = .place result ∧
      (guard.lower value ty f).1.function.valueType? result = some .bool ∧
      some result ∈ (guard.lower value ty f).1.instrs.map Instr.dest? := by
  obtain ⟨result, hresult, hyields⟩ := lower_yields hterms hvalue
  obtain ⟨temps, instrs, hg, hinstrs⟩ := hyields.emits.gains
  rw [List.nil_append] at hinstrs
  exact ⟨temps, result, by rw [hinstrs]; exact hg, hresult, hyields.valueType?,
    hyields.mem_defined⟩

/-- Computing a term leaves the blocks of the function alone. -/
theorem blocks_term (l : Lowering) (t : Term) :
    (l.term value ty t).2.function.blocks = l.function.blocks := by
  cases t with
  | outsideRange lower upper =>
    unfold Lowering.term
    dsimp only
    split_ifs <;> rfl
  | insideGap lower upper =>
    unfold Lowering.term
    dsimp only
    split_ifs <;> rfl
  | forcedZeroSet mask => rfl
  | forcedOneClear mask => rfl

/-- Combining further terms leaves the blocks of the function alone. -/
theorem blocks_furtherTerms (l : Lowering) (result : String) (terms : List Term) :
    (l.furtherTerms value ty result terms).2.function.blocks = l.function.blocks := by
  induction terms generalizing l result with
  | nil => rfl
  | cons t rest ih => exact (ih _ _).trans (blocks_term l t)

/-- Lowering a guard leaves the blocks of the function alone. -/
theorem blocks_lower : (guard.lower value ty f).1.function.blocks = f.blocks := by
  unfold Guard.lower
  cases guard.terms with
  | nil => rfl
  | cons t rest => exact (blocks_furtherTerms _ _ rest).trans (blocks_term _ t)

end Guard

end FactGuard
