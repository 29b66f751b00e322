import FactGuard.Proofs.Machine.Passage

/-!
# What a step depends on

What an instruction computes depends on the types and the values of the names that it mentions, and
on nothing else of the code and the store (`Code.define_congr`); so it is with the terminator
(`State.exit_congr`). What phis take depends on the labels that they name only through which of them
is the block where control comes from (`Code.phiValues_relabel`).
-/

namespace FactGuard

/-- The error with other labels. -/
def EvalError.relabel (home : String → String) : EvalError → EvalError
  | unknownBlock label => unknownBlock (home label)
  | missingPhiEdge value pred => missingPhiEdge value (home pred)
  | unreachableExecuted block => unreachableExecuted (home block)
  | e => e

/-- Two codes have the same types for names. -/
def Code.SameTypes (names : List String) (code code' : Code) : Prop :=
  ∀ name ∈ names, code'.typeOf name = code.typeOf name

/-- Two stores hold the same values for names. -/
def Store.Same (names : List String) (store store' : Store) : Prop :=
  ∀ name ∈ names, store'.get? name = store.get? name

/-- The error of a computation in two parts, changed, is that of either part, changed. -/
theorem mapError_bind {ε ε' α β : Type} (change : ε → ε') (x : Except ε α) (next : α → Except ε β) :
    (x >>= next).mapError change = x.mapError change >>= fun a => (next a).mapError change := by
  cases x <;> rfl

/-- A result stays when errors are changed. -/
theorem mapError_eq_ok_iff {ε ε' α : Type} {change : ε → ε'} {x : Except ε α} {a : α} :
    x.mapError change = .ok a ↔ x = .ok a := by
  cases x <;> simp [Except.mapError]

/-- A changed error comes from an error. -/
theorem mapError_eq_error_iff {ε ε' α : Type} {change : ε → ε'} {x : Except ε α} {e' : ε'} :
    x.mapError change = .error e' ↔ ∃ e, x = .error e ∧ change e = e' := by
  cases x <;> simp [Except.mapError]

/-! ## Errors without labels -/

namespace EvalError

variable (home : String → String) (code : Code) (store : Store)

@[simp] theorem mapError_pure {α : Type} (a : α) :
    (pure a : Except EvalError α).mapError (relabel home) = pure a := rfl

@[simp] theorem mapError_typeOf (name : String) :
    (code.typeOf name).mapError (relabel home) = code.typeOf name := by
  unfold Code.typeOf
  cases code.types.last? name <;> rfl

@[simp] theorem mapError_read (name : String) :
    (store.read name).mapError (relabel home) = store.read name := by
  unfold Store.read
  cases store.get? name <;> rfl

@[simp] theorem mapError_operand (ty : Ty) (operand : Operand) :
    (store.operand ty operand).mapError (relabel home) = store.operand ty operand := by
  cases operand with
  | place name => exact mapError_read home store name
  | constant value => rfl

@[simp] theorem mapError_operandType (default : Ty) (operand : Operand) :
    (code.operandType default operand).mapError (relabel home)
      = code.operandType default operand := by
  cases operand with
  | place name => exact mapError_typeOf home code name
  | constant value => rfl

@[simp] theorem mapError_binaryType (dest : String) (op : BinOp) (lhs rhs : Operand) :
    (code.binaryType dest op lhs rhs).mapError (relabel home)
      = code.binaryType dest op lhs rhs := by
  unfold Code.binaryType
  cases lhs with
  | place name => exact mapError_typeOf home code name
  | constant value =>
    cases rhs with
    | place name => exact mapError_typeOf home code name
    | constant value' =>
      dsimp only
      split_ifs
      · rfl
      · exact mapError_typeOf home code dest

@[simp] theorem mapError_binary (dest : String) (op : BinOp) (lhs rhs : Operand) :
    (code.binary store dest op lhs rhs).mapError (relabel home)
      = code.binary store dest op lhs rhs := by
  unfold Code.binary
  simp only [mapError_bind, mapError_binaryType, mapError_operand]
  refine bind_congr fun ty => bind_congr fun a => bind_congr fun b => ?_
  cases op.apply ty a b with
  | ok value => rfl
  | error fault => cases fault <;> rfl

/-- No label stands in the error of an instruction other than a phi. -/
theorem mapError_define (label : String) {instr : Instr} (hphi : instr.isPhi = false) :
    (code.define label store instr).mapError (relabel home) = code.define label store instr := by
  cases instr with
  | call dest callee args tail => rfl
  | phi dest values => cases hphi
  | _ => simp only [Code.define, mapError_bind, mapError_typeOf, mapError_read, mapError_operand,
      mapError_operandType, mapError_binary, mapError_pure]

end EvalError

/-! ## The same types and values -/

variable {names : List String} {code code' : Code} {store store' : Store}

theorem Code.SameTypes.mono (h : Code.SameTypes names code code') {fewer : List String}
    (hsub : ∀ name ∈ fewer, name ∈ names) : Code.SameTypes fewer code code' :=
  fun name hname => h name (hsub name hname)

namespace Store.Same

theorem mono (h : Store.Same names store store') {fewer : List String}
    (hsub : ∀ name ∈ fewer, name ∈ names) : Store.Same fewer store store' :=
  fun name hname => h name (hsub name hname)

theorem trans {store'' : Store} (h : Store.Same names store store')
    (h' : Store.Same names store' store'') : Store.Same names store store'' :=
  fun name hname => (h' name hname).trans (h name hname)

/-- Binding a name to the same value keeps values the same. -/
theorem insert (h : Store.Same names store store') (dest : String) (v : Nat) :
    Store.Same names (store.insert dest v) (store'.insert dest v) := by
  intro name hname
  rw [Bindings.get?_insert, Bindings.get?_insert, h name hname]

theorem insertAll (h : Store.Same names store store') (values : List (String × Nat)) :
    Store.Same names (store.insertAll values) (store'.insertAll values) := by
  induction values generalizing store store' with
  | nil => exact h
  | cons entry rest ih => exact ih (h.insert entry.1 entry.2)

theorem read (h : Store.Same names store store') {name : String} (hname : name ∈ names) :
    store'.read name = store.read name := by
  unfold Store.read
  rw [h name hname]

/-- The value of an operand depends on the names that it mentions. -/
theorem operand (h : Store.Same names store store') (ty : Ty) {operand : Operand}
    (hnames : ∀ name ∈ operand.names, name ∈ names) :
    store'.operand ty operand = store.operand ty operand := by
  cases operand with
  | place name => exact h.read (hnames name (List.mem_singleton_self name))
  | constant value => rfl

end Store.Same

namespace Code

theorem SameTypes.operandType (h : SameTypes names code code') (default : Ty) {operand : Operand}
    (hnames : ∀ name ∈ operand.names, name ∈ names) :
    code'.operandType default operand = code.operandType default operand := by
  cases operand with
  | place name => exact h name (hnames name (List.mem_singleton_self name))
  | constant value => rfl

theorem SameTypes.binaryType (h : SameTypes names code code') {dest : String} (hdest : dest ∈ names)
    (op : BinOp) {lhs rhs : Operand} (hlhs : ∀ name ∈ lhs.names, name ∈ names)
    (hrhs : ∀ name ∈ rhs.names, name ∈ names) :
    code'.binaryType dest op lhs rhs = code.binaryType dest op lhs rhs := by
  cases lhs with
  | place name => exact h name (hlhs name (List.mem_singleton_self name))
  | constant value =>
    cases rhs with
    | place name => exact h name (hrhs name (List.mem_singleton_self name))
    | constant value' =>
      unfold Code.binaryType
      dsimp only
      rw [h dest hdest]

/-- The result of an operation depends on the names that it mentions. -/
theorem binary_congr (htypes : SameTypes names code code') (hstore : Store.Same names store store')
    {dest : String} (hdest : dest ∈ names) (op : BinOp) {lhs rhs : Operand}
    (hlhs : ∀ name ∈ lhs.names, name ∈ names) (hrhs : ∀ name ∈ rhs.names, name ∈ names) :
    code'.binary store' dest op lhs rhs = code.binary store dest op lhs rhs := by
  unfold Code.binary
  rw [htypes.binaryType hdest op hlhs hrhs]
  simp only [hstore.operand _ hlhs, hstore.operand _ hrhs]

/-- What an instruction other than a phi computes depends on the names that it mentions. -/
theorem define_congr {instr : Instr} (htypes : SameTypes instr.names code code')
    (hstore : Store.Same instr.names store store') (hphi : instr.isPhi = false)
    (label label' : String) :
    code'.define label' store' instr = code.define label store instr := by
  have hdest : ∀ dest, instr.dest? = some dest → dest ∈ instr.names := fun dest h => by
    simp [Instr.names, h]
  have hoperand : ∀ operand ∈ instr.operands, ∀ name ∈ operand.names, name ∈ instr.names :=
    fun operand h name hname =>
      List.mem_append_right _ (List.mem_flatMap.2 ⟨operand, h, hname⟩)
  cases instr with
  | const dest value =>
    simp only [Code.define, htypes dest (hdest dest rfl)]
  | copy dest src =>
    have hsrc : src ∈ (Instr.copy dest src).names :=
      hoperand (.place src) (by simp [Instr.operands]) src (List.mem_singleton_self src)
    simp only [Code.define, hstore.read hsrc]
  | binary dest op lhs rhs =>
    have hbinary := binary_congr htypes hstore (hdest dest rfl) op
      (hoperand lhs (by simp [Instr.operands])) (hoperand rhs (by simp [Instr.operands]))
    simp only [Code.define, hbinary]
  | unary dest op src =>
    have hsrc := hoperand src (by simp [Instr.operands])
    simp only [Code.define, htypes dest (hdest dest rfl), htypes.operandType _ hsrc,
      hstore.operand _ hsrc]
  | call dest callee args tail => rfl
  | phi dest values => cases hphi
  | cast dest src source target =>
    have hsrc := hoperand src (by simp [Instr.operands])
    simp only [Code.define, hstore.operand source hsrc]
  | select dest op lhs rhs ifTrue ifFalse =>
    have hbinary := binary_congr htypes hstore (hdest dest rfl) op
      (hoperand lhs (by simp [Instr.operands])) (hoperand rhs (by simp [Instr.operands]))
    have harm : ∀ (cond : Nat) (ty : Ty), store'.operand ty (if cond ≠ 0 then ifTrue else ifFalse)
        = store.operand ty (if cond ≠ 0 then ifTrue else ifFalse) := by
      intro cond ty
      split_ifs
      · exact hstore.operand ty (hoperand ifTrue (by simp [Instr.operands]))
      · exact hstore.operand ty (hoperand ifFalse (by simp [Instr.operands]))
    simp only [Code.define, hbinary, htypes dest (hdest dest rfl), harm]

/-! ## Phis -/

/-- The entry of a phi for a block, after the labels were changed. -/
theorem find?_relabel {rename : String → String} {pred pred' : String}
    (values : List (Operand × String))
    (hpred : ∀ label ∈ values.map Prod.snd, rename label = pred' ↔ label = pred) :
    (values.map fun value => (value.1, rename value.2)).find? (·.2 == pred')
      = (values.find? (·.2 == pred)).map fun value => (value.1, rename value.2) := by
  induction values with
  | nil => rfl
  | cons value rest ih =>
    have hiff := hpred value.2 (by simp)
    have hrest := ih fun label hlabel => hpred label (List.mem_cons_of_mem _ hlabel)
    -- The first entry is the one sought exactly if it was before the change.
    have hsame : (rename value.2 == pred') = (value.2 == pred) := by
      rw [Bool.eq_iff_iff, beq_iff_eq, beq_iff_eq]
      exact hiff
    rw [List.map_cons, List.find?_cons, List.find?_cons, hsame]
    cases value.2 == pred with
    | true => rfl
    | false => exact hrest

variable {home rename : String → String} {pred pred' : String}

/-- What a phi takes does not change with its labels. -/
theorem phiValue_relabel (htypes : SameTypes names code code')
    (hstore : Store.Same names store store') (hhome : home pred' = pred) {dest : String}
    {values : List (Operand × String)} (hdest : dest ∈ names)
    (hoperands : ∀ value ∈ values, ∀ name ∈ value.1.names, name ∈ names)
    (hlabels : ∀ label ∈ values.map Prod.snd, rename label = pred' ↔ label = pred) :
    (code'.phiValue pred' store' dest (values.map fun value => (value.1, rename value.2))).mapError
        (EvalError.relabel home)
      = code.phiValue pred store dest values := by
  unfold Code.phiValue
  rw [find?_relabel values hlabels]
  cases hentry : values.find? (·.2 == pred) with
  | none =>
    show Except.error (EvalError.missingPhiEdge dest (home pred')) = _
    rw [hhome]
  | some entry =>
    have hoperand := hoperands entry (List.mem_of_find?_eq_some hentry)
    dsimp only [Option.map_some]
    rw [htypes dest hdest]
    simp only [hstore.operand _ hoperand]
    simp only [mapError_bind, EvalError.mapError_typeOf, EvalError.mapError_operand,
      EvalError.mapError_pure]

/-- What phis take does not change with their labels, as long as the label of the block where
control comes from changes alike. The label in an error is the new one. -/
theorem phiValues_relabel (htypes : SameTypes names code code')
    (hstore : Store.Same names store store') (hhome : home pred' = pred) (instrs : List Instr)
    (hnames : ∀ instr ∈ instrs, ∀ name ∈ instr.names, name ∈ names)
    (hlabels : ∀ instr ∈ instrs, ∀ label ∈ instr.phiLabels, rename label = pred' ↔ label = pred) :
    (code'.phiValues pred' store' (instrs.map (Instr.relabel rename))).mapError
        (EvalError.relabel home)
      = code.phiValues pred store instrs := by
  induction instrs with
  | nil => rfl
  | cons instr rest ih =>
    have hrest := ih (fun other hother => hnames other (List.mem_cons_of_mem _ hother))
      (fun other hother => hlabels other (List.mem_cons_of_mem _ hother))
    cases instr with
    | phi dest values =>
      have hmem := hnames _ List.mem_cons_self
      have hfirst := phiValue_relabel htypes hstore hhome
        (hmem dest (by simp [Instr.names, Instr.dest?]))
        (fun value hvalue name hname => hmem name (List.mem_append_right _
          (List.mem_flatMap.2 ⟨value.1, List.mem_map_of_mem hvalue, hname⟩)))
        (hlabels _ List.mem_cons_self)
      rw [List.map_cons, Instr.relabel]
      unfold Code.phiValues
      -- The first phi takes what it took, and the others do by induction.
      rw [mapError_bind, hfirst]
      refine congrArg (code.phiValue pred store dest values >>= ·) (funext fun value => ?_)
      rw [mapError_bind, hrest]
      rfl
    | _ => rfl

end Code

/-! ## Terminators -/

/-- Where a terminator leads depends on the names that it mentions, up to the label of the block. -/
theorem State.exit_congr {s t : State} {home : String → String}
    (htypes : Code.SameTypes s.terminator.names code code') (hresult : code'.result = code.result)
    (hstore : Store.Same s.terminator.names s.store t.store)
    (hterminator : t.terminator = s.terminator) (hlabel : home t.label = s.label) :
    (t.exit code').mapError (EvalError.relabel home) = s.exit code := by
  have hoperand : ∀ operand ∈ s.terminator.operands, ∀ name ∈ operand.names,
      name ∈ s.terminator.names :=
    fun operand h name hname => List.mem_flatMap.2 ⟨operand, h, hname⟩
  unfold State.exit
  rw [hterminator, hresult]
  generalize s.terminator = terminator at htypes hstore hoperand ⊢
  cases terminator with
  | ret value =>
    cases value with
    | none => rfl
    | some value =>
      have hvalue := hoperand value (by simp [Terminator.operands])
      simp only [hstore.operand _ hvalue, mapError_bind, EvalError.mapError_operand,
        EvalError.mapError_pure]
  | goto target => rfl
  | branch cond ifTrue ifFalse =>
    have hcond := hoperand cond (by simp [Terminator.operands])
    simp only [hstore.operand _ hcond, mapError_bind, EvalError.mapError_operand,
      EvalError.mapError_pure]
  | unreachable =>
    show Except.error (EvalError.unreachableExecuted (home t.label)) = _
    rw [hlabel]
  | switch value cases default =>
    have hvalue := hoperand value (by simp [Terminator.operands])
    simp only [htypes.operandType _ hvalue, hstore.operand _ hvalue, mapError_bind,
      EvalError.mapError_operandType, EvalError.mapError_operand, EvalError.mapError_pure]

/-- A terminator ends a run only by a return. -/
theorem State.exists_returned_of_exit {s : State} {outcome : Outcome}
    (h : s.exit code = .ok (.leave outcome)) : ∃ value, outcome = .returned value := by
  rcases exit_eq_leave h with ⟨-, rfl⟩ | ⟨operand, v, -, -, rfl⟩
  · exact ⟨none, rfl⟩
  · exact ⟨some v, rfl⟩

/-- A terminator leads to one of its successors. -/
theorem State.mem_successors_of_exit {s : State} {target : String}
    (h : s.exit code = .ok (.jump target)) : target ∈ s.terminator.successors := by
  unfold State.exit at h
  generalize s.terminator = terminator at h ⊢
  cases terminator with
  | ret value =>
    cases value with
    | none => cases h
    | some value =>
      obtain ⟨_, -, h⟩ := bind_eq_ok.1 h
      cases h
  | goto label =>
    cases h
    exact List.mem_singleton_self _
  | branch cond ifTrue ifFalse =>
    obtain ⟨value, -, h⟩ := bind_eq_ok.1 h
    cases h
    rw [Terminator.successors]
    split_ifs <;> simp
  | unreachable => cases h
  | switch operand cases default =>
    obtain ⟨ty, -, h⟩ := bind_eq_ok.1 h
    obtain ⟨value, -, h⟩ := bind_eq_ok.1 h
    cases h
    rw [Terminator.successors, List.mem_append, List.mem_singleton]
    cases hfind : cases.find? fun entry => ty.wrapInt entry.1 == value with
    | none => exact .inr rfl
    | some entry => exact .inl (List.mem_map_of_mem (List.mem_of_find?_eq_some hfind))

end FactGuard
