import FactGuard.Proofs.Machine.Arith
import FactGuard.Proofs.Program.WellFormed
import FactGuard.Machine.Run

/-!
# Values are words of their types

A store is typed if every value that it holds is a word of the declared type of its name
(`Store.Typed`). In a typed function, what an instruction or a phi computes from a typed store is
again a word of the type of its name (`Function.Typed.define_lt`, `Function.Typed.phiValues_lt`).
-/

namespace FactGuard

/-- A computation in two parts succeeds if both parts do. -/
theorem bind_eq_ok {ε α β : Type} {x : Except ε α} {next : α → Except ε β} {b : β} :
    x >>= next = .ok b ↔ ∃ a, x = .ok a ∧ next a = .ok b := by
  cases x with
  | error e => exact ⟨fun h => (nomatch h), fun ⟨_, h, _⟩ => (nomatch h)⟩
  | ok a => exact ⟨fun h => ⟨a, rfl, h⟩, fun ⟨_, h, h'⟩ => by cases h; exact h'⟩

theorem map_eq_ok {ε α β : Type} {x : Except ε α} {change : α → β} {b : β} :
    x.map change = .ok b ↔ ∃ a, x = .ok a ∧ change a = b := by
  cases x <;> simp [Except.map]

theorem map_eq_error {ε α β : Type} {x : Except ε α} {change : α → β} {e : ε} :
    x.map change = .error e ↔ x = .error e := by
  cases x <;> simp [Except.map]

/-! ## Stores -/

namespace Store

variable {store : Store} {types : String → Option Ty} {name : String} {v : Nat}

/-- Every value held is a word of the type of its name. -/
def Typed (store : Store) (types : String → Option Ty) : Prop :=
  ∀ name v, store.get? name = some v → ∃ ty, types name = some ty ∧ v < modulus ty.bits

theorem read_eq_ok_iff : store.read name = .ok v ↔ store.get? name = some v := by
  unfold Store.read
  cases store.get? name with
  | none => exact ⟨fun h => (nomatch h), fun h => (nomatch h)⟩
  | some value => exact ⟨fun h => by cases h; rfl, fun h => by cases h; rfl⟩

/-- A name holds the value bound to it last. -/
theorem get?_insertAll {values : List (String × Nat)}
    (h : (store.insertAll values).get? name = some v) :
    (name, v) ∈ values ∨ store.get? name = some v := by
  induction values generalizing store with
  | nil => exact .inr h
  | cons entry rest ih =>
    have hrest : (Store.insertAll (store.insert entry.1 entry.2) rest).get? name = some v := h
    rcases ih hrest with hmem | hget
    · exact .inl (List.mem_cons_of_mem _ hmem)
    · rw [Bindings.get?_insert] at hget
      split_ifs at hget with hname
      · cases hget
        exact .inl (by rw [← hname]; exact List.mem_cons_self)
      · exact .inr hget

/-- A name that is not bound holds what it held. -/
theorem get?_insertAll_of_forall {values : List (String × Nat)}
    (h : ∀ value, (name, value) ∉ values) :
    (store.insertAll values).get? name = store.get? name := by
  induction values generalizing store with
  | nil => rfl
  | cons entry rest ih =>
    have hne : entry.1 ≠ name := fun heq => h entry.2 (heq ▸ List.mem_cons_self)
    calc (store.insertAll (entry :: rest)).get? name
        = Bindings.get? (store.insert entry.1 entry.2) name :=
          ih fun value hvalue => h value (List.mem_cons_of_mem _ hvalue)
      _ = store.get? name := by rw [Bindings.get?_insert, if_neg hne]

theorem Typed.insert (hstore : store.Typed types)
    (hv : ∃ ty, types name = some ty ∧ v < modulus ty.bits) :
    Store.Typed (store.insert name v) types := by
  intro other value h
  rw [Bindings.get?_insert] at h
  split_ifs at h with hname
  · cases h
    rwa [← hname]
  · exact hstore other value h

theorem Typed.insertAll (hstore : store.Typed types) {values : List (String × Nat)}
    (hvalues : ∀ entry ∈ values, ∃ ty, types entry.1 = some ty ∧ entry.2 < modulus ty.bits) :
    (store.insertAll values).Typed types := by
  intro name v h
  rcases get?_insertAll h with hmem | hget
  · exact hvalues _ hmem
  · exact hstore name v hget

/-- The value of an operand is a word of the operand's type. -/
theorem Typed.operand_lt (hstore : store.Typed types) {ty : Ty} {operand : Operand}
    (hty : operand.HasType types ty) (h : store.operand ty operand = .ok v) :
    v < modulus ty.bits := by
  cases operand with
  | place name =>
    obtain ⟨ty', hty', hlt⟩ := hstore name v (read_eq_ok_iff.1 h)
    cases hty.symm.trans hty'
    exact hlt
  | constant value =>
    cases h
    exact value.pattern_lt ty

end Store

/-! ## Typed functions -/

namespace Function

variable {f : Function} {i : Interpreter} {store : Store} {label dest : String} {v : Nat}

/-- The machine finds the declared types, where no name is declared twice. -/
theorem typeOf_eq_ok_iff (hnames : f.declarations.names.Nodup) {name : String} {ty : Ty} :
    (i.code f).typeOf name = .ok ty ↔ f.valueType? name = some ty := by
  have hlast : f.declarations.last? name = f.valueType? name := Bindings.last?_eq_get? hnames name
  unfold Code.typeOf
  rw [show (i.code f).types = f.declarations from rfl, hlast]
  cases f.valueType? name with
  | none => exact ⟨fun h => (nomatch h), fun h => (nomatch h)⟩
  | some ty' => exact ⟨fun h => by cases h; rfl, fun h => by cases h; rfl⟩

theorem Typed.typeOf_eq_ok_iff (hf : f.Typed) {name : String} {ty : Ty} :
    (i.code f).typeOf name = .ok ty ↔ f.valueType? name = some ty :=
  Function.typeOf_eq_ok_iff hf.names_nodup

/-- The type at which a well-typed operation is computed is that of both of its operands. -/
theorem Typed.exists_binaryType (hf : f.Typed) {op : BinOp} {lhs rhs : Operand}
    (hfits : (Instr.binary dest op lhs rhs).FitsTypes f.valueType?) :
    ∃ ty, (i.code f).binaryType dest op lhs rhs = .ok ty ∧ lhs.HasType f.valueType? ty ∧
      rhs.HasType f.valueType? ty ∧ f.valueType? dest = some (op.resultType ty) := by
  obtain ⟨ty, hlhs, hrhs, hdest, hconstants⟩ := hfits
  cases lhs with
  | place name => exact ⟨ty, hf.typeOf_eq_ok_iff.2 hlhs, hlhs, hrhs, hdest⟩
  | constant value =>
    cases rhs with
    | place name => exact ⟨ty, hf.typeOf_eq_ok_iff.2 hrhs, hlhs, hrhs, hdest⟩
    | constant value' =>
      -- Two constants are compared as 64-bit words, and else computed at the type of the result.
      cases hcomparison : op.isComparison with
      | true =>
        refine ⟨.i64, if_pos hcomparison, trivial, trivial, ?_⟩
        rw [hdest]
        cases op <;> first | rfl | cases hcomparison
      | false =>
        refine ⟨ty, ?_, trivial, trivial, hdest⟩
        have hne : ¬op.isComparison = true := by simp [hcomparison]
        exact (if_neg hne).trans (hf.typeOf_eq_ok_iff.2 (hconstants rfl rfl hcomparison))

end Function

/-- What an operation computes, in parts. -/
theorem Code.define_binary_eq_ok {code : Code} {store : Store} {label dest : String} {op : BinOp}
    {lhs rhs : Operand} {ty : Ty} {a b v : Nat} (hty : code.binaryType dest op lhs rhs = .ok ty)
    (ha : store.operand ty lhs = .ok a) (hb : store.operand ty rhs = .ok b)
    (hv : op.apply ty a b = .ok v) :
    code.define label store (.binary dest op lhs rhs) = .ok (dest, v) := by
  have hbinary : code.binary store dest op lhs rhs = .ok v := by
    refine bind_eq_ok.2 ⟨ty, hty, bind_eq_ok.2 ⟨a, ha, bind_eq_ok.2 ⟨b, hb, ?_⟩⟩⟩
    rw [hv]
    rfl
  exact bind_eq_ok.2 ⟨v, hbinary, rfl⟩

/-- An operation computes from the values of its operands. -/
theorem Code.exists_of_binary_eq_ok {code : Code} {store : Store} {dest : String} {op : BinOp}
    {lhs rhs : Operand} {v : Nat} (h : code.binary store dest op lhs rhs = .ok v) :
    ∃ ty a b, code.binaryType dest op lhs rhs = .ok ty ∧ store.operand ty lhs = .ok a ∧
      store.operand ty rhs = .ok b ∧ op.apply ty a b = .ok v := by
  obtain ⟨ty, hty, h⟩ := bind_eq_ok.1 h
  obtain ⟨a, ha, h⟩ := bind_eq_ok.1 h
  obtain ⟨b, hb, h⟩ := bind_eq_ok.1 h
  refine ⟨ty, a, b, hty, ha, hb, ?_⟩
  cases happly : op.apply ty a b with
  | ok value =>
    rw [happly] at h
    cases h
    rfl
  | error fault =>
    rw [happly] at h
    cases fault <;> cases h

/-- An instruction computes a value for its name, from the values of its operands and from the types
of its names. A call and a phi compute none. -/
inductive Code.Computes (code : Code) (store : Store) : Instr → String → Nat → Prop
  | const {dest : String} {value : Constant} {ty : Ty} (hty : code.typeOf dest = .ok ty) :
    Computes code store (.const dest value) dest (value.pattern ty)
  | copy {dest src : String} {v : Nat} (hread : store.read src = .ok v) :
    Computes code store (.copy dest src) dest v
  | binary {dest : String} {op : BinOp} {lhs rhs : Operand} {v : Nat}
    (hbinary : code.binary store dest op lhs rhs = .ok v) :
    Computes code store (.binary dest op lhs rhs) dest v
  | unary {dest : String} {op : UnOp} {src : Operand} {ty source : Ty} {a : Nat}
    (hty : code.typeOf dest = .ok ty) (hsource : code.operandType ty src = .ok source)
    (ha : store.operand source src = .ok a) :
    Computes code store (.unary dest op src) dest (op.apply ty a)
  | cast {dest : String} {src : Operand} {source target : Ty} {a : Nat}
    (ha : store.operand source src = .ok a) :
    Computes code store (.cast dest src source target) dest (convert source target a)
  | select {dest : String} {op : BinOp} {lhs rhs ifTrue ifFalse : Operand} {cond : Nat} {ty : Ty}
    {v : Nat} (hcond : code.binary store dest op lhs rhs = .ok cond)
    (hty : code.typeOf dest = .ok ty)
    (hv : store.operand ty (if cond ≠ 0 then ifTrue else ifFalse) = .ok v) :
    Computes code store (.select dest op lhs rhs ifTrue ifFalse) dest v

section Computes

variable {code : Code} {store : Store} {label dest : String} {instr : Instr} {v : Nat}

/-- What the machine defines is computed. -/
theorem Code.computes_of_define (h : code.define label store instr = .ok (dest, v)) :
    code.Computes store instr dest v := by
  cases instr with
  | const dest' value =>
    obtain ⟨ty, hty, h⟩ := bind_eq_ok.1 h
    cases h
    exact .const hty
  | copy dest' src =>
    obtain ⟨value, hread, h⟩ := bind_eq_ok.1 h
    cases h
    exact .copy hread
  | binary dest' op lhs rhs =>
    obtain ⟨value, hbinary, h⟩ := bind_eq_ok.1 h
    cases h
    exact .binary hbinary
  | unary dest' op src =>
    obtain ⟨ty, hty, h⟩ := bind_eq_ok.1 h
    obtain ⟨source, hsource, h⟩ := bind_eq_ok.1 h
    obtain ⟨a, ha, h⟩ := bind_eq_ok.1 h
    cases h
    exact .unary hty hsource ha
  | call dest' callee args tail => cases h
  | phi dest' values => cases h
  | cast dest' src source target =>
    obtain ⟨a, ha, h⟩ := bind_eq_ok.1 h
    cases h
    exact .cast ha
  | select dest' op lhs rhs ifTrue ifFalse =>
    obtain ⟨cond, hcond, h⟩ := bind_eq_ok.1 h
    obtain ⟨ty, hty, h⟩ := bind_eq_ok.1 h
    obtain ⟨value, hvalue, h⟩ := bind_eq_ok.1 h
    cases h
    exact .select hcond hty hvalue

/-- An instruction computes a value for the name that it defines. -/
theorem Code.dest?_of_define (h : code.define label store instr = .ok (dest, v)) :
    instr.dest? = some dest := by
  cases Code.computes_of_define h <;> rfl

end Computes

namespace Function

variable {f : Function} {i : Interpreter} {store : Store} {label dest : String} {v : Nat}

/-- What a well-typed instruction computes from a typed store is a word of the type of its name. -/
theorem Typed.define_lt (hf : f.Typed) (hstore : store.Typed f.valueType?) {instr : Instr}
    (hfits : instr.FitsTypes f.valueType?)
    (h : (i.code f).define label store instr = .ok (dest, v)) :
    ∃ ty, f.valueType? dest = some ty ∧ v < modulus ty.bits := by
  cases Code.computes_of_define h with
  | @const _ value ty hty => exact ⟨ty, hf.typeOf_eq_ok_iff.1 hty, value.pattern_lt ty⟩
  | @copy _ src _ hread =>
    obtain ⟨ty, hty, hlt⟩ := hstore src v (Store.read_eq_ok_iff.1 hread)
    exact ⟨ty, hfits.symm.trans hty, hlt⟩
  | binary hbinary =>
    obtain ⟨ty, hty, hlhs, hrhs, hdest⟩ := hf.exists_binaryType (i := i) hfits
    obtain ⟨ty', a, b, hty', ha, hb, happly⟩ := Code.exists_of_binary_eq_ok hbinary
    cases hty.symm.trans hty'
    exact ⟨_, hdest, BinOp.apply_lt (hstore.operand_lt hlhs ha) (hstore.operand_lt hrhs hb) happly⟩
  | @unary _ _ src ty source a hty hsource ha =>
    obtain ⟨_, hsrc, hdest⟩ := hfits
    cases (hf.typeOf_eq_ok_iff.1 hty).symm.trans hdest
    have hlt : a < modulus source.bits := by
      refine hstore.operand_lt ?_ ha
      cases src with
      | place name => exact hf.typeOf_eq_ok_iff.1 hsource
      | constant _ => trivial
    exact ⟨_, hdest, UnOp.apply_lt (Nat.lt_of_lt_of_le hlt source.modulus_bits_le)⟩
  | cast ha =>
    obtain ⟨hdest, hsrc, hunit, -⟩ := hfits
    exact ⟨_, hdest, convert_lt hunit (hstore.operand_lt hsrc ha)⟩
  | select hcond hty hv =>
    obtain ⟨ty', hdest, htrue, hfalse⟩ := hfits
    cases (hf.typeOf_eq_ok_iff.1 hty).symm.trans hdest
    refine ⟨_, hdest, hstore.operand_lt ?_ hv⟩
    split_ifs
    · exact htrue
    · exact hfalse

end Function

/-- The value of a phi is that of an operand that it lists with the block where control comes from.
-/
theorem Code.exists_of_mem_phiValues {code : Code} {pred : String} {store : Store}
    {instrs : List Instr} {entries : List (String × Nat)}
    (h : code.phiValues pred store instrs = .ok entries) {dest : String} {v : Nat}
    (hmem : (dest, v) ∈ entries) :
    ∃ values operand ty, Instr.phi dest values ∈ instrs ∧ (operand, pred) ∈ values ∧
      code.typeOf dest = .ok ty ∧ store.operand ty operand = .ok v := by
  induction instrs generalizing entries with
  | nil =>
    cases h
    simp at hmem
  | cons instr rest ih =>
    cases instr with
    | phi dest' values =>
      obtain ⟨entry, hentry, h⟩ := bind_eq_ok.1 h
      obtain ⟨entries', hrest, h⟩ := bind_eq_ok.1 h
      cases h
      rcases List.mem_cons.1 hmem with rfl | hmem
      · unfold Code.phiValue at hentry
        split at hentry
        · cases hentry
        · rename_i operand label hfind
          obtain ⟨ty, hty, hentry⟩ := bind_eq_ok.1 hentry
          obtain ⟨value, hvalue, hentry⟩ := bind_eq_ok.1 hentry
          cases hentry
          -- The entry that is found is one for the block where control comes from.
          have hlabel : label = pred := by simpa using List.find?_some hfind
          subst hlabel
          exact ⟨values, operand, ty, List.mem_cons_self, List.mem_of_find?_eq_some hfind,
            hty, hvalue⟩
      · obtain ⟨values', operand, ty, hphi, hrest⟩ := ih hrest hmem
        exact ⟨values', operand, ty, List.mem_cons_of_mem _ hphi, hrest⟩
    | _ =>
      cases h
      simp at hmem

/-- What a well-typed phi takes from a typed store is a word of the type of its name. -/
theorem Function.Typed.phiValues_lt {f : Function} (hf : f.Typed) {i : Interpreter} {store : Store}
    (hstore : store.Typed f.valueType?) {pred : String} {instrs : List Instr}
    (hfits : ∀ instr ∈ instrs, instr.FitsTypes f.valueType?) {entries : List (String × Nat)}
    (h : (i.code f).phiValues pred store instrs = .ok entries) :
    ∀ entry ∈ entries, ∃ ty, f.valueType? entry.1 = some ty ∧ entry.2 < modulus ty.bits := by
  rintro ⟨dest, v⟩ hmem
  obtain ⟨values, operand, ty, hphi, hvalue, hty, hoperand⟩ := Code.exists_of_mem_phiValues h hmem
  obtain ⟨ty', hdest, hvalues⟩ := hfits _ hphi
  cases (hf.typeOf_eq_ok_iff.1 hty).symm.trans hdest
  exact ⟨ty, hdest, hstore.operand_lt (hvalues _ hvalue) hoperand⟩

end FactGuard
