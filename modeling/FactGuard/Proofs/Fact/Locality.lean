import FactGuard.Proofs.Fact.Sweep

/-!
# What a sweep depends on

The fact of an instruction depends on the types and the facts of the names that it mentions
(`FactMap.Same.transfer`), and not on the labels that a phi names (`FactMap.transfer_relabel`). So
two sweeps that start with the same types and facts for some names have the same facts for them in
the end, if one of them visits instructions that mention only such names, and the other one visits
instructions in between that define other names (`FactMap.Same.sweep`).
-/

namespace FactGuard

/-! ## Relabelled instructions -/

namespace Instr

variable (rename : String → String) (instr : Instr)

@[simp] theorem dest?_relabel : (instr.relabel rename).dest? = instr.dest? := by
  cases instr <;> rfl

@[simp] theorem names_relabel : (instr.relabel rename).names = instr.names := by
  cases instr <;> simp [relabel, names, operands, dest?, Function.comp_def]

end Instr

namespace FactMap

@[simp] theorem transfer_relabel (m : FactMap) (width : Nat) (rename : String → String)
    (instr : Instr) : m.transfer width (instr.relabel rename) = m.transfer width instr := by
  cases instr <;> simp [Instr.relabel, transfer, Function.comp_def]

@[simp] theorem visitInstr_relabel (m : FactMap) (rename : String → String) (instr : Instr) :
    m.visitInstr (instr.relabel rename) = m.visitInstr instr := by
  simp [visitInstr]

/-! ## The same types and facts -/

/-- Two tables have the same types and facts for names. -/
structure Same (names : List String) (m n : FactMap) : Prop where
  type?_eq : ∀ name ∈ names, n.type? name = m.type? name
  get?_eq : ∀ name ∈ names, n.get? name = m.get? name

namespace Same

variable {names : List String} {m n : FactMap}

theorem width?_eq (h : Same names m n) {name : String} (hname : name ∈ names) :
    n.width? name = m.width? name := by
  unfold width?
  rw [h.type?_eq name hname]

/-- The fact of an operand depends on the names that it mentions. -/
theorem operand (h : Same names m n) (width : Nat) {operand : Operand}
    (hnames : ∀ name ∈ operand.names, name ∈ names) :
    n.operand width operand = m.operand width operand := by
  cases operand with
  | place name =>
    simp only [FactMap.operand, h.get?_eq name (hnames name (List.mem_singleton_self name))]
  | constant value => cases value <;> rfl

theorem operandType? (h : Same names m n) {dest : String} (hdest : dest ∈ names)
    {lhs rhs : Operand} (hlhs : ∀ name ∈ lhs.names, name ∈ names)
    (hrhs : ∀ name ∈ rhs.names, name ∈ names) :
    n.operandType? dest lhs rhs = m.operandType? dest lhs rhs := by
  cases lhs with
  | place name => exact h.type?_eq name (hlhs name (List.mem_singleton_self name))
  | constant value =>
    cases rhs with
    | place name => exact h.type?_eq name (hrhs name (List.mem_singleton_self name))
    | constant value' => exact h.type?_eq dest hdest

/-- The fact of an operation depends on the names that it mentions. -/
theorem binary (h : Same names m n) (width : Nat) {dest : String} (hdest : dest ∈ names)
    (op : BinOp) {lhs rhs : Operand} (hlhs : ∀ name ∈ lhs.names, name ∈ names)
    (hrhs : ∀ name ∈ rhs.names, name ∈ names) :
    n.binary width dest op lhs rhs = m.binary width dest op lhs rhs := by
  unfold FactMap.binary constantOperand?
  rw [h.operandType? hdest hlhs hrhs, h.operand width hlhs, h.operand width hrhs]

theorem unary (h : Same names m n) (width : Nat) (op : UnOp) {src : Operand}
    (hsrc : ∀ name ∈ src.names, name ∈ names) : n.unary width op src = m.unary width op src := by
  unfold FactMap.unary
  rw [h.operand width hsrc]
  cases src with
  | place name =>
    dsimp only
    rw [h.width?_eq (hsrc name (List.mem_singleton_self name))]
  | constant value => rfl

theorem cast (h : Same names m n) (width : Nat) {src : Operand}
    (hsrc : ∀ name ∈ src.names, name ∈ names) (source target : Ty) :
    n.cast width src source target = m.cast width src source target := by
  unfold FactMap.cast
  simp only [h.operand _ hsrc]

/-- The fact of an instruction depends on the names that it mentions. -/
theorem transfer (h : Same names m n) (width : Nat) {instr : Instr}
    (hnames : ∀ name ∈ instr.names, name ∈ names) :
    n.transfer width instr = m.transfer width instr := by
  have hdest : ∀ dest, instr.dest? = some dest → dest ∈ names := fun dest h =>
    hnames dest (by simp [Instr.names, h])
  have hoperand : ∀ operand ∈ instr.operands, ∀ name ∈ operand.names, name ∈ names :=
    fun operand h name hname =>
      hnames name (List.mem_append_right _ (List.mem_flatMap.2 ⟨operand, h, hname⟩))
  cases instr with
  | const dest value => exact h.operand width (fun _ hname => nomatch hname)
  | copy dest src => exact h.operand width (hoperand _ (List.mem_singleton_self _))
  | binary dest op lhs rhs =>
    exact h.binary width (hdest dest rfl) op (hoperand lhs (by simp [Instr.operands]))
      (hoperand rhs (by simp [Instr.operands]))
  | unary dest op src => exact h.unary width op (hoperand src (List.mem_singleton_self src))
  | call dest callee args tail => rfl
  | phi dest values =>
    have hvalues : (values.map fun value => n.operand width value.1)
        = values.map fun value => m.operand width value.1 :=
      List.map_congr_left fun value hvalue =>
        h.operand width (hoperand value.1 (List.mem_map_of_mem hvalue))
    simp only [FactMap.transfer, hvalues]
  | cast dest src source target =>
    exact h.cast width (hoperand src (List.mem_singleton_self src)) source target
  | select dest op lhs rhs ifTrue ifFalse =>
    simp only [FactMap.transfer, h.operand width (hoperand ifTrue (by simp [Instr.operands])),
      h.operand width (hoperand ifFalse (by simp [Instr.operands]))]

/-! ## Sweeps -/

/-- An instruction that mentions only names with the same facts keeps facts the same. -/
theorem visitInstr (h : Same names m n) {instr : Instr}
    (hnames : ∀ name ∈ instr.names, name ∈ names) :
    Same names (m.visitInstr instr) (n.visitInstr instr) where
  type?_eq name hname := by
    unfold type?
    rw [types_visitInstr, types_visitInstr]
    exact h.type?_eq name hname
  get?_eq name hname := by
    rw [get?_visitInstr, get?_visitInstr, h.width?_eq hname, h.get?_eq name hname]
    simp only [h.transfer _ hnames]

/-- An instruction that defines another name does not matter. -/
theorem visitInstr_right (h : Same names m n) {instr : Instr}
    (hdest : ∀ name ∈ names, instr.dest? ≠ some name) : Same names m (n.visitInstr instr) where
  type?_eq name hname := by
    unfold type?
    rw [types_visitInstr]
    exact h.type?_eq name hname
  get?_eq name hname := by
    rw [get?_visitInstr, if_neg (hdest name hname)]
    exact h.get?_eq name hname

/-- A sweep infers for names what it infers without the instructions that define other names, if
those that are left mention only these names. -/
theorem sweep (h : Same names m n) {kept : Instr → Bool} {instrs : List Instr}
    (hkept : ∀ instr ∈ instrs, kept instr = true → ∀ name ∈ instr.names, name ∈ names)
    (hother : ∀ instr ∈ instrs, kept instr = false → ∀ name ∈ names, instr.dest? ≠ some name) :
    Same names ((instrs.filter kept).foldl FactMap.visitInstr m)
      (instrs.foldl FactMap.visitInstr n) := by
  -- By induction on the instructions: a kept one is visited on both sides, and any other gives no
  -- fact to the names.
  induction instrs generalizing m n with
  | nil => exact h
  | cons instr rest ih =>
    obtain ⟨hinstr, hrest⟩ := List.forall_mem_cons.1 hkept
    obtain ⟨hinstr', hrest'⟩ := List.forall_mem_cons.1 hother
    cases hcase : kept instr with
    | true =>
      rw [List.filter_cons_of_pos hcase]
      exact ih (h.visitInstr (hinstr hcase)) hrest hrest'
    | false =>
      rw [List.filter_cons_of_neg (by simp [hcase])]
      exact ih (h.visitInstr_right (hinstr' hcase)) hrest hrest'

end Same

end FactMap

end FactGuard
