import FactGuard.Proofs.Bindings
import FactGuard.Program.Basic

/-!
# Well-formed functions

What a function has to satisfy for its runs, its facts and its guards to make sense, in parts that
later modules combine: its blocks are linked (`Function.Linked`), its names are declared and the
types of its instructions fit (`Function.Typed`), and no name is defined twice
(`Function.SingleDefs`). A well-formed function (`Function.WellFormed`) can be run, and a valid one
(`Function.Valid`) is also in the single-assignment form that analyses expect.
-/

namespace FactGuard

/-! ## Names that are mentioned -/

/-- The names that an operand mentions. -/
def Operand.names : Operand → List String
  | place name => [name]
  | constant _ => []

/-- The operands that an instruction reads. -/
def Instr.operands : Instr → List Operand
  | const .. => []
  | copy _ src => [.place src]
  | binary _ _ lhs rhs => [lhs, rhs]
  | unary _ _ src => [src]
  | call _ _ args _ => args
  | phi _ values => values.map Prod.fst
  | cast _ src _ _ => [src]
  | select _ _ lhs rhs ifTrue ifFalse => [lhs, rhs, ifTrue, ifFalse]

/-- The names that an instruction defines or reads. -/
def Instr.names (instr : Instr) : List String :=
  instr.dest?.toList ++ instr.operands.flatMap Operand.names

/-- The operands that a terminator reads. -/
def Terminator.operands : Terminator → List Operand
  | ret value => value.toList
  | goto _ | unreachable => []
  | branch cond _ _ => [cond]
  | switch value _ _ => [value]

/-- The names that a terminator reads. -/
def Terminator.names (terminator : Terminator) : List String :=
  terminator.operands.flatMap Operand.names

/-- The labels that a phi names. -/
def Instr.phiLabels : Instr → List String
  | phi _ values => values.map Prod.snd
  | _ => []

/-- The instruction with other labels where a phi names some. -/
def Instr.relabel (rename : String → String) : Instr → Instr
  | phi dest values => phi dest (values.map fun value => (value.1, rename value.2))
  | instr => instr

/-! ## Types -/

/-- The operand is of a type: a place is declared with it, and a constant is of any type. -/
def Operand.HasType (types : String → Option Ty) (ty : Ty) : Operand → Prop
  | place name => types name = some ty
  | constant _ => True

/-- The operand is a constant. -/
def Operand.isConstant : Operand → Bool
  | place _ => false
  | constant _ => true

/-- The types of the places that an instruction mentions fit together. -/
def Instr.FitsTypes (types : String → Option Ty) : Instr → Prop
  | const .. | call .. => True
  | copy dest src => types src = types dest
  | binary dest op lhs rhs => ∃ ty, lhs.HasType types ty ∧ rhs.HasType types ty ∧
      types dest = some (op.resultType ty) ∧
      (lhs.isConstant → rhs.isConstant → op.isComparison = false → types dest = some ty)
  | unary dest op src => ∃ ty, src.HasType types ty ∧ types dest = some (op.resultType ty)
  | phi dest values => ∃ ty, types dest = some ty ∧ ∀ value ∈ values, value.1.HasType types ty
  | cast dest src source target => types dest = some target ∧ src.HasType types source ∧
      source ≠ .unit ∧ target ≠ .unit
  | select dest _ _ _ ifTrue ifFalse => ∃ ty, types dest = some ty ∧ ifTrue.HasType types ty ∧
      ifFalse.HasType types ty

/-! ## Functions -/

/-- Phis stand at the start of the block only. -/
def Block.PhisFirst (block : Block) : Prop := ∀ instr ∈ block.body, instr.isPhi = false

namespace Function

/-- All of a function but its blocks. -/
def header (f : Function) : Function := { f with blocks := [] }

/-- The instructions of a function, block by block. -/
def instrs (f : Function) : List Instr := f.blocks.flatMap (·.instrs)

/-- The names that the instructions of a function define, one for each definition. -/
def definedNames (f : Function) : List String := f.instrs.filterMap Instr.dest?

/-- The labels of the blocks that lead to a label. -/
def predecessors (f : Function) (label : String) : List String :=
  (f.blocks.filter fun block => block.terminator.successors.contains label).map (·.label)

/-- The blocks of a function are linked: labels are distinct, control goes to blocks of the
function, and phis stand at the start of blocks. -/
structure Linked (f : Function) : Prop where
  labels_nodup : f.labels.Nodup
  targets_mem : ∀ block ∈ f.blocks, ∀ label ∈ block.terminator.successors, label ∈ f.labels
  phis_first : ∀ block ∈ f.blocks, block.PhisFirst

/-- Names are declared once, every name that is mentioned is declared, and types fit. -/
structure Typed (f : Function) : Prop where
  names_nodup : f.declarations.names.Nodup
  instr_names_mem : ∀ block ∈ f.blocks, ∀ instr ∈ block.instrs, ∀ name ∈ instr.names,
    name ∈ f.declarations.names
  terminator_names_mem : ∀ block ∈ f.blocks, ∀ name ∈ block.terminator.names,
    name ∈ f.declarations.names
  fitsTypes : ∀ block ∈ f.blocks, ∀ instr ∈ block.instrs, instr.FitsTypes f.valueType?

/-- Every name is defined by one instruction at most, and parameters by none. -/
structure SingleDefs (f : Function) : Prop where
  definedNames_nodup : f.definedNames.Nodup
  params_not_mem : ∀ name ∈ f.params.map Prod.fst, name ∉ f.definedNames

/-- The function can be run: it has an entry, it is linked and typed, its labels are not empty, and
phis name blocks of the function. -/
structure WellFormed (f : Function) : Prop extends f.Linked, f.Typed where
  blocks_ne_nil : f.blocks ≠ []
  empty_not_mem : "" ∉ f.labels
  phi_labels_mem : ∀ block ∈ f.blocks, ∀ instr ∈ block.instrs, ∀ label ∈ instr.phiLabels,
    label ∈ f.labels

/-- The function is linked, typed and in single-assignment form, and the phis of a block name
exactly the blocks that lead to it. -/
structure Valid (f : Function) : Prop extends f.Linked, f.Typed, f.SingleDefs where
  phi_labels_iff : ∀ block ∈ f.blocks, ∀ dest values, Instr.phi dest values ∈ block.instrs →
    ∀ label, label ∈ values.map Prod.snd ↔ label ∈ f.predecessors block.label

theorem mem_labels {f : Function} {label : String} :
    label ∈ f.labels ↔ ∃ block ∈ f.blocks, block.label = label := List.mem_map

theorem mem_predecessors {f : Function} {label pred : String} :
    pred ∈ f.predecessors label ↔
      ∃ block ∈ f.blocks, label ∈ block.terminator.successors ∧ block.label = pred := by
  simp [predecessors, and_assoc]

end Function

/-! ## An instance -/

/-- Counts an argument down to zero: a loop with a phi, for instances of what is shown of all
functions. -/
def countdown : Function where
  name := "countdown"
  params := [("n", .u8)]
  result := .u8
  locals := [("i", .u8), ("d", .u8), ("more", .bool)]
  blocks := [
    ⟨"entry", [], .goto "loop"⟩,
    ⟨"loop", [
      .phi "i" [(.place "n", "entry"), (.place "d", "loop")],
      .binary "d" .sub (.place "i") (.constant (.int 1)),
      .binary "more" .ne (.place "d") (.constant (.int 0))], .branch (.place "more") "loop" "done"⟩,
    ⟨"done", [], .ret (some (.place "d"))⟩]

/-- The countdown satisfies every condition of this module. -/
theorem countdown_valid : countdown.Valid where
  labels_nodup := by decide
  targets_mem := by decide
  phis_first := by
    unfold Block.PhisFirst
    decide
  names_nodup := by decide
  instr_names_mem := by decide
  terminator_names_mem := by decide
  fitsTypes := by
    intro block hblock instr hinstr
    simp only [countdown, List.mem_cons, List.not_mem_nil, or_false] at hblock
    rcases hblock with rfl | rfl | rfl
    · simp at hinstr
    · simp only [List.mem_cons, List.not_mem_nil, or_false] at hinstr
      rcases hinstr with rfl | rfl | rfl
      · refine ⟨.u8, rfl, fun value hvalue => ?_⟩
        simp only [List.mem_cons, List.not_mem_nil, or_false] at hvalue
        rcases hvalue with rfl | rfl <;> rfl
      · exact ⟨.u8, rfl, trivial, rfl, by rintro ⟨⟩⟩
      · exact ⟨.u8, rfl, trivial, rfl, by rintro ⟨⟩⟩
    · simp at hinstr
  definedNames_nodup := by decide
  params_not_mem := by decide
  phi_labels_iff := by
    intro block hblock dest values hphi label
    simp only [countdown, List.mem_cons, List.not_mem_nil, or_false] at hblock
    rcases hblock with rfl | rfl | rfl
    · simp at hphi
    · simp at hphi
      obtain ⟨rfl, rfl⟩ := hphi
      simp [Function.predecessors, countdown, Terminator.successors]
    · simp at hphi

/-- The countdown can be run. -/
theorem countdown_wellFormed : countdown.WellFormed where
  toLinked := countdown_valid.toLinked
  toTyped := countdown_valid.toTyped
  blocks_ne_nil := by decide
  empty_not_mem := by decide
  phi_labels_mem := by decide

end FactGuard
