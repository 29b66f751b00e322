import FactGuard.Proofs.Fact.Operations
import FactGuard.Proofs.Fact.Sweep
import FactGuard.Proofs.Machine.Values

/-!
# The facts of operands

The fact of an operand is that of its name if this has the width, or that of a constant, and else it
is unknown (`FactMap.operand_cases`). What is inferred from one operand, by an operation or by a
conversion, is the changed fact of the operand or unknown (`FactMap.unary_cases`,
`FactMap.cast_cases`).

If every fact has the width of the type of its name (`FactMap.Fits`), the fact of an operand has the
width at which it is used (`Fits.operand`). If the facts describe the values held, it describes the
value that the machine reads (`Describes.operand`).
-/

namespace FactGuard

namespace FactMap

open ValueFact

variable {m : FactMap} {store : Store} {w v : Nat} {ty : Ty}

/-! ## Cases -/

/-- The fact of an operand is one of the width for a name, a constant, or unknown. -/
theorem operand_cases (m : FactMap) (w : Nat) (operand : Operand) :
    (∃ name, m.get? name = some (m.operand w operand) ∧ (m.operand w operand).width = w) ∨
      (∃ value, m.operand w operand = constant w value) ∨ m.operand w operand = unknown w := by
  unfold FactMap.operand
  split
  · rename_i name
    cases hfact : m.get? name with
    | none => exact .inr (.inr rfl)
    | some fact =>
      dsimp only
      split_ifs with hwidth
      · exact .inl ⟨name, hfact, hwidth⟩
      · exact .inr (.inr rfl)
  · exact .inr (.inl ⟨_, rfl⟩)
  · exact .inr (.inl ⟨_, rfl⟩)
  · exact .inr (.inr rfl)

/-- The fact of an operation on one operand is unknown, or that of a difference from zero, or has
the known bits of the operand inverted. The operand has the width of the result unless the fact is
unknown. -/
theorem unary_cases (m : FactMap) (w : Nat) (op : UnOp) (src : Operand) :
    m.unary w op src = unknown w ∨
    (match src with
      | .place name => (m.width? name).getD w
      | .constant _ => w) = w ∧
      (op = .neg ∧ m.unary w op src = ValueFact.refined
          ⟨(constant w 0).range.sub (m.operand w src).range,
            (constant w 0).known.sub (m.operand w src).known⟩ ∨
        (op = .bnot ∨ op = .not ∧ w = 1) ∧
          m.unary w op src = ofKnownBits (m.operand w src).known.not) := by
  unfold FactMap.unary
  dsimp only
  split_ifs with hwidth hone
  · exact .inl rfl
  · cases op with
    | neg => exact .inr ⟨not_not.1 hwidth, .inl ⟨rfl, rfl⟩⟩
    | bnot => exact .inr ⟨not_not.1 hwidth, .inr ⟨.inl rfl, rfl⟩⟩
    | not => exact .inr ⟨not_not.1 hwidth, .inr ⟨.inr ⟨rfl, hone⟩, rfl⟩⟩
    | fneg => exact .inl rfl
  · cases op with
    | neg => exact .inr ⟨not_not.1 hwidth, .inl ⟨rfl, rfl⟩⟩
    | bnot => exact .inr ⟨not_not.1 hwidth, .inr ⟨.inl rfl, rfl⟩⟩
    | not | fneg => exact .inl rfl

/-- The fact of a conversion is unknown unless it is one between integer types. -/
theorem cast_cases (m : FactMap) (w : Nat) (src : Operand) (source target : Ty) :
    m.cast w src source target = unknown w ∨
    ∃ sourceWidth, source.intWidth? = some sourceWidth ∧ m.cast w src source target
      = converted source.isSigned sourceWidth w (m.operand sourceWidth src) := by
  unfold FactMap.cast
  cases source.intWidth? with
  | none => exact .inl rfl
  | some sourceWidth =>
    dsimp only
    by_cases htarget : target.intWidth? = some w
    · rw [if_neg (not_not_intro htarget)]
      exact .inr ⟨sourceWidth, rfl, rfl⟩
    · rw [if_pos htarget]
      exact .inl rfl

/-! ## Widths -/

/-- Every fact has the width of its name. -/
def Fits (m : FactMap) : Prop :=
  ∀ name fact, m.get? name = some fact → ∃ w, m.width? name = some w ∧ fact.Fits w

theorem Fits.operand (hm : m.Fits) (w : Nat) (operand : Operand) :
    (m.operand w operand).Fits w := by
  rcases m.operand_cases w operand with ⟨name, hfact, hwidth⟩ | ⟨value, h⟩ | h
  · obtain ⟨w', -, hfits⟩ := hm name _ hfact
    obtain rfl : w' = w := hfits.width_eq.symm.trans hwidth
    exact hfits
  · rw [h]
    exact fits_constant w value
  · rw [h]
    exact fits_unknown w

/-- A name without integer type has no fact. -/
theorem Fits.operand_place (hm : m.Fits) {name : String} (hname : m.width? name = none) (w : Nat) :
    m.operand w (.place name) = unknown w := by
  unfold FactMap.operand
  cases hfact : m.get? name with
  | none => simp [hfact]
  | some fact =>
    obtain ⟨w', hw', -⟩ := hm name fact hfact
    rw [hname] at hw'
    cases hw'

/-! ## Values -/

/-- The facts describe the values held. -/
def Describes (m : FactMap) (store : Store) : Prop :=
  ∀ name v fact, store.get? name = some v → m.get? name = some fact → fact.Describes v

/-- The fact of an operand describes the operand's value, at the width of its type. -/
theorem Describes.operand (hm : m.Describes store) {operand : Operand}
    (h : store.operand ty operand = .ok v) (hw : ty.intWidth? = some w) :
    (m.operand w operand).Describes v := by
  have hwidth := Ty.isWidth_of_intWidth? hw
  have hbits := Ty.bits_of_intWidth? hw
  unfold FactMap.operand
  split
  · rename_i name
    split
    · rename_i fact hfact
      split_ifs
      · exact hm name v fact (Store.read_eq_ok_iff.1 h) hfact
      · exact describes_unknown hwidth v
    · exact describes_unknown hwidth v
  · rename_i value
    have hfloat : ¬ty.isFloat = true := by cases ty <;> simp [Ty.intWidth?, Ty.isFloat] at hw ⊢
    have hv : v = truncate w (truncateInt 64 value) := by
      rw [Store.operand, Constant.pattern, if_neg hfloat, Ty.wrapInt, hbits] at h
      rw [truncate_truncateInt hwidth.le]
      cases h
      rfl
    rw [hv]
    exact describes_constant hwidth _
  · rename_i value
    have hv : v = truncate w value.toNat := by
      have hlt := ty.toNat_lt value
      rw [hbits] at hlt
      rw [truncate_of_lt hlt]
      cases h
      rfl
    rw [hv]
    exact describes_constant hwidth _
  · exact describes_unknown hwidth v

end FactMap

end FactGuard
