import FactGuard.Proofs.Fact.Operands

/-!
# The transfer of an instruction is sound

If facts describe the values held, the transfer of an instruction describes the value that the
machine computes for it (`Function.Typed.describes_transfer`), but for one slip. A logical operation
is computed at the type of its operands, and the transfer reads a constant operand at the width of
the result if that type has none. Of an even constant it sees a zero bit there, which the machine
takes for true unless the whole constant is zero. A logical or loses nothing by that, and a logical
and does if both of its operands count as true (`Instr.Misreads`).
-/

namespace FactGuard

/-- The instruction is a logical and of a value other than zero, without an integer type, and of an
even constant other than zero. -/
def Instr.Misreads (f : Function) (store : Store) : Instr → Prop
  | .binary _ .and (.place name) (.constant (.int value))
  | .binary _ .and (.constant (.int value)) (.place name) =>
    (f.valueType? name).bind Ty.intWidth? = none ∧ (∃ v, store.get? name = some v ∧ v ≠ 0) ∧
      value % 2 = 0 ∧ truncateInt 64 value ≠ 0
  | _ => False

namespace FactMap

open ValueFact

variable {m : FactMap} {f : Function} {store : Store} {w v : Nat} {ty : Ty}

/-- The facts are those of a function's names, with the widths of their types. -/
structure Covers (m : FactMap) (f : Function) : Prop where
  types_eq : m.types = f.declarations
  fits : m.Fits

/-- The facts are those of a function's names, and they describe the values held. -/
structure Holds (m : FactMap) (f : Function) (store : Store) : Prop extends m.Covers f where
  describes : m.Describes store
  typed : store.Typed f.valueType?

theorem Covers.type?_eq (hm : m.Covers f) (hf : f.Typed) (name : String) :
    m.type? name = f.valueType? name := by
  rw [type?, hm.types_eq]
  exact Bindings.last?_eq_get? hf.names_nodup name

theorem Covers.width?_eq (hm : m.Covers f) (hf : f.Typed) (name : String) :
    m.width? name = (f.valueType? name).bind Ty.intWidth? := by
  rw [width?, hm.type?_eq hf]

/-! ## Logical operations on values without integer type -/

/-- The pattern of an integer constant at a type without width is zero for zero only. -/
theorem pattern_eq_zero_iff (hty : ty.intWidth? = none) (value : Int) :
    (Constant.int value).pattern ty = 0 ↔ truncateInt 64 value = 0 := by
  cases ty <;> cases hty
  · -- A float: the constant is read with sign and converted.
    have hsigned : toSigned 64 (truncateInt 64 value) = 0 ↔ truncateInt 64 value = 0 := by
      have hlt := truncateInt_lt 64 value
      unfold toSigned
      dsimp only
      rw [truncate_of_lt hlt]
      split_ifs <;> omega
    rw [← hsigned]
    constructor
    · intro h
      by_contra hne
      exact patternOfInt_ne_zero hne h
    · intro h
      show patternOfInt (toSigned 64 (truncateInt 64 value)) = 0
      rw [h]
      rfl
  · rfl

/-- A constant whose lowest bit is zero is read as zero at the width of a truth value. -/
theorem constant_even {value : Nat} (h : value % 2 = 0) : constant 1 value = constant 1 0 := by
  have hlow : truncate 1 value = 0 := h
  have hnext : truncate 1 (value + 1) = 1 := by
    show (value + 1) % 2 = 1
    omega
  have hinvert : invert 1 value = 1 := by rw [invert, hlow]; rfl
  simp only [constant, ValueRange.single, KnownBits.constant, KnownBits.ofBits, BitMask.ofBits,
    hlow,
    hnext, hinvert]
  rfl

/-- An integer is even if its pattern is. -/
theorem truncateInt_even_iff (value : Int) : truncateInt 64 value % 2 = 0 ↔ value % 2 = 0 := by
  show (value % 18446744073709551616).toNat % 2 = 0 ↔ value % 2 = 0
  omega

/-- The fact of an operand without integer type, at the width of a truth value, describes whether
the operand counts as true, unless the operand is an even constant that does. -/
theorem Holds.describes_truth (hm : m.Holds f store) (hf : f.Typed) {operand : Operand}
    (htype : operand.HasType f.valueType? ty) (hty : ty.intWidth? = none)
    (h : store.operand ty operand = .ok v) :
    (m.operand 1 operand).Describes (v != 0).toNat ∨
      (∃ value, operand = .constant (.int value) ∧ value % 2 = 0 ∧ truncateInt 64 value ≠ 0 ∧
        m.operand 1 operand = constant 1 0 ∧ v ≠ 0) := by
  have hone : IsWidth 1 := ⟨by decide, by decide⟩
  have htruth : ∀ b : Bool, truncate 1 b.toNat = b.toNat := fun b => by cases b <;> rfl
  cases operand with
  | place name =>
    have hname : m.width? name = none := by rw [hm.width?_eq hf, htype]; exact hty
    rw [hm.fits.operand_place hname]
    exact .inl (describes_unknown hone _)
  | constant value =>
    cases h
    cases value with
    | int value =>
      have hzero := pattern_eq_zero_iff hty value
      -- Only the lowest bit of a constant is read. It tells zero from other values, but not from
      -- the even ones.
      by_cases hbad : value % 2 = 0 ∧ truncateInt 64 value ≠ 0
      · have heven := constant_even ((truncateInt_even_iff value).2 hbad.1)
        exact .inr ⟨value, rfl, hbad.1, hbad.2, heven, fun hv => hbad.2 (hzero.1 hv)⟩
      · refine .inl ?_
        have hlow : truncate 1 (truncateInt 64 value)
            = ((Constant.int value).pattern ty != 0).toNat := by
          show truncateInt 64 value % 2 = _
          have heven := truncateInt_even_iff value
          by_cases hv : (Constant.int value).pattern ty = 0
          · rw [hzero.1 hv, hv]
            rfl
          · have hne := mt hzero.2 hv
            have hodd : truncateInt 64 value % 2 = 1 := by
              have := mt heven.1 fun h => hbad ⟨h, hne⟩
              omega
            rw [hodd, bne_iff_ne.2 hv]
            rfl
        rw [← hlow]
        exact describes_constant hone _
    | bool value =>
      have := describes_constant hone value.toNat
      rw [htruth] at this
      refine .inl ?_
      cases value <;> exact this
    | float value => exact .inl (describes_unknown hone _)
    | unit => exact .inl (describes_unknown hone _)

section Logic

variable {lhs rhs : Operand} {a b : Nat}

/-- A place without integer type has the fact that says nothing. -/
theorem Holds.describes_place (hm : m.Holds f store) (hf : f.Typed) (hty : ty.intWidth? = none)
    {name : String} (hname : Operand.HasType f.valueType? ty (.place name)) (v : Nat) :
    (m.operand 1 (.place name)).Describes v := by
  have hwidth : m.width? name = none := by
    rw [hm.width?_eq hf, hname]
    exact hty
  rw [hm.fits.operand_place hwidth]
  exact describes_unknown ⟨by decide, by decide⟩ v

theorem describes_truth_and (hm : m.Fits) {p q : Bool} (hp : (m.operand 1 lhs).Describes p.toNat)
    (hq : (m.operand 1 rhs).Describes q.toNat) :
    (bitAnd 1 (m.operand 1 lhs) (m.operand 1 rhs)).Describes (p && q).toNat := by
  have hboth : (p && q).toNat = p.toNat &&& q.toNat := by cases p <;> cases q <;> rfl
  rw [hboth]
  exact describes_bitAnd ⟨by decide, by decide⟩ (hm.operand 1 lhs) (hm.operand 1 rhs) p.toNat_lt
    q.toNat_lt hp hq

theorem describes_truth_or (hm : m.Fits) {p q : Bool} (hp : (m.operand 1 lhs).Describes p.toNat)
    (hq : (m.operand 1 rhs).Describes q.toNat) :
    (ofKnownBits ((m.operand 1 lhs).known.or (m.operand 1 rhs).known)).Describes
      (p || q).toNat := by
  have hboth : (p || q).toNat = p.toNat ||| q.toNat := by cases p <;> cases q <;> rfl
  rw [hboth]
  exact describes_bitOr ⟨by decide, by decide⟩ (hm.operand 1 lhs) p.toNat_lt q.toNat_lt hp hq

/-- The fact of a logical and of values without integer type describes what the machine computes,
unless the instruction misreads a constant: next to one that is read as zero, the other operand is
zero, and so is the result. -/
theorem Holds.describes_logicalAnd (hm : m.Holds f store) (hf : f.Typed) (hty : ty.intWidth? = none)
    (hlhs : lhs.HasType f.valueType? ty) (hrhs : rhs.HasType f.valueType? ty)
    (hplace : lhs.isConstant → rhs.isConstant → False) (ha : store.operand ty lhs = .ok a)
    (hb : store.operand ty rhs = .ok b) {dest : String}
    (hreads : ¬(Instr.binary dest .and lhs rhs).Misreads f store) :
    (bitAnd 1 (m.operand 1 lhs) (m.operand 1 rhs)).Describes (a != 0 && b != 0).toNat := by
  have hname : ∀ {name}, Operand.HasType f.valueType? ty (.place name) →
      (f.valueType? name).bind Ty.intWidth? = none := fun hname => by
    rw [hname]
    exact hty
  have hzero : (constant 1 0).Describes false.toNat := describes_constant ⟨by decide, by decide⟩ 0
  -- Next to a constant that is misread the place holds zero: else the instruction misreads it.
  rcases hm.describes_truth hf hlhs hty ha with hx | ⟨value, rfl, heven, hne, hread, -⟩
  · rcases hm.describes_truth hf hrhs hty hb with hy | ⟨value, rfl, heven, hne, hread, -⟩
    · exact describes_truth_and hm.fits hx hy
    · cases lhs with
      | constant _ => exact (hplace rfl rfl).elim
      | place name =>
        have ha0 : a = 0 := by
          by_contra hane
          exact hreads ⟨hname hlhs, ⟨a, Store.read_eq_ok_iff.1 ha, hane⟩, heven, hne⟩
        have hnone : (a != 0 && b != 0).toNat = (false && false).toNat := by simp [ha0]
        rw [← hread] at hzero
        rw [hnone]
        exact describes_truth_and hm.fits (hm.describes_place hf hty hlhs _) hzero
  · cases rhs with
    | constant _ => exact (hplace rfl rfl).elim
    | place name =>
      have hb0 : b = 0 := by
        by_contra hbne
        exact hreads ⟨hname hrhs, ⟨b, Store.read_eq_ok_iff.1 hb, hbne⟩, heven, hne⟩
      have hnone : (a != 0 && b != 0).toNat = (false && false).toNat := by simp [hb0]
      rw [← hread] at hzero
      rw [hnone]
      exact describes_truth_and hm.fits hzero (hm.describes_place hf hty hrhs _)

/-- The fact of a logical or of values without integer type describes what the machine computes:
next to a constant that is read as zero, the fact of the place says nothing. -/
theorem Holds.describes_logicalOr (hm : m.Holds f store) (hf : f.Typed) (hty : ty.intWidth? = none)
    (hlhs : lhs.HasType f.valueType? ty) (hrhs : rhs.HasType f.valueType? ty)
    (hplace : lhs.isConstant → rhs.isConstant → False) (ha : store.operand ty lhs = .ok a)
    (hb : store.operand ty rhs = .ok b) :
    (ofKnownBits ((m.operand 1 lhs).known.or (m.operand 1 rhs).known)).Describes
      (a != 0 || b != 0).toNat := by
  have hzero : (constant 1 0).Describes false.toNat := describes_constant ⟨by decide, by decide⟩ 0
  -- A constant that is misread counts as true, and so does the result, of which nothing is known.
  rcases hm.describes_truth hf hlhs hty ha with hx | ⟨value, rfl, -, -, hread, hane⟩
  · rcases hm.describes_truth hf hrhs hty hb with hy | ⟨value, rfl, -, -, hread, hbne⟩
    · exact describes_truth_or hm.fits hx hy
    · cases lhs with
      | constant _ => exact (hplace rfl rfl).elim
      | place name =>
        have hall : (a != 0 || b != 0).toNat = (true || false).toNat := by simp [hbne]
        rw [← hread] at hzero
        rw [hall]
        exact describes_truth_or hm.fits (hm.describes_place hf hty hlhs _) hzero
  · cases rhs with
    | constant _ => exact (hplace rfl rfl).elim
    | place name =>
      have hall : (a != 0 || b != 0).toNat = (false || true).toNat := by simp [hane]
      rw [← hread] at hzero
      rw [hall]
      exact describes_truth_or hm.fits hzero (hm.describes_place hf hty hrhs _)

end Logic

/-! ## Instructions -/

/-- An operation on two constants that is not a comparison has the type of its result. -/
theorem valueType?_of_constants (hf : f.Typed) {i : Interpreter} {dest : String} {op : BinOp}
    {lhs rhs : Operand} (hop : op.isComparison = false)
    (hty : (i.code f).binaryType dest op lhs rhs = .ok ty) (hlhs : lhs.isConstant)
    (hrhs : rhs.isConstant) : f.valueType? dest = some ty := by
  cases lhs with
  | place name => cases hlhs
  | constant value =>
    cases rhs with
    | place name => cases hrhs
    | constant value' =>
      have hty' : (if op.isComparison then Except.ok .i64 else (i.code f).typeOf dest) = .ok ty :=
        hty
      rw [if_neg (by simp [hop])] at hty'
      exact hf.typeOf_eq_ok_iff.1 hty'

/-- The transfer computes an operation that is not a comparison at the machine's type. -/
theorem Covers.operandType?_eq (hm : m.Covers f) (hf : f.Typed) {dest : String} {lhs rhs : Operand}
    (hlhs : lhs.HasType f.valueType? ty) (hrhs : rhs.HasType f.valueType? ty)
    (hconstants : lhs.isConstant → rhs.isConstant → f.valueType? dest = some ty) :
    m.operandType? dest lhs rhs = some ty := by
  cases lhs with
  | place name => exact (hm.type?_eq hf name).trans hlhs
  | constant value =>
    cases rhs with
    | place name => exact (hm.type?_eq hf name).trans hrhs
    | constant value' => exact (hm.type?_eq hf dest).trans (hconstants rfl rfl)

/-- The fact of an operation on two operands describes what the machine computes, unless the
operation misreads a constant. -/
theorem Holds.describes_binary (hm : m.Holds f store) (hf : f.Typed) {i : Interpreter}
    {dest : String} {op : BinOp} {lhs rhs : Operand}
    (hfits : (Instr.binary dest op lhs rhs).FitsTypes f.valueType?)
    (hreads : ¬(Instr.binary dest op lhs rhs).Misreads f store)
    (hw : (f.valueType? dest).bind Ty.intWidth? = some w)
    (h : (i.code f).binary store dest op lhs rhs = .ok v) :
    (m.binary w dest op lhs rhs).Describes v := by
  obtain ⟨ty, hty, hlhs, hrhs, hdest⟩ := hf.exists_binaryType (i := i) hfits
  obtain ⟨ty', a, b, hty', ha, hb, hv⟩ := Code.exists_of_binary_eq_ok h
  cases hty.symm.trans hty'
  have hresult : (op.resultType ty).intWidth? = some w := by rwa [hdest] at hw
  have hwidth := Ty.isWidth_of_intWidth? hresult
  unfold FactMap.binary
  dsimp only
  split_ifs with hunknown
  · exact describes_unknown hwidth v
  · rw [Bool.or_eq_true, not_or, Bool.not_eq_true, bne_iff_ne, ne_eq, not_not] at hunknown
    obtain ⟨hcomparison, hsame⟩ := hunknown
    have hconstants := valueType?_of_constants hf hcomparison hty
    rw [hm.operandType?_eq hf hlhs hrhs hconstants] at hsame ⊢
    rw [Option.bind_some] at hsame
    cases hint : ty.intWidth? with
    | some w' =>
      -- At an integer type, the operands are read at the width of the result.
      rw [hint, Option.getD_some] at hsame
      obtain rfl : ty.bits = w := (Ty.bits_of_intWidth? hint).trans hsame
      have hint' : ty.intWidth? = some ty.bits := by rw [hint, Ty.bits_of_intWidth? hint]
      have hby := hm.describes.operand hb hint'
      have hblt := hm.typed.operand_lt hrhs hb
      refine describes_combine (hm.fits.operand _ lhs) (hm.fits.operand _ rhs)
        (hm.typed.operand_lt hlhs ha) hblt (hm.describes.operand ha hint') hby
          (fun amount hamount => ?_)
        (fun hlogic => ?_) hv
      · exact hby.range.eq_of_singleElement? hwidth (hm.fits.operand _ rhs).range hblt hamount
      · rcases hlogic with rfl | rfl <;> exact (Option.some.inj hresult).symm
    | none =>
      -- At any other type, only a logical operation has a result with a width.
      have hlogic : op = .and ∨ op = .or := by
        rcases BinOp.resultType_cases hcomparison ty with hty' | hty' | hlogic
        · rw [hty', hint] at hresult
          cases hresult
        · rw [hty'] at hresult
          cases hresult
        · exact hlogic
      obtain rfl : w = 1 := by rcases hlogic with rfl | rfl <;> exact (Option.some.inj hresult).symm
      have hplace : lhs.isConstant → rhs.isConstant → False := fun hl hr => by
        rw [hconstants hl hr, Option.bind_some, hint] at hw
        cases hw
      rcases hlogic with rfl | rfl
      · cases hv
        exact hm.describes_logicalAnd hf hint hlhs hrhs hplace ha hb hreads
      · cases hv
        exact hm.describes_logicalOr hf hint hlhs hrhs hplace ha hb

/-- The fact of an operand that is negated as a truth value describes whether the operand counts as
true: the transfer does not read it at another width than its own. -/
theorem Holds.describes_negated (hm : m.Holds f store) (hf : f.Typed) {src : Operand}
    {sourceTy : Ty} (hsource : src.HasType f.valueType? sourceTy)
    (hconstant : src.isConstant → sourceTy = .bool)
    (hwidth : (match src with
      | .place name => (m.width? name).getD 1
      | .constant _ => 1) = 1)
    {a : Nat} (ha : store.operand sourceTy src = .ok a) :
    (m.operand 1 src).Describes (a != 0).toNat := by
  cases hint : sourceTy.intWidth? with
  | none =>
    cases src with
    | constant value =>
      rw [hconstant rfl] at hint
      cases hint
    | place name =>
      rw [hm.fits.operand_place (by rw [hm.width?_eq hf, hsource]; exact hint)]
      exact describes_unknown ⟨by decide, by decide⟩ _
  | some w' =>
    -- An integer type has the width of a truth value here, so the operand is zero or one.
    have hone : w' = 1 := by
      cases src with
      | constant value =>
        rw [hconstant rfl] at hint
        exact (Option.some.inj hint).symm
      | place name =>
        have hname : m.width? name = some w' := by rw [hm.width?_eq hf, hsource]; exact hint
        dsimp only at hwidth
        rwa [hname] at hwidth
    have hlt := hm.typed.operand_lt hsource ha
    rw [Ty.bits_of_intWidth? hint, hone] at hlt
    have ha' : (a != 0).toNat = a := by
      obtain rfl | rfl : a = 0 ∨ a = 1 := Nat.le_one_iff_eq_zero_or_eq_one.1 (Nat.le_of_lt_succ hlt)
      · rfl
      · rfl
    rw [ha']
    exact hm.describes.operand ha (by rw [hint, hone])

/-- The fact of an operation on one operand describes what the machine computes from a word of the
operand's type, which for a constant is the type of the result. -/
theorem Holds.describes_unary (hm : m.Holds f store) (hf : f.Typed) {dest : String} {op : UnOp}
    {src : Operand} {sourceTy : Ty} (hfits : (Instr.unary dest op src).FitsTypes f.valueType?)
    (hdest : f.valueType? dest = some ty) (hw : ty.intWidth? = some w)
    (hsource : src.HasType f.valueType? sourceTy) (hconstant : src.isConstant → sourceTy = ty)
    {a : Nat} (ha : store.operand sourceTy src = .ok a) :
    (m.unary w op src).Describes (op.apply ty a) := by
  obtain rfl : ty.bits = w := Ty.bits_of_intWidth? hw
  have hwidth := ty.isWidth_bits
  have hlt := hm.typed.operand_lt hsource ha
  -- Operations other than negations of truth values have the type of their operand.
  have hsame : op.resultType sourceTy = sourceTy → sourceTy = ty := fun hresult => by
    cases src with
    | constant value => exact hconstant rfl
    | place name =>
      obtain ⟨ty', hname, hdest'⟩ := hfits
      cases hname.symm.trans hsource
      rw [hdest, hresult] at hdest'
      exact (Option.some.inj hdest').symm
  rcases m.unary_cases ty.bits op src with h | ⟨hread, ⟨rfl, h⟩ | ⟨rfl | ⟨rfl, -⟩, h⟩⟩
  · rw [h]
    exact describes_unknown hwidth _
  · obtain rfl := hsame rfl
    have hpos := modulus_pos sourceTy.bits
    have hzero := describes_constant hwidth 0
    have hneg : sourceTy.wrapInt (-(a : Int))
        = truncateInt sourceTy.bits (((0 : Nat) : Int) - a) := by
      rw [Ty.wrapInt, Int.natCast_zero, Int.zero_sub]
    rw [truncate_of_lt hpos] at hzero
    rw [h, UnOp.apply, hneg]
    exact describes_difference hwidth (fits_constant _ 0) (hm.fits.operand _ src) hpos hlt hzero
      (hm.describes.operand ha hw)
  · obtain rfl := hsame rfl
    have hfits := hm.fits.operand sourceTy.bits src
    have hbnot : UnOp.apply (UnOp.bnot.resultType sourceTy) a .bnot < modulus sourceTy.bits :=
      UnOp.apply_lt (Nat.lt_of_lt_of_le hlt sourceTy.modulus_bits_le)
    rw [h]
    exact describes_ofKnownBits hwidth hfits.known.not hbnot
      ((hm.describes.operand ha hw).known.not hwidth hfits.known)
  · obtain ⟨_, -, hbool⟩ := hfits
    obtain rfl : Ty.bool = ty := Option.some.inj (hbool.symm.trans hdest)
    have hfits := hm.fits.operand 1 src
    have htruth := hm.describes_negated hf hsource hconstant hread ha
    have hnot : UnOp.apply .bool a .not = invert 1 (a != 0).toNat := by
      rw [UnOp.apply]
      cases hzero : a == 0 <;> simp [hzero, bne] <;> rfl
    have hlt : invert 1 (a != 0).toNat < modulus 1 := by
      rw [← hnot]
      exact Ty.bool.toNat_lt _
    rw [h, hnot]
    exact describes_ofKnownBits hwidth hfits.known.not hlt (htruth.known.not hwidth hfits.known)

/-- The fact of a conversion describes the converted value. -/
theorem Holds.describes_cast (hm : m.Holds f store) {src : Operand} {source target : Ty}
    (hsource : src.HasType f.valueType? source) (hw : target.intWidth? = some w) {a : Nat}
    (ha : store.operand source src = .ok a) :
    (m.cast w src source target).Describes (convert source target a) := by
  have hwidth := Ty.isWidth_of_intWidth? hw
  rcases m.cast_cases w src source target with h | ⟨sourceWidth, hint, h⟩
  · rw [h]
    exact describes_unknown hwidth _
  · obtain rfl : target.bits = w := Ty.bits_of_intWidth? hw
    obtain rfl : source.bits = sourceWidth := Ty.bits_of_intWidth? hint
    have hlt := hm.typed.operand_lt hsource ha
    -- Between integer types the machine extends or cuts the word, as the sign of the source says.
    have hconvert : convert source target a
        = if source.isSigned then truncateInt target.bits (toSigned source.bits a)
          else truncate target.bits a := by
      rw [convert, hint, hw]
      dsimp only
      rw [show source.wrap a = a from truncate_of_lt hlt]
      rfl
    rw [h, hconvert]
    exact describes_converted source.isWidth_bits hwidth (hm.fits.operand _ src) hlt
      (hm.describes.operand ha hint) source.isSigned

/-- The transfer of a logical and is a bitwise one of truth values, if its operands have no integer
type. -/
theorem transfer_and_eq {name dest : String} {lhs rhs : Operand} (hname : m.width? name = none)
    (hty : m.operandType? dest lhs rhs = m.type? name) :
    m.transfer 1 (.binary dest .and lhs rhs) = bitAnd 1 (m.operand 1 lhs) (m.operand 1 rhs) := by
  have hwidth : (m.operandType? dest lhs rhs).bind Ty.intWidth? = none := by rw [hty]; exact hname
  show m.binary 1 dest .and lhs rhs = _
  unfold FactMap.binary
  dsimp only
  rw [hwidth]
  rfl

/-- At the width of truth values, nothing is known of a name without integer type, and an even
constant is zero. -/
theorem Covers.operand_misread (hm : m.Covers f) (hf : f.Typed) {name : String} {value : Int}
    (hname : (f.valueType? name).bind Ty.intWidth? = none) (heven : value % 2 = 0) :
    m.width? name = none ∧ m.operand 1 (.place name) = unknown 1 ∧
      m.operand 1 (.constant (.int value)) = constant 1 0 := by
  have hwidth : m.width? name = none := by rw [hm.width?_eq hf, hname]
  have hconstant := constant_even ((truncateInt_even_iff value).2 heven)
  exact ⟨hwidth, hm.fits.operand_place hwidth 1, hconstant⟩

/-- The transfer of a misread instruction excludes that both of its operands count as true. -/
theorem Covers.transfer_misreads (hm : m.Covers f) (hf : f.Typed) {instr : Instr}
    (h : instr.Misreads f store) : (m.transfer 1 instr).range.contains 1 = false := by
  unfold Instr.Misreads at h
  split at h
  · obtain ⟨hname, -, heven, -⟩ := h
    obtain ⟨hwidth, hplace, hconstant⟩ := hm.operand_misread hf hname heven
    rw [transfer_and_eq hwidth rfl, hplace, hconstant]
    decide
  · obtain ⟨hname, -, heven, -⟩ := h
    obtain ⟨hwidth, hplace, hconstant⟩ := hm.operand_misread hf hname heven
    rw [transfer_and_eq hwidth rfl, hplace, hconstant]
    decide
  · exact h.elim

/-- The machine computes one for a misread instruction. -/
theorem define_misreads (hf : f.Typed) (i : Interpreter) (label : String) {instr : Instr}
    (hfits : instr.FitsTypes f.valueType?) (h : instr.Misreads f store) :
    ∃ dest, f.valueType? dest = some .bool ∧ (i.code f).traps? instr = false ∧
      (i.code f).define label store instr = .ok (dest, 1) := by
  have hand : ∀ ty {a b}, a ≠ 0 → b ≠ 0 → BinOp.and.apply ty a b = .ok 1 := fun ty a b ha hb => by
    rw [BinOp.apply, bne_iff_ne.2 ha, bne_iff_ne.2 hb]
    rfl
  unfold Instr.Misreads at h
  split at h
  · obtain ⟨hname, ⟨v, hv, hvne⟩, -, hne⟩ := h
    obtain ⟨ty, hty, hlhs, -, hdest⟩ := hf.exists_binaryType (i := i) hfits
    rw [show f.valueType? _ = some ty from hlhs, Option.bind_some] at hname
    have hpattern := mt (pattern_eq_zero_iff hname _).1 hne
    exact ⟨_, hdest, rfl, Code.define_binary_eq_ok hty (Store.read_eq_ok_iff.2 hv) rfl
      (hand ty hvne hpattern)⟩
  · obtain ⟨hname, ⟨v, hv, hvne⟩, -, hne⟩ := h
    obtain ⟨ty, hty, -, hrhs, hdest⟩ := hf.exists_binaryType (i := i) hfits
    rw [show f.valueType? _ = some ty from hrhs, Option.bind_some] at hname
    have hpattern := mt (pattern_eq_zero_iff hname _).1 hne
    exact ⟨_, hdest, rfl, Code.define_binary_eq_ok hty rfl (Store.read_eq_ok_iff.2 hv)
      (hand ty hpattern hvne)⟩
  · exact h.elim

/-- A join of several facts describes what the first or one of the others describes. -/
theorem describes_foldl_join (hw : IsWidth w) (hv : v < modulus w) {fact : ValueFact}
    (hfact : fact.Fits w) {facts : List ValueFact} (hfacts : ∀ other ∈ facts, other.Fits w)
    (h : fact.Describes v ∨ ∃ other ∈ facts, other.Describes v) :
    (facts.foldl join fact).Describes v := by
  -- By induction on the facts: a join describes what either of its sides describes.
  induction facts generalizing fact with
  | nil =>
    rcases h with h | ⟨other, hother, -⟩
    · exact h
    · simp at hother
  | cons next rest ih =>
    have hnext := hfacts next List.mem_cons_self
    refine ih (hfact.join hnext) (fun other hother => hfacts other (List.mem_cons_of_mem _ hother))
      ?_
    rcases h with h | ⟨other, hother, h⟩
    · exact .inl (Describes.join hw hfact hnext hv (.inl h))
    · rcases List.mem_cons.1 hother with rfl | hother
      · exact .inl (Describes.join hw hfact hnext hv (.inr h))
      · exact .inr ⟨other, hother, h⟩

theorem describes_joinAll (hw : IsWidth w) (hv : v < modulus w) {facts : List ValueFact}
    (hfacts : ∀ fact ∈ facts, fact.Fits w) (h : ∃ fact ∈ facts, fact.Describes v) :
    (joinAll w facts).Describes v := by
  obtain ⟨fact, hfact, hdescribes⟩ := h
  cases facts with
  | nil => simp at hfact
  | cons first rest =>
    refine describes_foldl_join hw hv (hfacts first List.mem_cons_self)
      (fun other hother => hfacts other (List.mem_cons_of_mem _ hother)) ?_
    rcases List.mem_cons.1 hfact with rfl | hfact
    · exact .inl hdescribes
    · exact .inr ⟨fact, hfact, hdescribes⟩

/-- The transfer of a phi describes what it takes. -/
theorem Holds.describes_phi (hm : m.Holds f store) (hw : ty.intWidth? = some w) {dest : String}
    {values : List (Operand × String)} {value : Operand × String} (hvalue : value ∈ values)
    (hty : value.1.HasType f.valueType? ty) (h : store.operand ty value.1 = .ok v) :
    (m.transfer w (.phi dest values)).Describes v := by
  have hlt := hm.typed.operand_lt hty h
  rw [Ty.bits_of_intWidth? hw] at hlt
  refine describes_joinAll (Ty.isWidth_of_intWidth? hw) hlt (fun fact hfact => ?_)
    ⟨_, List.mem_map_of_mem hvalue, hm.describes.operand h hw⟩
  obtain ⟨other, -, rfl⟩ := List.mem_map.1 hfact
  exact hm.fits.operand w other.1

/-- The transfer of an instruction describes what the machine computes for it, unless the
instruction misreads a constant. -/
theorem Holds.describes_transfer (hm : m.Holds f store) (hf : f.Typed) {i : Interpreter}
    {label dest : String} {instr : Instr} (hfits : instr.FitsTypes f.valueType?)
    (hreads : ¬instr.Misreads f store) (hw : (f.valueType? dest).bind Ty.intWidth? = some w)
    (h : (i.code f).define label store instr = .ok (dest, v)) :
    (m.transfer w instr).Describes v := by
  -- The type of the result is the one that the machine reads.
  have hwidth : ∀ {ty}, f.valueType? dest = some ty → ty.intWidth? = some w := fun hdest => by
    rwa [hdest, Option.bind_some] at hw
  cases Code.computes_of_define h with
  | @const _ value ty hty =>
    have hread : store.operand ty (.constant value) = .ok (value.pattern ty) := rfl
    exact hm.describes.operand hread (hwidth (hf.typeOf_eq_ok_iff.1 hty))
  | @copy _ src _ hread =>
    obtain ⟨ty, hty, -⟩ := hm.typed src v (Store.read_eq_ok_iff.1 hread)
    have hplace : store.operand ty (.place src) = .ok v := hread
    exact hm.describes.operand hplace (hwidth (hfits.symm.trans hty))
  | binary hbinary => exact hm.describes_binary hf hfits hreads hw hbinary
  | @unary _ _ src _ _ _ hty hsource ha =>
    have hdest := hf.typeOf_eq_ok_iff.1 hty
    refine hm.describes_unary hf hfits hdest (hwidth hdest) ?_ (fun hconstant => ?_) ha
    · cases src with
      | place name => exact hf.typeOf_eq_ok_iff.1 hsource
      | constant _ => trivial
    · cases src with
      | place name => cases hconstant
      | constant _ => exact (Except.ok.inj hsource).symm
  | cast ha =>
    obtain ⟨hdest, hsrc, -, -⟩ := hfits
    exact hm.describes_cast hsrc (hwidth hdest) ha
  | @select _ _ _ _ ifTrue ifFalse _ _ _ hcond hty hv =>
    obtain ⟨ty', hdest, htrue, hfalse⟩ := hfits
    cases (hf.typeOf_eq_ok_iff.1 hty).symm.trans hdest
    have hint := hwidth hdest
    have hlt : v < modulus w := by
      rw [← Ty.bits_of_intWidth? hint]
      refine hm.typed.operand_lt ?_ hv
      split_ifs
      · exact htrue
      · exact hfalse
    refine Describes.join (Ty.isWidth_of_intWidth? hint) (hm.fits.operand w ifTrue)
      (hm.fits.operand w ifFalse) hlt ?_
    split_ifs at hv
    · exact .inl (hm.describes.operand hv hint)
    · exact .inr (hm.describes.operand hv hint)

end FactMap

end FactGuard
