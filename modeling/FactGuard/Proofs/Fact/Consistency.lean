import FactGuard.Proofs.Fact.Operands

/-!
# Facts are consistent

The two halves of a fact that is inferred never contradict each other: some word lies in the range
and agrees with the known bits (`ValueFact.Satisfiable`). This follows from soundness without a run.
Words that satisfy the facts of the operands give a word that satisfies the fact of the result
(`Satisfiable.combine`, `FactMap.Satisfiable.transfer`), whatever the types of the operands are and
whether or not a run computes it. So it holds of every fact of every function
(`Function.satisfiable_lookup`), which therefore has the width of its name as well
(`Function.facts_fits`).
-/

namespace FactGuard

namespace ValueFact

/-- The halves of a fact have a width, and some word of the width is described. -/
structure Satisfiable (fact : ValueFact) (w : Nat) : Prop extends fact.Fits w where
  exists_describes : ∃ v < modulus w, fact.Describes v

variable {fact a b : ValueFact} {w : Nat}

/-! ## What a satisfiable fact says -/

theorem Satisfiable.isEmpty (h : fact.Satisfiable w) : fact.range.isEmpty = false := by
  obtain ⟨v, -, hv⟩ := h.exists_describes
  exact hv.range.isEmpty

/-- Some word is contained in both halves. -/
theorem Satisfiable.exists_contains (hw : IsWidth w) (h : fact.Satisfiable w) :
    ∃ v < modulus w, fact.range.contains v = true ∧ fact.known.contains v = true := by
  obtain ⟨v, hlt, hv⟩ := h.exists_describes
  exact ⟨v, hlt, (contains_iff hw h.toFits hlt).2 hv⟩

/-! ## Operations -/

theorem satisfiable_unknown (hw : IsWidth w) : (unknown w).Satisfiable w :=
  ⟨fits_unknown w, 0, modulus_pos w, describes_unknown hw 0⟩

theorem satisfiable_constant (hw : IsWidth w) (value : Nat) : (constant w value).Satisfiable w :=
  ⟨fits_constant w value, _, truncate_lt w value, describes_constant hw value⟩

/-- Known bits that admit a word make a satisfiable fact. -/
theorem satisfiable_ofKnownBits (hw : IsWidth w) {known : KnownBits} (hknown : known.Fits w)
    {v : Nat} (hv : v < modulus w) (h : known.Admits v) : (ofKnownBits known).Satisfiable w :=
  ⟨fits_ofKnownBits hknown, v, hv, describes_ofKnownBits hw hknown hv h⟩

theorem Satisfiable.refined (hw : IsWidth w) (h : fact.Satisfiable w) :
    fact.refined.Satisfiable w := by
  obtain ⟨v, hlt, hv⟩ := h.exists_describes
  exact ⟨h.toFits.refined, v, hlt, hv.refined hw h.toFits hlt⟩

theorem Satisfiable.join (hw : IsWidth w) (ha : a.Satisfiable w) (hb : b.Satisfiable w) :
    (a.join b).Satisfiable w := by
  obtain ⟨v, hlt, hv⟩ := ha.exists_describes
  exact ⟨ha.toFits.join hb.toFits, v, hlt, Describes.join hw ha.toFits hb.toFits hlt (.inl hv)⟩

theorem Satisfiable.add (hw : IsWidth w) (ha : a.Satisfiable w) (hb : b.Satisfiable w) :
    (ValueFact.refined ⟨a.range.add b.range, a.known.add b.known⟩).Satisfiable w := by
  obtain ⟨x, hx, hax⟩ := ha.exists_describes
  obtain ⟨y, hy, hby⟩ := hb.exists_describes
  exact ⟨Fits.refined ⟨ha.range.add, ha.known.add _⟩, _, truncate_lt _ _,
    FactMap.describes_sum hw ha.toFits hb.toFits hx hy hax hby⟩

theorem Satisfiable.sub (hw : IsWidth w) (ha : a.Satisfiable w) (hb : b.Satisfiable w) :
    (ValueFact.refined ⟨a.range.sub b.range, a.known.sub b.known⟩).Satisfiable w := by
  obtain ⟨x, hx, hax⟩ := ha.exists_describes
  obtain ⟨y, hy, hby⟩ := hb.exists_describes
  exact ⟨Fits.refined ⟨ha.range.sub, ha.known.sub _⟩, _, truncateInt_lt _ _,
    FactMap.describes_difference hw ha.toFits hb.toFits hx hy hax hby⟩

theorem Satisfiable.not (hw : IsWidth w) (ha : a.Satisfiable w) :
    (ofKnownBits a.known.not).Satisfiable w := by
  obtain ⟨x, -, hax⟩ := ha.exists_describes
  exact satisfiable_ofKnownBits hw ha.known.not (invert_lt w x) (hax.known.not hw ha.known)

/-- A shift by a known amount. The word of the operand is shifted as the known bits are. -/
theorem Satisfiable.shift (hw : IsWidth w) (ha : a.Satisfiable w) (op : BinOp) (isSigned : Bool)
    (amount : Nat) : (FactMap.shift op isSigned a amount).Satisfiable w := by
  obtain ⟨x, hx, hax⟩ := ha.exists_describes
  unfold FactMap.shift
  dsimp only
  refine Satisfiable.refined hw ?_
  split
  · exact satisfiable_ofKnownBits hw (ha.known.shl amount) (truncate_lt w _)
      (hax.known.shl hw ha.known amount)
  · exact satisfiable_ofKnownBits hw (ha.known.ashr amount) (truncateInt_lt w _)
      (hax.known.ashr hw ha.known amount)
  · have hshift : x >>> amount < modulus w := Nat.lt_of_le_of_lt (Nat.shiftRight_le x amount) hx
    exact satisfiable_ofKnownBits hw (ha.known.lshr amount) hshift
      (hax.known.lshr hw ha.known amount hx)

/-- An operation on two operands. The amount of a shift and the divisor of a quotient or remainder
are known if the range of the second operand holds one word only. -/
theorem Satisfiable.combine (hw : IsWidth w) (ha : a.Satisfiable w) (hb : b.Satisfiable w)
    (op : BinOp) (isSigned : Bool) :
    (FactMap.combine op isSigned w a b b.range.singleElement?).Satisfiable w := by
  have hunknown := satisfiable_unknown hw
  obtain ⟨x, hx, hax⟩ := ha.exists_describes
  obtain ⟨y, hy, hby⟩ := hb.exists_describes
  have hand : (FactMap.bitAnd w a b).Satisfiable w :=
    ⟨FactMap.fits_bitAnd ha.toFits, _, Nat.lt_of_le_of_lt Nat.and_le_left hx,
      FactMap.describes_bitAnd hw ha.toFits hb.toFits hx hy hax hby⟩
  have hbound : x ||| y < modulus w ∧ x ^^^ y < modulus w := by
    rw [hw.modulus_eq] at hx hy ⊢
    exact ⟨Nat.or_lt_two_pow hx hy, Nat.xor_lt_two_pow hx hy⟩
  have hor := satisfiable_ofKnownBits hw (ha.known.or b.known) hbound.1
    (hax.known.or hw ha.known hby.known)
  cases op with
  | add => exact ha.add hw hb
  | sub => exact ha.sub hw hb
  | band | and => exact hand
  | bor | or => exact hor
  | bxor =>
    exact satisfiable_ofKnownBits hw (ha.known.xor b.known) hbound.2
      (hax.known.xor hw ha.known hby.known)
  | shl | shr =>
    unfold FactMap.combine
    dsimp only
    split
    · exact ha.shift hw _ _ _
    · exact hunknown
  | mod =>
    unfold FactMap.combine
    dsimp only
    split
    · rename_i divisor hsingle
      split_ifs with hpos
      · -- The divisor is the word of the second operand, so it is one of the width.
        obtain rfl := hby.range.eq_of_singleElement? hw hb.range hy hsingle
        exact ⟨FactMap.fits_remainder ha.toFits _, _, Nat.lt_of_le_of_lt (Nat.mod_le _ _) hx,
          FactMap.describes_remainder hw ha.toFits hx hax hpos hy⟩
      · exact hunknown
    · exact hunknown
  | div =>
    unfold FactMap.combine
    dsimp only
    split
    · split_ifs
      · exact ⟨FactMap.fits_quotient .., _, Nat.lt_of_le_of_lt (Nat.div_le_self _ _) hx,
          FactMap.describes_quotient hw ha.toFits hx hax _⟩
      · exact hunknown
    · exact hunknown
  | mul | fadd | fsub | fmul | fdiv | eq | ne | lt | gt | le | ge | ult | ugt | ule | uge =>
    exact hunknown

end ValueFact

namespace FactMap

open ValueFact

variable {m : FactMap} {w : Nat}

/-! ## Instructions -/

/-- Every fact has the width of its name, and describes some word. -/
def Satisfiable (m : FactMap) : Prop :=
  ∀ name fact, m.get? name = some fact → ∃ w, m.width? name = some w ∧ fact.Satisfiable w

/-- Names have widths that values may have. -/
theorem isWidth_of_width? {name : String} (h : m.width? name = some w) : IsWidth w := by
  obtain ⟨ty, -, hty⟩ := Option.bind_eq_some_iff.1 h
  exact Ty.isWidth_of_intWidth? hty

/-- Satisfiable facts have the widths of their names. -/
theorem Satisfiable.toFits (hm : m.Satisfiable) : m.Fits := fun name fact hfact => by
  obtain ⟨w, hw, hsat⟩ := hm name fact hfact
  exact ⟨w, hw, hsat.toFits⟩

theorem Satisfiable.operand (hm : m.Satisfiable) (hw : IsWidth w) (operand : Operand) :
    (m.operand w operand).Satisfiable w := by
  rcases m.operand_cases w operand with ⟨name, hfact, hwidth⟩ | ⟨value, h⟩ | h
  · obtain ⟨w', -, hsat⟩ := hm name _ hfact
    obtain rfl : w' = w := hsat.width_eq.symm.trans hwidth
    exact hsat
  · rw [h]
    exact satisfiable_constant hw value
  · rw [h]
    exact satisfiable_unknown hw

theorem Satisfiable.unary (hm : m.Satisfiable) (hw : IsWidth w) (op : UnOp) (src : Operand) :
    (m.unary w op src).Satisfiable w := by
  have hsrc := hm.operand hw src
  rcases m.unary_cases w op src with h | ⟨-, ⟨-, h⟩ | ⟨-, h⟩⟩
  · rw [h]
    exact satisfiable_unknown hw
  · rw [h]
    exact (satisfiable_constant hw 0).sub hw hsrc
  · rw [h]
    exact hsrc.not hw

theorem Satisfiable.cast (hm : m.Satisfiable) (hw : IsWidth w) (src : Operand)
    (source target : Ty) : (m.cast w src source target).Satisfiable w := by
  rcases m.cast_cases w src source target with h | ⟨sourceWidth, hsource, h⟩
  · rw [h]
    exact satisfiable_unknown hw
  · have hsourceWidth := Ty.isWidth_of_intWidth? hsource
    have hsrc := hm.operand hsourceWidth src
    obtain ⟨x, hx, hax⟩ := hsrc.exists_describes
    rw [h]
    refine ⟨fits_converted hsrc.toFits _ w, _, ?_,
      describes_converted hsourceWidth hw hsrc.toFits hx hax source.isSigned⟩
    split_ifs
    · exact truncateInt_lt _ _
    · exact truncate_lt _ _

theorem satisfiable_foldl_join (hw : IsWidth w) {fact : ValueFact} (hfact : fact.Satisfiable w)
    {facts : List ValueFact} (hfacts : ∀ other ∈ facts, other.Satisfiable w) :
    (facts.foldl join fact).Satisfiable w := by
  induction facts generalizing fact with
  | nil => exact hfact
  | cons next rest ih =>
    exact ih (hfact.join hw (hfacts next List.mem_cons_self))
      fun other hother => hfacts other (List.mem_cons_of_mem _ hother)

theorem satisfiable_joinAll (hw : IsWidth w) {facts : List ValueFact}
    (hfacts : ∀ fact ∈ facts, fact.Satisfiable w) : (joinAll w facts).Satisfiable w := by
  cases facts with
  | nil => exact satisfiable_unknown hw
  | cons first rest =>
    exact satisfiable_foldl_join hw (hfacts first List.mem_cons_self)
      fun other hother => hfacts other (List.mem_cons_of_mem _ hother)

/-- The transfer of an instruction is satisfiable if the facts so far are, whether or not the types
of its operands fit. -/
theorem Satisfiable.transfer (hm : m.Satisfiable) (hw : IsWidth w) (instr : Instr) :
    (m.transfer w instr).Satisfiable w := by
  cases instr with
  | const dest value => exact hm.operand hw _
  | copy dest src => exact hm.operand hw (.place src)
  | binary dest op lhs rhs =>
    show (m.binary w dest op lhs rhs).Satisfiable w
    unfold FactMap.binary
    dsimp only
    split_ifs
    · exact satisfiable_unknown hw
    · exact (hm.operand hw lhs).combine hw (hm.operand hw rhs) op _
  | unary dest op src => exact hm.unary hw op src
  | cast dest src source target => exact hm.cast hw src source target
  | select dest op lhs rhs ifTrue ifFalse =>
    exact (hm.operand hw ifTrue).join hw (hm.operand hw ifFalse)
  | phi dest values =>
    refine satisfiable_joinAll hw fun fact hfact => ?_
    obtain ⟨value, -, rfl⟩ := List.mem_map.1 hfact
    exact hm.operand hw value.1
  | call dest callee args tail => exact satisfiable_unknown hw

/-! ## Sweeps -/

/-- A step of a sweep keeps facts satisfiable. -/
theorem Satisfiable.visitInstr (hm : m.Satisfiable) (instr : Instr) :
    (m.visitInstr instr).Satisfiable := by
  intro name fact hfact
  have hwidth : (m.visitInstr instr).width? name = m.width? name := by
    unfold width? type?
    rw [types_visitInstr]
  rw [hwidth]
  rw [get?_visitInstr] at hfact
  split_ifs at hfact
  · rcases Option.or_eq_some_iff.1 hfact with hnew | ⟨-, hold⟩
    · obtain ⟨w, hw, rfl⟩ := Option.map_eq_some_iff.1 hnew
      exact ⟨w, hw, hm.transfer (isWidth_of_width? hw) instr⟩
    · exact hm name fact hold
  · exact hm name fact hfact

theorem Satisfiable.sweep (hm : m.Satisfiable) (instrs : List Instr) :
    (instrs.foldl FactMap.visitInstr m).Satisfiable := by
  induction instrs generalizing m with
  | nil => exact hm
  | cons instr rest ih => exact ih (hm.visitInstr instr)

end FactMap

namespace Function

/-- The facts of a function are satisfiable, in whatever order its blocks are visited. -/
theorem facts_satisfiable (f : Function) : f.facts.Satisfiable := by
  rw [facts_eq_sweep]
  refine FactMap.Satisfiable.sweep (fun name fact h => ?_) _
  cases h

/-- The facts of a function have the widths of their names. -/
theorem facts_fits (f : Function) : f.facts.Fits := f.facts_satisfiable.toFits

/-- What is answered for a name is satisfiable, at the width of its last declaration. -/
theorem satisfiable_lookup (f : Function) (name : String) :
    ∃ w, IsWidth w ∧ (f.facts.lookup name).Satisfiable w ∧
      ∀ width, (f.latestType? name).bind Ty.intWidth? = some width → w = width := by
  have htypes : f.facts.types = f.declarations := by rw [facts_eq_sweep, FactMap.types_sweep]
  have hwidth : f.facts.width? name = (f.latestType? name).bind Ty.intWidth? := by
    unfold FactMap.width? FactMap.type?
    rw [htypes]
    rfl
  rw [← hwidth]
  unfold FactMap.lookup
  cases hfact : f.facts.get? name with
  | some fact =>
    obtain ⟨w, hw, hsat⟩ := f.facts_satisfiable name fact hfact
    exact ⟨w, FactMap.isWidth_of_width? hw, hsat, fun width h => Option.some.inj (hw.symm.trans h)⟩
  | none =>
    cases hw : f.facts.width? name with
    | some w =>
      have hisWidth := FactMap.isWidth_of_width? hw
      exact ⟨w, hisWidth, ValueFact.satisfiable_unknown hisWidth, fun width h => Option.some.inj h⟩
    | none =>
      have hisWidth : IsWidth maxWidth := ⟨by decide, by decide⟩
      exact ⟨maxWidth, hisWidth, ValueFact.satisfiable_unknown hisWidth, fun _ h => by cases h⟩

end Function

end FactGuard
