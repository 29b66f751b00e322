import FactGuard.Proofs.Machine.Results

/-!
# Divisors that read zero

A run divides by zero unawares exactly if it comes to an instruction that misses its divisor
(`Interpreter.division_safe_iff`): at a signed type of width `w` the divisor is a pattern other than
zero that is a multiple of `2^w`. A word of the type is no such pattern. So this needs a divisor
that is wider than the type at which the machine divides, which is the type of the dividend, and in
a typed function whose divisors are no wider no run comes to one
(`Instr.not_missesDivisor`). The condition is not part of being typed, because the operands of a
select's condition may have any types.
-/

namespace FactGuard

/-- Where a function divides a named value of a signed type by another named value, the type of the
divisor is no wider. -/
def Function.DivisorsFit (f : Function) : Prop :=
  ∀ block ∈ f.blocks, ∀ instr ∈ block.instrs, ∀ dest op dividend divisor,
    instr.operation? = some (dest, op, .place dividend, .place divisor) → op.IsDivision →
    ∀ ty ty', f.valueType? dividend = some ty → ty.isSigned = true →
      f.valueType? divisor = some ty' → ty'.bits ≤ ty.bits

/-- With words of their types for operands, an instruction whose divisor is no wider than its
dividend does not miss it. -/
theorem Instr.not_missesDivisor {f : Function} (hf : f.Typed) (hfit : f.DivisorsFit)
    {i : Interpreter} {store : Store} (hstore : store.Typed f.valueType?) {block : Block}
    (hblock : block ∈ f.blocks) {instr : Instr} (hinstr : instr ∈ block.instrs) (dest : String) :
    ¬instr.MissesDivisor (i.code f) store dest := by
  rintro ⟨op, lhs, rhs, hop, hdivision, ty, a, b, hty, hsigned, -, hb, hne, hdvd⟩
  -- The divisor is a word of the type at which the division is computed.
  have hlt : b < modulus ty.bits := by
    cases rhs with
    | constant value =>
      cases hb
      exact value.pattern_lt ty
    | place divisor =>
      -- The type is that of the dividend if it is named, and else that of the divisor.
      obtain ⟨ty', hty', hlt⟩ := hstore divisor b (Store.read_eq_ok_iff.1 hb)
      cases lhs with
      | constant value =>
        cases (hf.typeOf_eq_ok_iff.1 hty).symm.trans hty'
        exact hlt
      | place dividend =>
        have hwidth := hfit block hblock instr hinstr dest op dividend divisor hop hdivision ty ty'
          (hf.typeOf_eq_ok_iff.1 hty) hsigned hty'
        exact Nat.lt_of_lt_of_le hlt (Nat.le_of_dvd (modulus_pos _) (modulus_dvd hwidth))
  rw [ty.isWidth_bits.modulus_eq] at hlt
  exact hne (Nat.eq_zero_of_dvd_of_lt hdvd hlt)

/-- No run on the arguments divides by zero unawares, whatever its limit, exactly if the run comes
to no instruction that misses its divisor. In a typed function whose divisors are no wider than
their dividends it comes to none. -/
theorem Interpreter.division_safe_iff (i : Interpreter) (f : Function) (args : List Nat) :
    ((∀ limit dest, (i.withStepLimit limit).run f args ≠ .error (.divisorReadsZero dest)) ↔
      ∀ s, i.Visits f args s → ∀ instr rest, s.todo = instr :: rest →
        ∀ dest, ¬instr.MissesDivisor (i.code f) s.store dest) ∧
    (f.Typed → f.DivisorsFit → ∀ limit dest,
      (i.withStepLimit limit).run f args ≠ .error (.divisorReadsZero dest)) := by
  -- A result under some limit is one of a state that ends the run, so the limit is no matter.
  have hiff : (∀ limit dest, (i.withStepLimit limit).run f args ≠ .error (.divisorReadsZero dest)) ↔
      ∀ s, i.Visits f args s → ∀ instr rest, s.todo = instr :: rest →
        ∀ dest, ¬instr.MissesDivisor (i.code f) s.store dest := by
    have hresult : ∀ dest limit, (.error (.divisorReadsZero dest) : Except EvalError Outcome)
        ≠ .error (.stepLimit limit) := fun _ _ h => nomatch h
    have hrun := fun dest => exists_run_eq_iff i f args (hresult dest)
    constructor
    · intro hsafe s hs instr rest htodo dest hmisses
      have hends : s.Ends (i.code f) (.error (.divisorReadsZero dest)) :=
        s.next_eq_missed_iff.2 ⟨instr, rest, htodo, hmisses⟩
      obtain ⟨limit, hlimit⟩ := (hrun dest).2 (.inr ⟨s, hs, hends⟩)
      exact hsafe limit dest hlimit
    · intro hsafe limit dest hlimit
      rcases (hrun dest).1 ⟨limit, hlimit⟩ with ⟨e, hstart, he⟩ | ⟨s, hs, hends⟩
      · cases he
        exact (i.start_ordinary f args _ hstart).elim
      · obtain ⟨instr, rest, htodo, hmisses⟩ := s.next_eq_missed_iff.1 hends
        exact hsafe s hs instr rest htodo dest hmisses
  refine ⟨hiff, fun hf hfit => hiff.2 fun s hs instr rest htodo dest => ?_⟩
  obtain ⟨block, hblock, hinstr⟩ := hs.within.exists_mem (by rw [htodo]; exact List.mem_cons_self)
  exact Instr.not_missesDivisor hf hfit (hs.typed hf) hblock hinstr dest

/-- Divides an integer of eight bits by one of type `ty`. -/
def quotientBy (ty : Ty) : Function where
  name := "f"
  params := [("x", .i8), ("y", ty)]
  result := .i8
  locals := [("q", .i8)]
  blocks := [⟨"entry", [.binary "q" .div (.place "x") (.place "y")], .ret (some (.place "q"))⟩]

theorem quotientBy_i8_typed : (quotientBy .i8).Typed where
  names_nodup := by decide
  instr_names_mem := by decide
  terminator_names_mem := by decide
  fitsTypes := by
    intro block hblock instr hinstr
    simp only [quotientBy, List.mem_cons, List.not_mem_nil, or_false] at hblock
    subst hblock
    simp only [List.mem_cons, List.not_mem_nil, or_false] at hinstr
    subst hinstr
    exact ⟨.i8, rfl, rfl, rfl, fun h => by cases h⟩

/-- Between integers of eight bits, the least one is divided by minus one. -/
theorem Interpreter.division_safe_iff_i8 :
    (quotientBy .i8).Typed ∧ (quotientBy .i8).DivisorsFit ∧
      (∀ limit dest, (plain.withStepLimit limit).run (quotientBy .i8) [128, 255]
        ≠ .error (.divisorReadsZero dest)) ∧
      plain.run (quotientBy .i8) [128, 255] = .ok (.returned (some 128)) := by
  have hfit : (quotientBy .i8).DivisorsFit := by
    rintro block hblock instr hinstr dest op dividend divisor hop - ty ty' hty - hty'
    simp only [quotientBy, List.mem_cons, List.not_mem_nil, or_false] at hblock
    subst hblock
    simp only [List.mem_cons, List.not_mem_nil, or_false] at hinstr
    subst hinstr
    cases hop
    cases hty
    cases hty'
    exact Nat.le_refl _
  exact ⟨quotientBy_i8_typed, hfit,
    (division_safe_iff plain _ [128, 255]).2 quotientBy_i8_typed hfit, rfl⟩

/-- With a divisor of sixteen bits, 256 is not zero, but its low eight bits are. -/
theorem Interpreter.division_missed_i16 :
    (∃ s instr rest, plain.Visits (quotientBy .i16) [1, 256] s ∧ s.todo = instr :: rest ∧
      instr.MissesDivisor (plain.code (quotientBy .i16)) s.store "q") ∧
    256 ≠ 0 ∧ toSigned (Ty.bits .i8) 256 = 0 ∧
    plain.run (quotientBy .i16) [1, 256] = .error (.divisorReadsZero "q") := by
  have hstart : plain.start (quotientBy .i16) [1, 256]
      = .ok ⟨"entry", none, [.binary "q" .div (.place "x") (.place "y")],
          .ret (some (.place "q")), [("x", 1), ("y", 256)]⟩ := rfl
  refine ⟨⟨_, _, _, .start hstart, rfl, .div, .place "x", .place "y", rfl, .inl rfl, .i8, 1, 256,
    rfl, rfl, rfl, rfl, by decide, by decide⟩, by decide, rfl, rfl⟩

end FactGuard
