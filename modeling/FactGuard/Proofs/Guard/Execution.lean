import FactGuard.Proofs.Guard.Lowering
import FactGuard.Proofs.Guard.Meaning
import FactGuard.Proofs.Machine.Steps

/-!
# What the instructions of a guard compute

The instructions of a guard run through, one step each, keep every value held for a name that was
declared before, and compute a truth value that is one exactly if the guard is violated
(`Guard.lower_evaluates`). Each builder of `Guard/Lower.lean` has its lemma, and these are put
together as the builders are. The constants of a guard have to be words of the value's type, since
they are cut to it.
-/

namespace FactGuard

/-- The code knows the types that a function declares. -/
def Code.Knows (code : Code) (f : Function) : Prop :=
  ∀ name ty, f.valueType? name = some ty → code.typeOf name = .ok ty

/-- The pattern of a constant that holds a word of its type is the word. -/
theorem pattern_ofBits {ty : Ty} {w c : Nat} (hty : ty.intWidth? = some w) (hc : c < modulus w) :
    (Constant.int (toSigned 64 c)).pattern ty = c := by
  have hfloat : ¬ty.isFloat = true := by cases ty <;> simp [Ty.intWidth?, Ty.isFloat] at hty ⊢
  rw [Constant.pattern, if_neg hfloat, Ty.wrapInt, Ty.bits_of_intWidth? hty,
    truncateInt_toSigned_of_le (Ty.isWidth_of_intWidth? hty).le, truncate_of_lt hc]

namespace Lowering

/-- The instructions that lead from one lowering to another take the machine from one store to
another, one step each, and keep the values of the names that were declared. -/
structure Reaches (code : Code) (label : String) (l : Lowering) (store : Store) (l' : Lowering)
    (store' : Store) : Prop where
  emits : Emits l l'
  exists_instrs : ∃ instrs, l'.instrs = l.instrs ++ instrs ∧ ∀ origin rest terminator,
    State.Steps code instrs.length ⟨label, origin, instrs ++ rest, terminator, store⟩
      ⟨label, origin, rest, terminator, store'⟩
  keeps : ∀ name ty, l.function.valueType? name = some ty → store'.get? name = store.get? name

/-- On the way to another lowering, a truth value is computed. -/
structure Evaluates (code : Code) (label : String) (l : Lowering) (store : Store) (l' : Lowering)
    (r : String) (b : Bool) : Prop where
  valueType? : l'.function.valueType? r = some .bool
  exists_store : ∃ store', Reaches code label l store l' store' ∧ store'.get? r = some b.toNat

variable {code : Code} {label value : String} {l l' : Lowering} {store store' : Store} {ty : Ty}
  {v w : Nat}

theorem Reaches.refl (l : Lowering) (store : Store) : Reaches code label l store l store where
  emits := .refl l
  exists_instrs := ⟨[], (List.append_nil _).symm, fun _ _ _ => .refl _⟩
  keeps _ _ _ := rfl

theorem Reaches.trans {l'' : Lowering} {store'' : Store} (h : Reaches code label l store l' store')
    (h' : Reaches code label l' store' l'' store'') : Reaches code label l store l'' store'' where
  emits := h.emits.trans h'.emits
  exists_instrs := by
    obtain ⟨first, hfirst, hsteps⟩ := h.exists_instrs
    obtain ⟨second, hsecond, hsteps'⟩ := h'.exists_instrs
    refine ⟨first ++ second, by rw [hsecond, hfirst, List.append_assoc], fun origin rest term => ?_⟩
    rw [List.length_append, List.append_assoc]
    exact (hsteps origin (second ++ rest) term).trans (hsteps' origin rest term)
  keeps name ty hname := by
    rw [h'.keeps name ty (h.emits.valueType? hname), h.keeps name ty hname]

/-- Code that knows the types of a lowering knows those of the lowerings before. -/
theorem Emits.knows (h : Emits l l') (hcode : code.Knows l'.function) : code.Knows l.function :=
  fun name ty hname => hcode name ty (h.valueType? hname)

/-- The instruction of an operation is one step, which binds a fresh name. -/
theorem exists_reaches_emit (label : String) (op : BinOp) (result : Ty) {rhs : Operand}
    {a b r : Nat} (hcode : code.Knows l.function) (hname : l.function.valueType? value = some ty)
    (hrhs : rhs.HasType l.function.valueType? ty) (hop : op.resultType ty = result)
    (ha : store.get? value = some a) (hb : store.operand ty rhs = .ok b)
    (hr : op.apply ty a b = .ok r) :
    ∃ store', Reaches code label l store (l.emit result op (.place value) rhs).2 store' ∧
      store'.get? (l.emit result op (.place value) rhs).1 = some r := by
  have hfresh := l.function.freshLocal_not_mem stem result
  have hdefine : ∀ dest : String,
      code.define label store (.binary dest op (.place value) rhs) = .ok (dest, r) := fun dest =>
    Code.define_binary_eq_ok (hcode value ty hname) (Store.read_eq_ok_iff.2 ha) hb hr
  refine ⟨store.insert (l.emit result op (.place value) rhs).1 r,
    ⟨.emit (.refl l) hname hrhs hop, ⟨_, rfl, fun origin rest term => ?_⟩,
      fun name ty' hname' => ?_⟩,
    (Bindings.get?_insert ..).trans (if_pos rfl)⟩
  · exact State.steps_define rfl (hdefine _)
  · -- The bound name is new, so whatever has a type keeps its value.
    have hne : (l.emit result op (.place value) rhs).1 ≠ name := by
      rintro rfl
      exact hfresh ((Bindings.isSome_get?_iff _ _).1 (Option.isSome_of_eq_some hname'))
    exact (Bindings.get?_insert ..).trans (if_neg hne)

/-- A comparison of the value with a word of its type. -/
theorem evaluates_compare (label : String) (op : BinOp) (hcode : code.Knows l.function)
    (hname : l.function.valueType? value = some ty) (hw : ty.intWidth? = some w)
    (hv : store.get? value = some v) {c : Nat} {b : Bool} (hc : c < modulus w)
    (hop : op.resultType ty = .bool) (hb : op.apply ty v c = .ok b.toNat) :
    Evaluates code label l store (l.compare value op c).2 (l.compare value op c).1 b where
  valueType? := valueType?_emit ..
  exists_store := by
    refine exists_reaches_emit label op .bool hcode hname trivial hop hv ?_ hb
    exact congrArg Except.ok (pattern_ofBits hw hc)

/-- Two truth values, combined. -/
theorem evaluates_combine (label : String) (op : BinOp) (hcode : code.Knows l.function)
    {x y : String} {a b c : Bool} (hx : l.function.valueType? x = some .bool)
    (hy : l.function.valueType? y = some .bool) (ha : store.get? x = some a.toNat)
    (hb : store.get? y = some b.toNat) (hop : op.resultType .bool = .bool)
    (hc : op.apply .bool a.toNat b.toNat = .ok c.toNat) :
    Evaluates code label l store (l.combine op x y).2 (l.combine op x y).1 c where
  valueType? := valueType?_emit ..
  exists_store :=
    exists_reaches_emit label op .bool hcode hx hy hop ha (Store.read_eq_ok_iff.2 hb) hc

/-- The masked value, compared with a word of its type. -/
theorem evaluates_maskedDiffers {mask expected : Nat}
    (hcode : code.Knows (l.maskedDiffers value ty mask expected).2.function)
    (hname : l.function.valueType? value = some ty) (hw : ty.intWidth? = some w)
    (hv : store.get? value = some v) (hmask : mask < modulus w) (hexpected : expected < modulus w) :
    Evaluates code label l store (l.maskedDiffers value ty mask expected).2
      (l.maskedDiffers value ty mask expected).1 (v &&& mask != expected) where
  valueType? := valueType?_emit ..
  exists_store := by
    have hmasked := valueType?_emit l ty .band (.place value) (.ofBits mask)
    have hconstant : ∀ c types, (Operand.ofBits c).HasType types ty := fun _ _ => trivial
    have hfirst : Emits l (l.emit ty .band (.place value) (.ofBits mask)).2 :=
      .emit (.refl l) hname (hconstant mask _) rfl
    have hsecond : Emits (l.emit ty .band (.place value) (.ofBits mask)).2
        (l.maskedDiffers value ty mask expected).2 :=
      .emit (.refl _) hmasked (hconstant expected _) rfl
    -- The code knows the names of the whole lowering, and so those of its two instructions.
    have hcode' := hsecond.knows hcode
    have hcode'' := hfirst.knows hcode'
    obtain ⟨store', hreaches, hget⟩ := exists_reaches_emit label .band ty
      hcode'' hname (hconstant mask _) rfl hv (congrArg Except.ok (pattern_ofBits hw hmask)) rfl
    obtain ⟨store'', hreaches', hget'⟩ := exists_reaches_emit label .ne .bool
      hcode' hmasked (hconstant expected _) rfl hget
      (congrArg Except.ok (pattern_ofBits hw hexpected)) rfl
    exact ⟨store'', hreaches.trans hreaches', hget'⟩

/-- Two comparisons of the value, combined. -/
theorem evaluates_compareBoth {op : BinOp} {lower upper : Nat}
    (hcode : code.Knows (l.compareBoth value op lower upper).2.function)
    (hname : l.function.valueType? value = some ty) (hw : ty.intWidth? = some w)
    (hv : store.get? value = some v) (hlower : lower < modulus w) (hupper : upper < modulus w)
    (hop : op.resultType .bool = .bool) {c : Bool}
    (hc : op.apply .bool (decide (v < lower)).toNat (decide (upper ≤ v)).toNat = .ok c.toNat) :
    Evaluates code label l store (l.compareBoth value op lower upper).2
      (l.compareBoth value op lower upper).1 c where
  valueType? := valueType?_emit ..
  exists_store := by
    have hbelow := yields_compare hname .ult rfl lower
    have hname' := hbelow.emits.valueType? hname
    have habove := yields_compare hname' .uge rfl upper
    have hbelow' := habove.emits.valueType? hbelow.valueType?
    have hcode₂ := (yields_combine hbelow' habove.valueType? op hop).emits.knows hcode
    have hcode₁ := habove.emits.knows hcode₂
    obtain ⟨store₁, hreaches₁, hget₁⟩ := (evaluates_compare label .ult
      (hbelow.emits.knows hcode₁) hname hw hv hlower rfl rfl).exists_store
    have hv₁ := (hreaches₁.keeps value ty hname).trans hv
    obtain ⟨store₂, hreaches₂, hget₂⟩ := (evaluates_compare label .uge hcode₁ hname' hw hv₁
      hupper rfl rfl).exists_store
    -- The result of the first comparison is still held after the second one.
    have hget₁' := (hreaches₂.keeps _ _ hbelow.valueType?).trans hget₁
    obtain ⟨store₃, hreaches₃, hget₃⟩ := (evaluates_combine label op hcode₂ hbelow'
      habove.valueType? hget₁' hget₂ hop hc).exists_store
    exact ⟨store₃, (hreaches₁.trans hreaches₂).trans hreaches₃, hget₃⟩

end Lowering

/-- The constants of a term are words of a width. -/
def Term.Fits (w : Nat) : Term → Prop
  | outsideRange lower upper | insideGap lower upper => lower < modulus w ∧ upper < modulus w
  | forcedZeroSet mask | forcedOneClear mask => mask < modulus w

namespace Lowering

variable {code : Code} {label value : String} {l l' : Lowering} {store store' : Store} {ty : Ty}
  {v w : Nat}

/-- A term is computed as it is defined. -/
theorem evaluates_term (label : String) {t : Term}
    (hcode : code.Knows (l.term value ty t).2.function)
    (hname : l.function.valueType? value = some ty) (hw : ty.intWidth? = some w)
    (hv : store.get? value = some v) (ht : t.Fits w) :
    Evaluates code label l store (l.term value ty t).2 (l.term value ty t).1 (t.holds v) := by
  cases t with
  | outsideRange lower upper =>
    -- No word is below a bound of zero, so one comparison is left.
    obtain ⟨hlower, hupper⟩ := ht
    by_cases hzero : lower = 0
    · have hterm : l.term value ty (.outsideRange lower upper) = l.compare value .uge upper :=
        if_pos hzero
      have hholds : Term.holds v (.outsideRange lower upper) = decide (upper ≤ v) := by
        simp [Term.holds, hzero]
      rw [hterm] at hcode ⊢
      rw [hholds]
      exact evaluates_compare label .uge ((yields_compare hname .uge rfl upper).emits.knows hcode)
        hname hw hv
        hupper rfl rfl
    · have hterm : l.term value ty (.outsideRange lower upper)
          = l.compareBoth value .or lower upper := if_neg hzero
      rw [hterm] at hcode ⊢
      refine evaluates_compareBoth hcode hname hw hv hlower hupper rfl ?_
      cases hlt : decide (v < lower) <;> cases hge : decide (upper ≤ v) <;>
        simp [Term.holds, BinOp.apply, hlt, hge]
  | insideGap lower upper =>
    obtain ⟨hlower, hupper⟩ := ht
    by_cases hzero : upper = 0
    · have hterm : l.term value ty (.insideGap lower upper) = l.compare value .ult lower :=
        if_pos hzero
      have hholds : Term.holds v (.insideGap lower upper) = decide (v < lower) := by
        simp [Term.holds, hzero]
      rw [hterm] at hcode ⊢
      rw [hholds]
      exact evaluates_compare label .ult ((yields_compare hname .ult rfl lower).emits.knows hcode)
        hname hw hv
        hlower rfl rfl
    · have hterm : l.term value ty (.insideGap lower upper)
          = l.compareBoth value .and lower upper := if_neg hzero
      rw [hterm] at hcode ⊢
      refine evaluates_compareBoth hcode hname hw hv hlower hupper rfl ?_
      cases hlt : decide (v < lower) <;> cases hge : decide (upper ≤ v) <;>
        simp [Term.holds, BinOp.apply, hlt, hge]
  | forcedZeroSet mask => exact evaluates_maskedDiffers hcode hname hw hv ht (modulus_pos w)
  | forcedOneClear mask => exact evaluates_maskedDiffers hcode hname hw hv ht ht

/-- Further terms are combined with the result so far by a logical or. -/
theorem evaluates_furtherTerms (label : String) {result : String} {b : Bool} (terms : List Term)
    (hcode : code.Knows (l.furtherTerms value ty result terms).2.function)
    (hname : l.function.valueType? value = some ty)
    (hresult : l.function.valueType? result = some .bool) (hw : ty.intWidth? = some w)
    (hv : store.get? value = some v) (hb : store.get? result = some b.toNat)
    (hterms : ∀ t ∈ terms, t.Fits w) :
    Evaluates code label l store (l.furtherTerms value ty result terms).2
      (l.furtherTerms value ty result terms).1 (b || terms.any (Term.holds v)) := by
  induction terms generalizing l store result b with
  | nil =>
    rw [List.any_nil, Bool.or_false]
    exact ⟨hresult, store, .refl l store, hb⟩
  | cons t rest ih =>
    -- Names declared so far keep their types, those of the value and of the result among them.
    have hterm := yields_term hname t
    have hname' := hterm.emits.valueType? hname
    have hresult' := hterm.emits.valueType? hresult
    have hboth := yields_combine hresult' hterm.valueType? .or rfl
    have hname'' := hboth.emits.valueType? hname'
    have hcode₂ : code.Knows
        ((l.term value ty t).2.combine .or result (l.term value ty t).1).2.function :=
      (yields_furtherTerms rest ⟨.refl _, hboth.valueType?, hboth.mem_defined⟩ hname'').emits.knows
        hcode
    have hcode₁ := hboth.emits.knows hcode₂
    -- Then the term is computed, combined with the result, and the induction goes on from there.
    obtain ⟨store₁, hreaches₁, hget₁⟩ := (evaluates_term label hcode₁ hname hw hv
      (hterms t List.mem_cons_self)).exists_store
    have hb₁ := (hreaches₁.keeps _ _ hresult).trans hb
    have hor : BinOp.or.apply .bool b.toNat (t.holds v).toNat = .ok (b || t.holds v).toNat := by
      cases b <;> cases t.holds v <;> rfl
    obtain ⟨store₂, hreaches₂, hget₂⟩ := (evaluates_combine label .or hcode₁ hresult'
      hterm.valueType? hb₁ hget₁ rfl hor).exists_store
    have hv₂ := (hreaches₂.keeps _ _ hname').trans ((hreaches₁.keeps _ _ hname).trans hv)
    obtain ⟨htype, store₃, hreaches₃, hget₃⟩ := ih hcode hname'' hboth.valueType? hv₂ hget₂
      fun other hother => hterms other (List.mem_cons_of_mem _ hother)
    refine ⟨htype, store₃, (hreaches₁.trans hreaches₂).trans hreaches₃, ?_⟩
    rw [List.any_cons, ← Bool.or_assoc]
    exact hget₃

end Lowering

/-- The terms that the settings make of a range and known bits fit the width of the range, if its
bounds and their masks do. -/
theorem Settings.fits_of_condition {settings : Settings} {range : ValueRange} {known : KnownBits}
    {guard : Guard} (h : settings.condition range known = .violated guard)
    (hlower : range.lower < modulus range.width) (hupper : range.upper < modulus range.width)
    (hzero : known.zero.bits < modulus range.width) (hone : known.one.bits < modulus range.width) :
    guard.width = range.width ∧ ∀ t ∈ guard.terms, t.Fits range.width := by
  have hrange : ∀ t ∈ rangeTerms range, t.Fits range.width := by
    unfold rangeTerms
    intro t ht
    split_ifs at ht
    · simp at ht
    · rw [List.mem_singleton.1 ht]
      exact ⟨hlower, hupper⟩
    · rw [List.mem_singleton.1 ht]
      exact ⟨hlower, hupper⟩
  have hbits : ∀ t ∈ bitTerms known, t.Fits range.width := by
    unfold bitTerms
    intro t ht
    rcases List.mem_append.1 ht with ht | ht
    · split_ifs at ht
      · simp at ht
      · rw [List.mem_singleton.1 ht]
        exact hzero
    · split_ifs at ht
      · simp at ht
      · rw [List.mem_singleton.1 ht]
        exact hone
  -- A guard has terms of the two kinds, and those only that the settings ask for.
  unfold Settings.condition at h
  by_cases halways : (settings.checkRanges && range.isEmpty) = true
  · rw [if_pos halways] at h
    cases h
  · rw [if_neg halways] at h
    cases h
    refine ⟨rfl, fun t ht => ?_⟩
    rcases List.mem_append.1 ht with ht | ht
    · split_ifs at ht
      · exact hrange t ht
      · simp at ht
    · split_ifs at ht
      · exact hbits t ht
      · simp at ht

/-- The instructions of a guard with terms run through from a store that holds the value, keep all
values of declared names, and the result is one exactly if the guard is violated. -/
theorem Guard.lower_evaluates (label : String) {guard : Guard} {code : Code} {value : String}
    {f : Function} {store : Store} {ty : Ty} {v : Nat} (hterms : guard.terms ≠ [])
    (hcode : code.Knows (guard.lower value ty f).1.function) (hname : f.valueType? value = some ty)
    (hw : ty.intWidth? = some guard.width) (hfits : ∀ t ∈ guard.terms, t.Fits guard.width)
    (hv : store.get? value = some v) (hlt : v < modulus guard.width) :
    ∃ store' : Store,
      (∀ origin rest terminator,
        State.Steps code (guard.lower value ty f).1.instrs.length
          ⟨label, origin, (guard.lower value ty f).1.instrs ++ rest, terminator, store⟩
          ⟨label, origin, rest, terminator, store'⟩) ∧
      (∀ name ∈ f.declarations.names, store'.get? name = store.get? name) ∧
      store'.operand .bool (guard.lower value ty f).2 = .ok (guard.isViolated v).toNat := by
  unfold Guard.lower at hcode ⊢
  unfold Guard.isViolated
  rw [truncate_of_lt hlt]
  cases hcase : guard.terms with
  | nil => exact absurd hcase hterms
  | cons t rest =>
    rw [hcase] at hcode hfits
    dsimp only at hcode ⊢
    -- The first term gives the result that the further terms go on from, and they keep the value.
    have hterm := Lowering.yields_term (l := ⟨f, []⟩) hname t
    have hname' := hterm.emits.valueType? hname
    have hcode' := (Lowering.yields_furtherTerms rest
      ⟨.refl _, hterm.valueType?, hterm.mem_defined⟩ hname').emits.knows hcode
    obtain ⟨store₁, hreaches₁, hget₁⟩ := (Lowering.evaluates_term label hcode' hname hw hv
      (hfits t List.mem_cons_self)).exists_store
    have hv₁ := (hreaches₁.keeps _ _ hname).trans hv
    obtain ⟨-, store₂, hreaches₂, hget₂⟩ := Lowering.evaluates_furtherTerms label rest hcode
      hname' hterm.valueType? hw hv₁ hget₁ fun other hother =>
        hfits other (List.mem_cons_of_mem _ hother)
    -- Both parts of the code together are the instructions of the guard.
    have hreaches := hreaches₁.trans hreaches₂
    obtain ⟨instrs, hinstrs, hsteps⟩ := hreaches.exists_instrs
    rw [List.nil_append] at hinstrs
    refine ⟨store₂, ?_, fun name hmem => ?_, Store.read_eq_ok_iff.2 ?_⟩
    · rw [hinstrs]
      exact hsteps
    · obtain ⟨ty', hty'⟩ := Option.isSome_iff_exists.1 ((Bindings.isSome_get?_iff _ _).2 hmem)
      exact hreaches.keeps name ty' hty'
    · rw [List.any_cons]
      exact hget₂

/-! ## How many instructions there are -/

/-- The greatest number of instructions that compute a term. -/
def Term.cost : Term → Nat
  | outsideRange .. | insideGap .. => 3
  | forcedZeroSet _ | forcedOneClear _ => 2

namespace Lowering

variable (value : String) (ty : Ty)

theorem length_emit (l : Lowering) (result : Ty) (op : BinOp) (lhs rhs : Operand) :
    (l.emit result op lhs rhs).2.instrs.length = l.instrs.length + 1 := List.length_append

theorem length_compareBoth (l : Lowering) (op : BinOp) (lower upper : Nat) :
    (l.compareBoth value op lower upper).2.instrs.length = l.instrs.length + 3 := by
  unfold compareBoth compare combine
  dsimp only
  rw [length_emit, length_emit, length_emit]

theorem length_term (l : Lowering) (t : Term) :
    (l.term value ty t).2.instrs.length ≤ l.instrs.length + t.cost := by
  have hcompare : ∀ op constant,
      (l.compare value op constant).2.instrs.length ≤ l.instrs.length + 3 := fun op constant => by
    have hlength : (l.compare value op constant).2.instrs.length = _ := length_emit ..
    omega
  have hmasked : ∀ mask expected,
      (l.maskedDiffers value ty mask expected).2.instrs.length ≤ l.instrs.length + 2 :=
    fun mask expected => by
      unfold maskedDiffers
      dsimp only
      rw [length_emit, length_emit]
  cases t with
  | outsideRange lower upper =>
    unfold term
    dsimp only
    split_ifs
    · exact hcompare .uge upper
    · exact (length_compareBoth value l .or lower upper).le
  | insideGap lower upper =>
    unfold term
    dsimp only
    split_ifs
    · exact hcompare .ult lower
    · exact (length_compareBoth value l .and lower upper).le
  | forcedZeroSet mask => exact hmasked mask 0
  | forcedOneClear mask => exact hmasked mask mask

theorem length_furtherTerms (l : Lowering) (result : String) (terms : List Term) :
    (l.furtherTerms value ty result terms).2.instrs.length
      ≤ l.instrs.length + (terms.map (·.cost + 1)).sum := by
  induction terms generalizing l result with
  | nil => exact Nat.le_refl _
  | cons t rest ih =>
    have hterm := length_term value ty l t
    have hboth := length_emit (l.term value ty t).2 .bool .or (.place result)
      (.place (l.term value ty t).1)
    have hrest := ih ((l.term value ty t).2.combine .or result (l.term value ty t).1).2
      ((l.term value ty t).2.combine .or result (l.term value ty t).1).1
    rw [List.map_cons, List.sum_cons]
    calc (l.furtherTerms value ty result (t :: rest)).2.instrs.length
        ≤ _ := hrest
      _ = (l.term value ty t).2.instrs.length + 1 + (rest.map (·.cost + 1)).sum := by
        rw [← hboth]
        rfl
      _ ≤ l.instrs.length + (t.cost + 1 + (rest.map (·.cost + 1)).sum) := by omega

end Lowering

/-- A guard becomes at most as many instructions as its terms cost, and one less than one more for
each term to combine them. -/
theorem Guard.length_lower {guard : Guard} (hterms : guard.terms ≠ []) (value : String) (ty : Ty)
    (f : Function) :
    (guard.lower value ty f).1.instrs.length + 1 ≤ (guard.terms.map (·.cost + 1)).sum := by
  unfold Guard.lower
  cases hcase : guard.terms with
  | nil => exact absurd hcase hterms
  | cons t rest =>
    have hfirst := Lowering.length_term value ty ⟨f, []⟩ t
    have hrest := Lowering.length_furtherTerms value ty
      ((Lowering.mk f []).term value ty t).2 ((Lowering.mk f []).term value ty t).1 rest
    have hnil : (Lowering.mk f []).instrs.length = 0 := rfl
    rw [List.map_cons, List.sum_cons]
    dsimp only
    omega

/-- What the settings ask for of a range and known bits costs no more than nine instructions. -/
theorem Settings.length_lower_le {settings : Settings} {range : ValueRange} {known : KnownBits}
    {guard : Guard} (h : settings.condition range known = .violated guard)
    (hterms : guard.terms ≠ []) (value : String) (ty : Ty) (f : Function) :
    (guard.lower value ty f).1.instrs.length ≤ 9 := by
  have hlength := guard.length_lower hterms value ty f
  -- A range gives one term, and known bits give two.
  have hrange : ((rangeTerms range).map (·.cost + 1)).sum ≤ 4 := by
    unfold rangeTerms
    split_ifs <;> simp [Term.cost]
  have hbits : ((bitTerms known).map (·.cost + 1)).sum ≤ 6 := by
    unfold bitTerms
    split_ifs <;> simp [Term.cost]
  have hranges :
      ((if settings.checkRanges then rangeTerms range else []).map (·.cost + 1)).sum ≤ 4 := by
    split_ifs
    · exact hrange
    · exact Nat.zero_le _
  have hmasks :
      ((if settings.checkKnownBits then bitTerms known else []).map (·.cost + 1)).sum ≤ 6 := by
    split_ifs
    · exact hbits
    · exact Nat.zero_le _
  unfold Settings.condition at h
  by_cases halways : (settings.checkRanges && range.isEmpty) = true
  · rw [if_pos halways] at h
    cases h
  · rw [if_neg halways] at h
    cases h
    rw [List.map_append, List.sum_append] at hlength
    omega

end FactGuard
