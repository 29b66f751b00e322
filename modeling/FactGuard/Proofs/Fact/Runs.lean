import FactGuard.Proofs.Fact.Consistency
import FactGuard.Proofs.Fact.Transfer
import FactGuard.Proofs.Machine.Passage

/-!
# Facts hold in runs

The facts of a function describe every value that its runs hold, in every iteration of every loop:
the one fact of a name is the transfer of its instruction, and that describes each value that the
instruction computes from values which the facts describe (`Interpreter.Visits.describes`). The
exception is an instruction that misreads a constant. Its fact excludes the value that the machine
computes (`Instr.Misreads.exists_next`), so the facts hold in exactly those runs that come to no
such instruction (`Interpreter.facts_hold_iff`).
-/

namespace FactGuard

open FactMap ValueFact

/-- Every value held is in the range of its name's fact and agrees with its known bits. -/
def Function.FactsHold (f : Function) (store : Store) : Prop :=
  ∀ name v fact, store.get? name = some v → f.facts.get? name = some fact →
    fact.range.contains v = true ∧ fact.known.contains v = true

variable {f : Function} {i : Interpreter} {args : List Nat} {store : Store} {s : State}

theorem Function.facts_types (f : Function) : f.facts.types = f.declarations := by
  rw [facts_eq_sweep, types_sweep]

/-- The facts of a function are those of its names. -/
theorem Function.facts_covers (f : Function) : f.facts.Covers f := ⟨f.facts_types, f.facts_fits⟩

/-- A name with a fact has an integer type, of the width of the fact. -/
theorem Function.Typed.exists_width (hf : f.Typed) {name : String} {fact : ValueFact}
    (hfact : f.facts.get? name = some fact) :
    ∃ w, (f.valueType? name).bind Ty.intWidth? = some w ∧ fact.Fits w := by
  obtain ⟨w, hw, hfits⟩ := f.facts_fits name fact hfact
  exact ⟨w, (f.facts_covers.width?_eq hf name).symm.trans hw, hfits⟩

/-- In a typed store, the facts hold if they describe the values. -/
theorem Function.factsHold_iff (hf : f.Typed) (hstore : store.Typed f.valueType?) :
    f.FactsHold store ↔ f.facts.Describes store := by
  have hiff : ∀ {name v fact}, store.get? name = some v → f.facts.get? name = some fact →
      ((fact.range.contains v = true ∧ fact.known.contains v = true) ↔ fact.Describes v) :=
    fun hv hfact => by
      obtain ⟨w, hw, hfits⟩ := hf.exists_width hfact
      obtain ⟨ty, hty, hlt⟩ := hstore _ _ hv
      rw [hty, Option.bind_some] at hw
      rw [Ty.bits_of_intWidth? hw] at hlt
      exact contains_iff (Ty.isWidth_of_intWidth? hw) hfits hlt
  constructor
  · intro h name v fact hv hfact
    exact (hiff hv hfact).1 (h name v fact hv hfact)
  · intro h name v fact hv hfact
    exact (hiff hv hfact).2 (h name v fact hv hfact)

/-- Facts that are among those of a function are those of its names. -/
theorem FactMap.Below.covers {m : FactMap} (hm : m.Below f.facts)
    (htypes : m.types = f.declarations) : m.Covers f where
  types_eq := htypes
  fits name fact hfact := by
    obtain ⟨w, hw, hfits⟩ := f.facts_fits name fact (hm name fact hfact)
    rw [width?, type?, f.facts_types, ← htypes] at hw
    exact ⟨w, hw, hfits⟩

/-- The fact of a name is the transfer of the instruction that defines it, over facts that hold
where those of the function describe the values. -/
theorem Function.SingleDefs.transfer_of_fact (hd : f.SingleDefs) (hf : f.Typed) {block : Block}
    (hblock : block ∈ f.blocks) {instr : Instr} (hinstr : instr ∈ block.instrs) {name : String}
    (hdest : instr.dest? = some name) {w : Nat}
    (hw : (f.valueType? name).bind Ty.intWidth? = some w) :
    ∃ m : FactMap, m.Covers f ∧ f.facts.get? name = some (m.transfer w instr) ∧
      ∀ {store : Store}, store.Typed f.valueType? → f.facts.Describes store → m.Holds f store := by
  have hlast : f.latestType? name = f.valueType? name :=
    Bindings.last?_eq_get? hf.names_nodup name
  obtain ⟨m, htypes, hbelow, hfact⟩ := hd.exists_transfer hblock hinstr hdest (by rw [hlast, hw])
  have hcovers := hbelow.covers htypes
  exact ⟨m, hcovers, hfact, fun hstore h =>
    ⟨hcovers, fun name v fact hv hfact => h name v fact hv (hbelow name fact hfact), hstore⟩⟩

/-- Entering a block keeps what the facts describe: the fact of a phi is the transfer over facts of
whatever it may take. -/
theorem Function.SingleDefs.describes_insertAll (hd : f.SingleDefs) (hf : f.Typed) {block : Block}
    (hblock : block ∈ f.blocks) {pred : String} {values : List (String × Nat)}
    (hstore : store.Typed f.valueType?) (hdescribes : f.facts.Describes store)
    (hvalues : (i.code f).phiValues pred store block.phis = .ok values) :
    f.facts.Describes (store.insertAll values) := by
  intro name v fact hv hfact
  rcases Store.get?_insertAll hv with hmem | hold
  · obtain ⟨operands, operand, ty, hphi, hoperand, hty, hread⟩ :=
      Code.exists_of_mem_phiValues hvalues hmem
    have hinstr := (List.takeWhile_prefix _).subset hphi
    obtain ⟨w, hw, -⟩ := hf.exists_width hfact
    obtain ⟨m, -, hm, hholds⟩ := hd.transfer_of_fact hf hblock hinstr rfl hw
    obtain ⟨ty', hdest, htypes⟩ := hf.fitsTypes block hblock _ hinstr
    cases (hf.typeOf_eq_ok_iff.1 hty).symm.trans hdest
    cases hfact.symm.trans hm
    rw [hdest, Option.bind_some] at hw
    exact (hholds hstore hdescribes).describes_phi hw hoperand (htypes _ hoperand) hread
  · exact hdescribes name v fact hold hfact

/-- An instruction keeps what the facts describe, unless it misreads a constant. -/
theorem Function.SingleDefs.describes_insert (hd : f.SingleDefs) (hf : f.Typed) {block : Block}
    (hblock : block ∈ f.blocks) {instr : Instr} (hinstr : instr ∈ block.instrs)
    {label dest : String} {v : Nat} (hstore : store.Typed f.valueType?)
    (hdescribes : f.facts.Describes store) (hreads : ¬instr.Misreads f store)
    (hdefine : (i.code f).define label store instr = .ok (dest, v)) :
    f.facts.Describes (store.insert dest v) := by
  intro name v' fact hv hfact
  rw [Bindings.get?_insert] at hv
  split_ifs at hv with hname
  · cases hv
    subst hname
    obtain ⟨w, hw, -⟩ := hf.exists_width hfact
    obtain ⟨m, -, hm, hholds⟩ :=
      hd.transfer_of_fact hf hblock hinstr (Code.dest?_of_define hdefine) hw
    have hfits := hf.fitsTypes block hblock instr hinstr
    cases hfact.symm.trans hm
    exact (hholds hstore hdescribes).describes_transfer hf hfits hreads hw hdefine
  · exact hdescribes name v' fact hv hfact

/-- The facts describe the values of a run that misreads no constant. -/
theorem Interpreter.Visits.describes (hf : f.Typed) (hd : f.SingleDefs)
    (hreads : ∀ s, i.Visits f args s → ∀ instr rest, s.todo = instr :: rest →
      ¬instr.Misreads f s.store)
    (h : i.Visits f args s) : f.facts.Describes s.store := by
  refine (h.invariant (P := fun store => store.Typed f.valueType? ∧ f.facts.Describes store)
    ⟨?_, ?_⟩ ?_ ?_).2
  · exact arguments_typed hf
  · -- Parameters have no facts.
    intro name v fact hv hfact
    obtain ⟨ty, hparam, -⟩ := exists_of_arguments hv
    exact absurd (Function.of_get?_facts hfact).1
      (hd.params_not_mem name (List.mem_map_of_mem (f := Prod.fst) hparam))
  · rintro block hblock pred store values ⟨hstore, hdescribes⟩ hvalues
    have hfits := fun instr (hinstr : instr ∈ block.phis) =>
      hf.fitsTypes block hblock instr ((List.takeWhile_prefix _).subset hinstr)
    exact ⟨hstore.insertAll (hf.phiValues_lt hstore hfits hvalues),
      hd.describes_insertAll hf hblock hstore hdescribes hvalues⟩
  · rintro s hvisits ⟨hstore, hdescribes⟩ instr rest dest v htodo ⟨block, hblock, hinstr⟩ hdefine
    have hfits := hf.fitsTypes block hblock instr hinstr
    exact ⟨hstore.insert (hf.define_lt hstore hfits hdefine),
      hd.describes_insert hf hblock hinstr hstore hdescribes (hreads s hvisits instr rest htodo)
        hdefine⟩

/-- A misread instruction computes a value that its fact excludes. -/
theorem Instr.Misreads.exists_next (hf : f.Typed) (hd : f.SingleDefs) (hs : i.Visits f args s)
    {instr : Instr} {rest : List Instr} (htodo : s.todo = instr :: rest)
    (h : instr.Misreads f s.store) :
    ∃ t, i.Visits f args t ∧ ¬f.FactsHold t.store := by
  obtain ⟨block, hblock, hinstr⟩ := hs.within.exists_mem (by rw [htodo]; exact List.mem_cons_self)
  obtain ⟨dest, hbool, htraps, hdefine⟩ :=
    define_misreads hf i s.label (hf.fitsTypes block hblock instr hinstr) h
  -- The machine makes the result one, which its fact excludes.
  have hnext : s.next (i.code f)
      = .ok (.running { s with todo := rest, store := s.store.insert dest 1 }) := by
    rw [State.next_of_todo_cons htodo htraps, hdefine]
    rfl
  obtain ⟨m, hcovers, hfact, -⟩ := hd.transfer_of_fact hf hblock hinstr
    (Code.dest?_of_define hdefine)
    (w := 1) (by rw [hbool]; rfl)
  refine ⟨_, hs.next hnext, fun hholds => ?_⟩
  have hone : Bindings.get? (s.store.insert dest 1) dest = some 1 :=
    (Bindings.get?_insert ..).trans (if_pos rfl)
  have hcontains := (hholds dest 1 _ hone hfact).1
  rw [hcovers.transfer_misreads hf h] at hcontains
  cases hcontains

/-- In a typed function that defines each name once, every value that a run holds satisfies the fact
of its name, whatever the arguments are and however far the run goes, exactly if the run comes to no
logical and that misreads a constant. -/
theorem Interpreter.facts_hold_iff (hf : f.Typed) (hd : f.SingleDefs) (i : Interpreter)
    (args : List Nat) :
    (∀ s, i.Visits f args s → f.FactsHold s.store) ↔
      ∀ s, i.Visits f args s → ∀ instr rest, s.todo = instr :: rest →
        ¬instr.Misreads f s.store := by
  constructor
  · intro hhold s hs instr rest htodo hmisreads
    obtain ⟨t, ht, hfails⟩ := hmisreads.exists_next hf hd hs htodo
    exact hfails (hhold t ht)
  · intro hreads s hs
    exact (Function.factsHold_iff hf (hs.typed hf)).2 (hs.describes hf hd hreads)

/-- The countdown has no logical and, so its facts hold however often its loop goes round. -/
theorem Interpreter.facts_hold_iff_countdown :
    countdown.Typed ∧ countdown.SingleDefs ∧
      ∀ s, plain.Visits countdown [3] s → countdown.FactsHold s.store := by
  refine ⟨countdown_valid.toTyped, countdown_valid.toSingleDefs,
    (facts_hold_iff countdown_valid.toTyped countdown_valid.toSingleDefs plain [3]).2 ?_⟩
  intro s hs instr rest htodo hmisreads
  obtain ⟨block, hblock, hinstr⟩ := hs.within.exists_mem (by rw [htodo]; exact List.mem_cons_self)
  simp only [countdown, List.mem_cons, List.not_mem_nil, or_false] at hblock
  rcases hblock with rfl | rfl | rfl
  · simp at hinstr
  · simp only [List.mem_cons, List.not_mem_nil, or_false] at hinstr
    rcases hinstr with rfl | rfl | rfl <;> exact hmisreads
  · simp at hinstr

/-- A logical and of a float and an even constant. -/
def truthOfFloat : Function where
  name := "f"
  params := [("x", .f64)]
  result := .bool
  locals := [("r", .bool)]
  blocks := [⟨"entry", [.binary "r" .and (.place "x") (.constant (.int 2))],
    .ret (some (.place "r"))⟩]

theorem truthOfFloat_typed : truthOfFloat.Typed where
  names_nodup := by decide
  instr_names_mem := by decide
  terminator_names_mem := by decide
  fitsTypes := by
    intro block hblock instr hinstr
    simp only [truthOfFloat, List.mem_cons, List.not_mem_nil, or_false] at hblock
    subst hblock
    simp only [List.mem_cons, List.not_mem_nil, or_false] at hinstr
    subst hinstr
    exact ⟨.f64, rfl, trivial, rfl, fun h => by cases h⟩

theorem truthOfFloat_singleDefs : truthOfFloat.SingleDefs where
  definedNames_nodup := by decide
  params_not_mem := by decide

/-- The facts do not hold in every run: the machine takes a float that is not zero and the constant
two for true, and the fact of their logical and says that they are not both true. -/
theorem Interpreter.facts_fail_truthOfFloat :
    truthOfFloat.Typed ∧ truthOfFloat.SingleDefs ∧
      ∃ s, plain.Visits truthOfFloat [1] s ∧ ¬truthOfFloat.FactsHold s.store := by
  have hstart : plain.start truthOfFloat [1]
      = .ok ⟨"entry", none, [.binary "r" .and (.place "x") (.constant (.int 2))],
          .ret (some (.place "r")), [("x", 1)]⟩ := rfl
  have hnext : plain.Visits truthOfFloat [1] ⟨"entry", none, [], .ret (some (.place "r")),
      [("x", 1), ("r", 1)]⟩ := .next (.start hstart) rfl
  have hfact : truthOfFloat.facts.get? "r"
      = some (bitAnd 1 (unknown 1) (ValueFact.constant 1 2)) := rfl
  refine ⟨truthOfFloat_typed, truthOfFloat_singleDefs, _, hnext, fun hholds => ?_⟩
  have hcontains := (hholds "r" 1 _ rfl hfact).1
  revert hcontains
  decide

end FactGuard
