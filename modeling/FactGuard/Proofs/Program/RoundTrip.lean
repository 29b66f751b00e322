import FactGuard.Proofs.Json.RoundTrip
import FactGuard.Proofs.Json.Values
import FactGuard.Proofs.Program.WellFormed

/-!
# Reading programs that were written

With any library for documents that does what is asked of it, a program is read back from the text
of its document if its integers are words with sign and its floats are finite and read back each for
itself (`Program.ofText_compact`). Only constants need these conditions (`Constant.Readable`). Every
other part of a program is read back because its own parts are: its document is a record or variant
of theirs, and its decoder, which asks for the fields by the names that the encoder has given them,
comes down to their decoders. The documents of programs are never nested deep
(`Program.depth_encode_le`).
-/

namespace FactGuard

open Json (Yields)

variable {lib : Json.Library}

/-! ## Constants -/

/-- The constants of an operand. -/
def Operand.constants : Operand → List Constant
  | place _ => []
  | constant value => [value]

/-- The constants of an instruction. -/
def Instr.constants : Instr → List Constant
  | const _ value => [value]
  | instr => instr.operands.flatMap Operand.constants

/-- The constants of a terminator, those that it compares with included. -/
def Terminator.constants : Terminator → List Constant
  | switch value cases _ => value.constants ++ cases.map fun c => .int c.1
  | terminator => terminator.operands.flatMap Operand.constants

/-- The constants of a block. -/
def Block.constants (block : Block) : List Constant :=
  block.instrs.flatMap Instr.constants ++ block.terminator.constants

/-- The constants of a program. -/
def Program.constants (p : Program) : List Constant :=
  p.functions.flatMap fun f => f.blocks.flatMap Block.constants

/-- The constant can be written: an integer is a word of 64 bits with sign, and a float is finite.
-/
def Constant.Fits : Constant → Prop
  | int value => -2 ^ 63 ≤ value ∧ value < 2 ^ 63
  | float value => value.isFinite = true
  | _ => True

instance : DecidablePred Constant.Fits
  | .int value => inferInstanceAs (Decidable (-2 ^ 63 ≤ value ∧ value < 2 ^ 63))
  | .float value => inferInstanceAs (Decidable (value.isFinite = true))
  | .bool _ => inferInstanceAs (Decidable True)
  | .unit => inferInstanceAs (Decidable True)

/-- The constant can be written, and is read back from its digits if it is a float. -/
structure Constant.Readable (format : Json.TextFormat) (value : Constant) : Prop where
  fits : value.Fits
  float_eq : ∀ x, value = .float x → format.parse (format.compact (.float x)) = .ok (.float x)

/-- A readable constant is read back. -/
theorem Constant.Readable.yields {value : Constant} (h : value.Readable lib.toTextFormat)
    (hlib : lib.Spec) : Yields lib.toTextFormat value.encode (decode lib) value := by
  obtain ⟨hfits, hfloat⟩ := h
  cases value with
  | int value =>
    have hvalue := hlib.yields_int hfits.1 hfits.2
    refine hlib.yields_variant ⟨hvalue.writable, ?_⟩
    -- The variant's name is found by evaluation, so only its data is left to decode.
    show (do return Constant.int (← lib.signed (.int value))) = _
    rw [hvalue.decode_eq]
    rfl
  | float value =>
    refine hlib.yields_variant ⟨.float (hfloat value rfl), ?_⟩
    show (do return Constant.float (← lib.number (.float value))) = _
    rw [hlib.number_float value hfits]
    rfl
  | bool value =>
    refine hlib.yields_variant ⟨.bool value, ?_⟩
    show (do return Constant.bool (← lib.boolean (.bool value))) = _
    rw [hlib.boolean_bool]
    rfl
  | unit =>
    refine ⟨.str _, ?_⟩
    show (lib.variant (.str "unit") >>= _) = _
    rw [hlib.variant_str]
    rfl

/-! ## Types and operations -/

theorem Ty.yields (hlib : lib.Spec) (ty : Ty) :
    Yields lib.toTextFormat ty.encode (decode lib) ty :=
  hlib.yields_named _ (by cases ty <;> rfl)

theorem BinOp.yields (hlib : lib.Spec) (op : BinOp) :
    Yields lib.toTextFormat op.encode (decode lib) op :=
  hlib.yields_named _ (by cases op <;> rfl)

theorem UnOp.yields (hlib : lib.Spec) (op : UnOp) :
    Yields lib.toTextFormat op.encode (decode lib) op :=
  hlib.yields_named _ (by cases op <;> rfl)

/-- An operand is read back if its constants are readable. -/
theorem Operand.yields (hlib : lib.Spec) {operand : Operand}
    (h : ∀ value ∈ operand.constants, value.Readable lib.toTextFormat) :
    Yields lib.toTextFormat operand.encode (decode lib) operand := by
  cases operand with
  | place name =>
    refine hlib.yields_variant ⟨.str name, ?_⟩
    show (do return Operand.place (← lib.text (.str name))) = _
    rw [hlib.text_str]
    rfl
  | constant value =>
    have hvalue := (h value List.mem_cons_self).yields hlib
    refine hlib.yields_variant ⟨hvalue.writable, ?_⟩
    show (do return Operand.constant (← Constant.decode lib value.encode)) = _
    rw [hvalue.decode_eq]
    rfl

namespace Instr

/-- The operands of an instruction are read back if its constants are readable. -/
theorem yields_operand (hlib : lib.Spec) {instr : Instr}
    (h : ∀ value ∈ instr.constants, value.Readable lib.toTextFormat)
    {operand : Operand} (hoperand : operand ∈ instr.operands) :
    Yields lib.toTextFormat operand.encode (Operand.decode lib) operand := by
  refine Operand.yields hlib fun value hvalue => h value ?_
  have hmem : value ∈ instr.operands.flatMap Operand.constants :=
    List.mem_flatMap.2 ⟨operand, hoperand, hvalue⟩
  cases instr with
  | const => exact absurd hoperand List.not_mem_nil
  | _ => exact hmem

/-- An instruction is read back if its constants are readable. -/
theorem yields (hlib : lib.Spec) {instr : Instr}
    (h : ∀ value ∈ instr.constants, value.Readable lib.toTextFormat) :
    Yields lib.toTextFormat instr.encode (decode lib) instr := by
  have hoperand : ∀ operand ∈ instr.operands,
      Yields lib.toTextFormat operand.encode (Operand.decode lib) operand :=
    fun _ => yields_operand hlib h
  cases instr with
  | const dest value =>
    have hvalue := (h value List.mem_cons_self).yields hlib
    refine hlib.yields_variant (hlib.yields_record ?_ ?_ fun fields hfields => ?_)
    · simp
    · simpa using ⟨.str dest, hvalue.writable⟩
    · simp only [List.forall_mem_cons] at hfields
      obtain ⟨fdest, fvalue, -⟩ := hfields
      rw [hlib.required_eq fdest (hlib.text_str dest), hlib.required_eq fvalue hvalue.decode_eq]
      rfl
  | copy dest src =>
    refine hlib.yields_variant (hlib.yields_record ?_ ?_ fun fields hfields => ?_)
    · simp
    · simpa using ⟨.str dest, .str src⟩
    · simp only [List.forall_mem_cons] at hfields
      obtain ⟨fdest, fsrc, -⟩ := hfields
      rw [hlib.required_eq fdest (hlib.text_str dest), hlib.required_eq fsrc (hlib.text_str src)]
      rfl
  | binary dest op lhs rhs =>
    have hop := op.yields hlib
    have hlhs := hoperand lhs (by simp [operands])
    have hrhs := hoperand rhs (by simp [operands])
    refine hlib.yields_variant (hlib.yields_record ?_ ?_ fun fields hfields => ?_)
    · simp
    · simpa using ⟨.str dest, hop.writable, hlhs.writable, hrhs.writable⟩
    · simp only [List.forall_mem_cons] at hfields
      obtain ⟨fdest, fop, flhs, frhs, -⟩ := hfields
      rw [hlib.required_eq fdest (hlib.text_str dest), hlib.required_eq fop hop.decode_eq,
        hlib.required_eq flhs hlhs.decode_eq, hlib.required_eq frhs hrhs.decode_eq]
      rfl
  | unary dest op src =>
    have hop := op.yields hlib
    have hsrc := hoperand src (by simp [operands])
    refine hlib.yields_variant (hlib.yields_record ?_ ?_ fun fields hfields => ?_)
    · simp
    · simpa using ⟨.str dest, hop.writable, hsrc.writable⟩
    · simp only [List.forall_mem_cons] at hfields
      obtain ⟨fdest, fop, fsrc, -⟩ := hfields
      rw [hlib.required_eq fdest (hlib.text_str dest), hlib.required_eq fop hop.decode_eq,
        hlib.required_eq fsrc hsrc.decode_eq]
      rfl
  | call dest callee args tail =>
    have hdest : Yields lib.toTextFormat (.ofOption (dest.map .str)) (lib.optional lib.text) dest :=
      hlib.yields_option fun name _ => ⟨hlib.yields_str name, by simp [Json.str]⟩
    have hargs := hlib.yields_list hoperand
    refine hlib.yields_variant (hlib.yields_record ?_ ?_ fun fields hfields => ?_)
    · simp
    · simpa using ⟨hdest.writable, .str callee, hargs.writable, .bool tail⟩
    · simp only [List.forall_mem_cons] at hfields
      obtain ⟨fdest, fcallee, fargs, ftail, -⟩ := hfields
      rw [hlib.defaulted_eq none fdest hdest.decode_eq,
        hlib.required_eq fcallee (hlib.text_str callee), hlib.required_eq fargs hargs.decode_eq,
        hlib.defaulted_eq false ftail (hlib.boolean_bool tail)]
      rfl
  | phi dest values =>
    have hvalues := hlib.yields_list fun value (hvalue : value ∈ values) =>
      hlib.yields_pair (hoperand value.1 (List.mem_map_of_mem hvalue))
        (hlib.yields_str value.2)
    refine hlib.yields_variant (hlib.yields_record ?_ ?_ fun fields hfields => ?_)
    · simp
    · simpa using ⟨.str dest, hvalues.writable⟩
    · simp only [List.forall_mem_cons] at hfields
      obtain ⟨fdest, fvalues, -⟩ := hfields
      rw [hlib.required_eq fdest (hlib.text_str dest), hlib.required_eq fvalues hvalues.decode_eq]
      rfl
  | cast dest src source target =>
    have hsrc := hoperand src (by simp [operands])
    have hsource := source.yields hlib
    have htarget := target.yields hlib
    refine hlib.yields_variant (hlib.yields_record ?_ ?_ fun fields hfields => ?_)
    · simp
    · simpa using ⟨.str dest, hsrc.writable, hsource.writable, htarget.writable⟩
    · simp only [List.forall_mem_cons] at hfields
      obtain ⟨fdest, fsrc, fsource, ftarget, -⟩ := hfields
      rw [hlib.required_eq fdest (hlib.text_str dest), hlib.required_eq fsrc hsrc.decode_eq,
        hlib.required_eq fsource hsource.decode_eq, hlib.required_eq ftarget htarget.decode_eq]
      rfl
  | select dest op lhs rhs ifTrue ifFalse =>
    have hop := op.yields hlib
    have hlhs := hoperand lhs (by simp [operands])
    have hrhs := hoperand rhs (by simp [operands])
    have htrue := hoperand ifTrue (by simp [operands])
    have hfalse := hoperand ifFalse (by simp [operands])
    refine hlib.yields_variant (hlib.yields_record ?_ ?_ fun fields hfields => ?_)
    · simp
    · simpa using ⟨.str dest, hop.writable, hlhs.writable, hrhs.writable, htrue.writable,
        hfalse.writable⟩
    · simp only [List.forall_mem_cons] at hfields
      obtain ⟨fdest, fop, flhs, frhs, ftrue, ffalse, -⟩ := hfields
      rw [hlib.required_eq fdest (hlib.text_str dest), hlib.required_eq fop hop.decode_eq,
        hlib.required_eq flhs hlhs.decode_eq, hlib.required_eq frhs hrhs.decode_eq,
        hlib.required_eq ftrue htrue.decode_eq, hlib.required_eq ffalse hfalse.decode_eq]
      rfl

end Instr

/-- A terminator is read back if its constants are readable. -/
theorem Terminator.yields (hlib : lib.Spec) {terminator : Terminator}
    (h : ∀ value ∈ terminator.constants, value.Readable lib.toTextFormat) :
    Yields lib.toTextFormat terminator.encode (decode lib) terminator := by
  cases terminator with
  | ret value? =>
    have hvalue : Yields lib.toTextFormat (.ofOption (value?.map Operand.encode))
        (lib.optional (Operand.decode lib)) value? :=
      hlib.yields_option fun operand hoperand => by
        refine ⟨Operand.yields hlib fun value hvalue => h value ?_,
          by cases operand <;> rintro ⟨⟩⟩
        exact List.mem_flatMap.2 ⟨operand, Option.mem_toList.2 hoperand, hvalue⟩
    refine hlib.yields_variant ⟨hvalue.writable, ?_⟩
    show (do
      return ret (← lib.optional (Operand.decode lib) (.ofOption (value?.map Operand.encode)))) = _
    rw [hvalue.decode_eq]
    rfl
  | goto target =>
    refine hlib.yields_variant ⟨.str target, ?_⟩
    show (do return goto (← lib.text (.str target))) = _
    rw [hlib.text_str]
    rfl
  | branch cond ifTrue ifFalse =>
    have hcond := Operand.yields hlib fun value hvalue => h value
      (List.mem_flatMap.2 ⟨cond, List.mem_cons_self, hvalue⟩)
    refine hlib.yields_variant (hlib.yields_record ?_ ?_ fun fields hfields => ?_)
    · simp
    · simpa using ⟨hcond.writable, .str ifTrue, .str ifFalse⟩
    · simp only [List.forall_mem_cons] at hfields
      obtain ⟨fcond, ftrue, ffalse, -⟩ := hfields
      rw [hlib.required_eq fcond hcond.decode_eq, hlib.required_eq ftrue (hlib.text_str ifTrue),
        hlib.required_eq ffalse (hlib.text_str ifFalse)]
      rfl
  | unreachable =>
    refine ⟨.str _, ?_⟩
    show (lib.variant (.str "unreachable") >>= _) = _
    rw [hlib.variant_str]
    rfl
  | switch value cases default =>
    have hvalue := Operand.yields hlib fun constant hconstant => h constant
      (List.mem_append_left _ hconstant)
    have hcases := hlib.yields_list fun c (hc : c ∈ cases) => by
      have hfits := (h (.int c.1) (List.mem_append_right _ (List.mem_map_of_mem hc))).fits
      exact hlib.yields_pair (hlib.yields_int hfits.1 hfits.2) (hlib.yields_str c.2)
    refine hlib.yields_variant (hlib.yields_record ?_ ?_ fun fields hfields => ?_)
    · simp
    · simpa using ⟨hvalue.writable, hcases.writable, .str default⟩
    · simp only [List.forall_mem_cons] at hfields
      obtain ⟨fvalue, fcases, fdefault, -⟩ := hfields
      rw [hlib.required_eq fvalue hvalue.decode_eq, hlib.required_eq fcases hcases.decode_eq,
        hlib.required_eq fdefault (hlib.text_str default)]
      rfl

/-! ## Blocks, functions and programs -/

/-- A block is read back if its constants are readable. -/
theorem Block.yields (hlib : lib.Spec) {block : Block}
    (h : ∀ value ∈ block.constants, value.Readable lib.toTextFormat) :
    Yields lib.toTextFormat block.encode (decode lib) block := by
  have hinstrs := hlib.yields_list fun instr (hinstr : instr ∈ block.instrs) =>
    Instr.yields hlib fun value hvalue => h value
      (List.mem_append_left _ (List.mem_flatMap.2 ⟨instr, hinstr, hvalue⟩))
  have hterminator := Terminator.yields hlib fun value hvalue => h value
    (List.mem_append_right _ hvalue)
  refine hlib.yields_record ?_ ?_ fun fields hfields => ?_
  · simp
  · simpa using ⟨.str block.label, hinstrs.writable, hterminator.writable⟩
  · simp only [List.forall_mem_cons] at hfields
    obtain ⟨flabel, finstrs, fterminator, -⟩ := hfields
    rw [hlib.required_eq flabel (hlib.text_str block.label),
      hlib.required_eq finstrs hinstrs.decode_eq,
      hlib.required_eq fterminator hterminator.decode_eq]
    rfl

/-- A table of types is read back. -/
theorem yields_types (hlib : lib.Spec) (types : List (String × Ty)) :
    Yields lib.toTextFormat (encodeTypes types) (decodeTypes lib) types :=
  hlib.yields_list fun entry _ =>
    hlib.yields_pair (hlib.yields_str entry.1) (entry.2.yields hlib)

/-- A function is read back if the constants of its blocks are readable. -/
theorem Function.yields (hlib : lib.Spec) {f : Function}
    (h : ∀ value ∈ f.blocks.flatMap Block.constants, value.Readable lib.toTextFormat) :
    Yields lib.toTextFormat f.encode (decode lib) f := by
  have hparams := yields_types hlib f.params
  have hresult := f.result.yields hlib
  have hlocals := yields_types hlib f.locals
  have hblocks := hlib.yields_list fun block (hblock : block ∈ f.blocks) =>
    Block.yields hlib fun value hvalue => h value (List.mem_flatMap.2 ⟨block, hblock, hvalue⟩)
  refine hlib.yields_record ?_ ?_ fun fields hfields => ?_
  · simp
  · simpa using ⟨.str f.name, hparams.writable, hresult.writable, hlocals.writable,
      hblocks.writable⟩
  · simp only [List.forall_mem_cons] at hfields
    obtain ⟨fname, fparams, fresult, flocals, fblocks, -⟩ := hfields
    rw [hlib.required_eq fname (hlib.text_str f.name), hlib.required_eq fparams hparams.decode_eq,
      hlib.required_eq fresult hresult.decode_eq, hlib.defaulted_eq [] flocals hlocals.decode_eq,
      hlib.required_eq fblocks hblocks.decode_eq]
    rfl

/-- A declaration is read back. -/
theorem Extern.yields (hlib : lib.Spec) (decl : Extern) :
    Yields lib.toTextFormat decl.encode (decode lib) decl := by
  have hparams := hlib.yields_list fun ty (_ : ty ∈ decl.params) => ty.yields hlib
  have hresult := decl.result.yields hlib
  refine hlib.yields_record ?_ ?_ fun fields hfields => ?_
  · simp
  · simpa using ⟨.str decl.moduleName, .str decl.name, hparams.writable, hresult.writable,
      .bool decl.noReturn, .bool decl.noUnwind⟩
  · simp only [List.forall_mem_cons] at hfields
    obtain ⟨fmodule, fname, fparams, fresult, fnoReturn, fnoUnwind, -⟩ := hfields
    rw [hlib.required_eq fmodule (hlib.text_str decl.moduleName),
      hlib.required_eq fname (hlib.text_str decl.name),
      hlib.required_eq fparams hparams.decode_eq, hlib.required_eq fresult hresult.decode_eq,
      hlib.defaulted_eq false fnoReturn (hlib.boolean_bool decl.noReturn),
      hlib.defaulted_eq false fnoUnwind (hlib.boolean_bool decl.noUnwind)]
    rfl

/-- A program is read back if its constants are readable. -/
theorem Program.yields (hlib : lib.Spec) {p : Program}
    (h : ∀ value ∈ p.constants, value.Readable lib.toTextFormat) :
    Yields lib.toTextFormat p.encode (decode lib) p := by
  have hfunctions := hlib.yields_list fun f (hf : f ∈ p.functions) =>
    Function.yields hlib fun value hvalue => h value (List.mem_flatMap.2 ⟨f, hf, hvalue⟩)
  have hexterns := hlib.yields_list fun decl (_ : decl ∈ p.externs) => decl.yields hlib
  refine hlib.yields_record ?_ ?_ fun fields hfields => ?_
  · simp
  · simpa using ⟨hfunctions.writable, hexterns.writable⟩
  · simp only [List.forall_mem_cons] at hfields
    obtain ⟨ffunctions, fexterns, -⟩ := hfields
    rw [hlib.required_eq ffunctions hfunctions.decode_eq,
      hlib.defaulted_eq [] fexterns hexterns.decode_eq]
    rfl

/-! ## Depths -/

@[simp] theorem Ty.depth_encode (ty : Ty) : ty.encode.depth = 0 := rfl

@[simp] theorem BinOp.depth_encode (op : BinOp) : op.encode.depth = 0 := rfl

@[simp] theorem UnOp.depth_encode (op : UnOp) : op.encode.depth = 0 := rfl

theorem Constant.depth_encode_le (value : Constant) {n : Nat} (hn : 1 ≤ n) :
    value.encode.depth ≤ n := by
  obtain ⟨n, rfl⟩ := Nat.exists_eq_add_of_le' hn
  cases value <;> simp [encode]

theorem Operand.depth_encode_le (operand : Operand) {n : Nat} (hn : 2 ≤ n) :
    operand.encode.depth ≤ n := by
  obtain ⟨n, rfl⟩ := Nat.exists_eq_add_of_le' hn
  cases operand <;> simp [encode, Constant.depth_encode_le]

theorem Instr.depth_encode_le (instr : Instr) : instr.encode.depth ≤ 6 := by
  cases instr <;> simp [encode, Operand.depth_encode_le, Constant.depth_encode_le]

theorem Terminator.depth_encode_le (terminator : Terminator) : terminator.encode.depth ≤ 7 := by
  cases terminator <;> simp [encode, Operand.depth_encode_le]

theorem Block.depth_encode_le (block : Block) : block.encode.depth ≤ 8 := by
  simp [encode, Instr.depth_encode_le, Terminator.depth_encode_le]

theorem depth_encodeTypes_le (types : List (String × Ty)) {n : Nat} (hn : 2 ≤ n) :
    (encodeTypes types).depth ≤ n := by
  obtain ⟨n, rfl⟩ := Nat.exists_eq_add_of_le' hn
  simp [encodeTypes]

theorem Function.depth_encode_le (f : Function) : f.encode.depth ≤ 10 := by
  simp [encode, Block.depth_encode_le, depth_encodeTypes_le]

theorem Extern.depth_encode_le (decl : Extern) : decl.encode.depth ≤ 10 := by
  simp [encode]

/-- The document of a program is at most twelve arrays and objects deep. -/
theorem Program.depth_encode_le (p : Program) : p.encode.depth ≤ 12 := by
  simp [encode, Function.depth_encode_le, Extern.depth_encode_le]

/-! ## Main result -/

namespace Program

/-- With a library that does what is asked of it, a program whose integers are words with sign and
whose floats are finite is what is read from the text that it is written as, if each of its floats
is read back from its digits. -/
theorem ofText_compact (hlib : lib.Spec) (p : Program)
    (hfits : ∀ value ∈ p.constants, value.Fits)
    (hfloats : ∀ x, .float x ∈ p.constants →
      lib.parse (lib.compact (.float x)) = .ok (.float x)) :
    ofText lib (lib.compact p.encode) = .ok p := by
  have hp : Yields lib.toTextFormat p.encode (decode lib) p := yields hlib fun value hvalue =>
    ⟨hfits value hvalue, fun x hx => hfloats x (hx ▸ hvalue)⟩
  have hdepth : p.encode.depth ≤ Json.depthLimit := Nat.le_trans p.depth_encode_le (by decide)
  unfold ofText
  rw [hlib.parse_compact _ hp.writable hdepth]
  exact hp.decode_eq

/-- A function with a float, with the least and the greatest integer, with names that have to be
escaped and without a value to return. -/
def scaling : Program where
  functions := [{
    name := "scale \"by\"\n"
    params := [("x", .f64), ("case", .i64)]
    result := .unit
    locals := [("y\\1", .f64)]
    blocks := [
      { label := "entry"
        instrs := [.binary "y\\1" .fmul (.place "x") (.constant (.float 1.5)),
          .call none "log" [.place "y\\1"] false]
        terminator := .switch (.place "case") [(-2 ^ 63, "entry"), (2 ^ 63 - 1, "done")] "done" },
      { label := "done", instrs := [], terminator := .ret none }] }]
  externs := [{
    moduleName := "host"
    name := "log"
    params := [.f64]
    result := .unit
    noReturn := false
    noUnwind := true }]

/-- The library of this project does what is asked of one. The integers of the program are words,
and its one float is read back. -/
theorem ofText_compact_scaling :
    Json.library.Spec ∧ (∀ value ∈ scaling.constants, value.Fits) ∧
      (∀ x, .float x ∈ scaling.constants →
        Json.library.parse (Json.library.compact (.float x)) = .ok (.float x)) ∧
      ofText Json.library (Json.library.compact scaling.encode) = .ok scaling := by
  have hfits : ∀ value ∈ scaling.constants, value.Fits := by decide +kernel
  have hfloats : ∀ x, .float x ∈ scaling.constants →
      Json.library.parse (Json.library.compact (.float x)) = .ok (.float x) := fun x hx => by
    have hconstants : scaling.constants
      = [.float 1.5, .int (-2 ^ 63), .int (2 ^ 63 - 1)] := rfl
    obtain rfl : x = 1.5 := by simpa [hconstants] using hx
    have htext : Json.compact (.float 1.5) = "1.5" := by decide +kernel
    simp only [Json.library, htext]
    rfl
  exact ⟨Json.library_spec, hfits, hfloats, ofText_compact Json.library_spec scaling hfits hfloats⟩

end Program

end FactGuard
