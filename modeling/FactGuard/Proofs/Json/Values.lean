import FactGuard.Program.Codec
import FactGuard.Proofs.Json.Library

/-!
# Documents that yield values

A document yields a value if it can be written and the value is read from it (`Json.Yields`). With
any library that does what is asked of it, this goes from parts to wholes: to lists, pairs and
values that may be missing, to what has a name of its own, and to variants and records. A record
comes down to its fields, which are found by their names. How deep a document is nested is counted
in the same way, from its parts.
-/

namespace FactGuard

namespace Json

/-- The document can be written in the format, and the value is read from it. -/
structure Yields {α : Type} (format : TextFormat) (document : Json) (decode : Decoder α)
    (value : α) : Prop where
  writable : document.Writable format
  decode_eq : decode document = .ok value

variable {α β : Type} {lib : Library} {encode : α → Json} {decode : Decoder α}

namespace Library.Spec

/-! ## Texts, integers, lists, pairs and missing values -/

theorem yields_str (hlib : lib.Spec) (value : String) :
    Yields lib.toTextFormat (.str value) lib.text value := ⟨.str value, hlib.text_str value⟩

theorem yields_int (hlib : lib.Spec) {value : Int} (hlower : -2 ^ 63 ≤ value)
    (hupper : value < 2 ^ 63) : Yields lib.toTextFormat (.int value) lib.signed value :=
  ⟨.int hlower (by omega), hlib.signed_int value hlower hupper⟩

theorem yields_list (hlib : lib.Spec) {values : List α}
    (h : ∀ value ∈ values, Yields lib.toTextFormat (encode value) decode value) :
    Yields lib.toTextFormat (.array (values.map encode)) (lib.listOf decode) values where
  writable := .array fun item hitem => by
    obtain ⟨value, hvalue, rfl⟩ := List.mem_map.1 hitem
    exact (h value hvalue).writable
  decode_eq := by
    refine hlib.listOf_array ?_
    induction values with
    | nil => rfl
    | cons value rest ih =>
      have hrest := ih fun other hother => h other (List.mem_cons_of_mem _ hother)
      rw [List.map_cons, List.mapM_cons, (h value List.mem_cons_self).decode_eq, hrest]
      rfl

theorem yields_pair (hlib : lib.Spec) {a b : Json} {decode' : Decoder β} {x : α} {y : β}
    (ha : Yields lib.toTextFormat a decode x) (hb : Yields lib.toTextFormat b decode' y) :
    Yields lib.toTextFormat (.array [a, b]) (lib.pairOf decode decode') (x, y) where
  writable := .array (by simpa using ⟨ha.writable, hb.writable⟩)
  decode_eq := hlib.pairOf_array ha.decode_eq hb.decode_eq

/-- A value may be missing if its document is not that of a missing one. -/
theorem yields_option (hlib : lib.Spec) {value? : Option α}
    (h : ∀ value ∈ value?, Yields lib.toTextFormat (encode value) decode value ∧
      encode value ≠ .null) :
    Yields lib.toTextFormat (.ofOption (value?.map encode)) (lib.optional decode) value? := by
  cases value? with
  | none => exact ⟨.null, hlib.optional_null decode⟩
  | some value =>
    obtain ⟨hvalue, hne⟩ := h value rfl
    exact ⟨hvalue.writable, hlib.optional_some hne hvalue.decode_eq⟩

/-! ## Names, variants and records -/

/-- A value of finitely many is read by its name. -/
theorem yields_named (hlib : lib.Spec) {all : List α} {name : α → String} (wanted : String)
    {value : α} (h : all.find? (name · == name value) = some value) :
    Yields lib.toTextFormat (.str (name value)) (decodeNamed lib all name wanted) value where
  writable := .str (name value)
  decode_eq := by
    unfold decodeNamed
    rw [hlib.plainVariant_str]
    simp only [bind, Except.bind, h]
    rfl

/-- A variant comes down to its data. -/
theorem yields_variant (hlib : lib.Spec) {name : String} {data : Json}
    {next : String × Option Json → Except Fault α} {value : α}
    (h : Yields lib.toTextFormat data (fun data => next (name, some data)) value) :
    Yields lib.toTextFormat (.obj [(name, data)]) (fun document => lib.variant document >>= next)
      value where
  writable := .obj (by simp) (by simpa using h.writable)
  decode_eq := by
    rw [hlib.variant_obj]
    exact h.decode_eq

/-- A record comes down to its fields, each of which has its own document. -/
theorem yields_record (hlib : lib.Spec) {members : Bindings Json} (hkeys : members.names.Nodup)
    (hwritable : ∀ m ∈ members, m.2.Writable lib.toTextFormat)
    {next : Bindings Json → Except Fault α} {value : α}
    (h : ∀ fields, (∀ m ∈ members, fields.get? m.1 = some m.2) → next fields = .ok value) :
    Yields lib.toTextFormat (.obj members)
      (fun document => lib.record members.names document >>= next) value where
  writable := .obj hkeys hwritable
  decode_eq := by
    obtain ⟨fields, hrecord, hfields⟩ := hlib.record_obj members hkeys
    rw [hrecord]
    exact h fields hfields

end Library.Spec

/-! ## Depths -/

@[simp] theorem depth_bool (value : Bool) : (bool value).depth = 0 := rfl

@[simp] theorem depth_int (value : Int) : (int value).depth = 0 := rfl

@[simp] theorem depth_float (value : Float) : (float value).depth = 0 := rfl

@[simp] theorem depth_str (text : String) : (str text).depth = 0 := rfl

/-- An array is one deeper than its items. -/
theorem depth_array_le_iff {items : List Json} {n : Nat} :
    (array items).depth ≤ n + 1 ↔ ∀ item ∈ items, item.depth ≤ n := by
  rw [depth, Nat.add_le_add_iff_right]
  induction items with
  | nil => simp [depthItems]
  | cons item rest ih => rw [depthItems, Nat.max_le, ih, List.forall_mem_cons]

@[simp] theorem depth_pair_le_iff {a b : Json} {n : Nat} :
    (array [a, b]).depth ≤ n + 1 ↔ a.depth ≤ n ∧ b.depth ≤ n := by
  simp [depth_array_le_iff]

@[simp] theorem depth_list_le_iff {α : Type} {encode : α → Json} {values : List α} {n : Nat} :
    (array (values.map encode)).depth ≤ n + 1 ↔ ∀ value ∈ values, (encode value).depth ≤ n := by
  rw [depth_array_le_iff, List.forall_mem_map]

/-- An object is one deeper than the values of its members. -/
@[simp] theorem depth_obj_le_iff {members : Bindings Json} {n : Nat} :
    (obj members).depth ≤ n + 1 ↔ ∀ m ∈ members, m.2.depth ≤ n := by
  rw [obj, depth, Nat.add_le_add_iff_right]
  induction members with
  | nil => simp [depthMembers]
  | cons m rest ih => rw [List.map_cons, depthMembers, Nat.max_le, ih, List.forall_mem_cons]

/-- What may be missing is as deep as what is there. -/
@[simp] theorem depth_ofOption_le_iff {value? : Option Json} {n : Nat} :
    (ofOption value?).depth ≤ n ↔ ∀ value ∈ value?, value.depth ≤ n := by
  cases value? <;> simp [ofOption, depth]

end Json

end FactGuard
