import FactGuard.Json.Library
import FactGuard.Proofs.Bindings

/-!
# What is asked of a library for documents

`Library.Spec` states what a library must do so that what is written can be read: its text format
undoes its own writing, and each of its readers takes the shape that its data has in documents. All
of this is about one shape at a time. That whole values are read back is proved from it for each
kind of value by the recursion of its encoder.

A text format is not asked for more than it can do (`Writable`). Integers have 64 bits, half of a
surrogate pair is no text, and arrays and objects are nested up to a limit. A float need not be read
back from its digits in every format, and so each float is asked for by itself.
-/

namespace FactGuard.Json

/-- The format can write the document: its integers fit into 64 bits, its strings stand for texts,
no object has a key twice, and each float is read back from its own text. -/
inductive Writable (format : TextFormat) : Json → Prop
  | null : Writable format .null
  | bool (value : Bool) : Writable format (.bool value)
  | int {value : Int} (hlower : -2 ^ 63 ≤ value) (hupper : value < 2 ^ 64) :
      Writable format (.int value)
  | float {value : Float}
      (hvalue : format.parse (format.compact (.float value)) = .ok (.float value)) :
      Writable format (.float value)
  | str (text : String) : Writable format (.str text)
  | array {items : List Json} (hitems : ∀ item ∈ items, Writable format item) :
      Writable format (.array items)
  | obj {members : Bindings Json} (hkeys : members.names.Nodup)
      (hvalues : ∀ m ∈ members, Writable format m.2) : Writable format (.obj members)

/-- What is asked of a text format. -/
structure TextFormat.Spec (format : TextFormat) : Prop where
  /-- A document that can be written is read back from its text, if it is not nested too deep. -/
  parse_compact : ∀ document : Json, document.Writable format → document.depth ≤ depthLimit →
    format.parse (format.compact document) = .ok document

/-- What is asked of a library: each reader takes the shape that its data is written in. -/
structure Library.Spec (lib : Library) : Prop extends TextFormat.Spec lib.toTextFormat where
  /-- A string is read as its text. -/
  text_str : ∀ text, lib.text (.str text) = .ok text
  /-- A truth value is read as itself. -/
  boolean_bool : ∀ value, lib.boolean (.bool value) = .ok value
  /-- An integer of 64 bits with sign is read as itself. -/
  signed_int : ∀ value : Int, -2 ^ 63 ≤ value → value < 2 ^ 63 →
    lib.signed (.int value) = .ok value
  /-- A finite float is read as itself. -/
  number_float : ∀ value : Float, value.isFinite = true → lib.number (.float value) = .ok value
  /-- `null` is read as no value. -/
  optional_null : ∀ {α : Type} (decode : Decoder α), lib.optional decode .null = .ok none
  /-- Any other document is read as the value that it has. -/
  optional_some : ∀ {α : Type} {decode : Decoder α} {document : Json} {value : α},
    document ≠ .null → decode document = .ok value →
      lib.optional decode document = .ok (some value)
  /-- An array is read item by item. -/
  listOf_array : ∀ {α : Type} {decode : Decoder α} {items : List Json} {values : List α},
    items.mapM decode = .ok values → lib.listOf decode (.array items) = .ok values
  /-- An array of two items is read as the pair of their values. -/
  pairOf_array : ∀ {α β : Type} {first : Decoder α} {second : Decoder β} {a b : Json} {x : α}
    {y : β}, first a = .ok x → second b = .ok y →
      lib.pairOf first second (.array [a, b]) = .ok (x, y)
  /-- A string names a variant without data. -/
  variant_str : ∀ name, lib.variant (.str name) = .ok (name, none)
  /-- An object with one key names a variant and has its data. -/
  variant_obj : ∀ name data, lib.variant (.obj [(name, data)]) = .ok (name, some data)
  /-- A string names a variant without data, also where no variant has any. -/
  plainVariant_str : ∀ name, lib.plainVariant (.str name) = .ok name
  /-- An object with a member for each field is read as a record with these fields. -/
  record_obj : ∀ members : Bindings Json, members.names.Nodup →
    ∃ fields, lib.record members.names (.obj members) = .ok fields ∧
      ∀ m ∈ members, fields.get? m.1 = some m.2
  /-- A field that must be given has the value of its document. -/
  required_eq : ∀ {α : Type} {fields : Bindings Json} {name : String} {document : Json}
    {decode : Decoder α} {value : α}, fields.get? name = some document →
      decode document = .ok value → lib.required fields name decode = .ok value
  /-- A field that need not be given has the value of its document if it is. -/
  defaulted_eq : ∀ {α : Type} {fields : Bindings Json} {name : String} {document : Json}
    {decode : Decoder α} {value : α} (default : α), fields.get? name = some document →
      decode document = .ok value → lib.defaulted fields name default decode = .ok value

end FactGuard.Json
