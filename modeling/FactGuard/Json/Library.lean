import FactGuard.Json.Decode
import FactGuard.Json.Writer

/-!
# Libraries for documents

What a program uses of a library for documents. A text format goes between documents and texts, and
a library also has a reader for each shape that documents give to data. Programs are read with any
library. The one that is used, `Json.library`, has the reader, the decoders and the writer of this
project.
-/

namespace FactGuard.Json

/-- The texts of documents. -/
structure TextFormat where
  /-- The document that a text writes. -/
  parse : String → Except Fault Json
  /-- The text of a document without blanks. -/
  compact : Json → String

/-- A text format, and readers for the shapes of data. -/
structure Library extends TextFormat where
  /-- A string. -/
  text : Decoder String
  /-- A truth value. -/
  boolean : Decoder Bool
  /-- An integer of 64 bits, with sign. -/
  signed : Decoder Int
  /-- A finite float. -/
  number : Decoder Float
  /-- The value, or `null` for none. -/
  optional {α : Type} : Decoder α → Decoder (Option α)
  /-- An array of values of one kind. -/
  listOf {α : Type} : Decoder α → Decoder (List α)
  /-- An array of two values. -/
  pairOf {α β : Type} : Decoder α → Decoder β → Decoder (α × β)
  /-- The name of a variant, and its data if it is given any. -/
  variant : Decoder (String × Option Json)
  /-- The name of a variant without data. -/
  plainVariant : Decoder String
  /-- The fields of a record with the given names. -/
  record : List String → Decoder (Bindings Json)
  /-- A field that must be given. -/
  required {α : Type} : Bindings Json → String → Decoder α → Except Fault α
  /-- A field that has a value of its own if it is not given. -/
  defaulted {α : Type} : Bindings Json → String → α → Decoder α → Except Fault α

/-- The library of this project. -/
def library : Library where
  parse := parse
  compact := compact
  text := text
  boolean := boolean
  signed := signed
  number := number
  optional := optional
  listOf := listOf
  pairOf := pairOf
  variant := variant
  plainVariant := plainVariant
  record := record
  required := required
  defaulted := defaulted

end FactGuard.Json
