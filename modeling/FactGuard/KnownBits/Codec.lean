import FactGuard.KnownBits.Basic
import FactGuard.Json.Decode

/-!
# Known bits as documents

Known bits are written as their two masks, each with its width. Reading them checks nothing about
the masks, neither that they agree nor that they fit their width.
-/

namespace FactGuard

/-- The document of a mask. -/
def BitMask.encode (mask : BitMask) : Json :=
  .obj [("width", .nat mask.width), ("bits", .nat mask.bits)]

/-- The mask of a document. -/
def BitMask.decode : Json.Decoder BitMask := fun value => do
  let fields ← Json.record ["width", "bits"] value
  return { width := ← Json.required fields "width" (Json.unsigned 32)
           bits := ← Json.required fields "bits" (Json.unsigned 64) }

/-- The document of known bits. -/
def KnownBits.encode (known : KnownBits) : Json :=
  .obj [("zero", known.zero.encode), ("one", known.one.encode)]

/-- The known bits of a document. -/
def KnownBits.decode : Json.Decoder KnownBits := fun value => do
  let fields ← Json.record ["zero", "one"] value
  return { zero := ← Json.required fields "zero" BitMask.decode
           one := ← Json.required fields "one" BitMask.decode }

end FactGuard
