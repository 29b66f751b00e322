import FactGuard.Claim.Table

/-!
# Claims as documents

A table is an object of functions, each an object of values with their claims. A function or a value
that stands twice counts as it stands last. A claim's parts may be left out or `null`, and a part
that is unknown is refused.
-/

namespace FactGuard

/-- The document of a claimed range. -/
def ClaimedRange.encode : ClaimedRange → Json
  | .named set => .str set.name
  | .bounds lower upper => .obj [("lower", .nat lower), ("upper", .nat upper)]

/-- The claimed range of a document inside `outer` arrays and objects. -/
def ClaimedRange.decode (outer : Nat) : Json.Decoder ClaimedRange := fun value => do
  Json.untagged outer value
  match NamedSet.decode value with
  | .ok set => return .named set
  | .error _ =>
    match value with
    | .object members =>
      let fields ← Json.namedMembers ["lower", "upper"] false members []
      return .bounds (← Json.required fields "lower" (Json.unsigned 64))
        (← Json.required fields "upper" (Json.unsigned 64))
    | _ => throw (.unfit "a claimed range")

/-- The document of a claim, with the parts that are claimed. -/
def Claim.encode (claim : Claim) : Json :=
  .obj ((claim.range.map fun range => ("range", range.encode)).toList
    ++ (claim.knownZero.map fun bits => ("known_zero", Json.nat bits)).toList
    ++ (claim.knownOne.map fun bits => ("known_one", Json.nat bits)).toList)

/-- The claim of a document inside `outer` arrays and objects. -/
def Claim.decode (outer : Nat) : Json.Decoder Claim := fun value => do
  let fields ← Json.closedRecord ["range", "known_zero", "known_one"] value
  return { range := ← Json.defaulted fields "range" none
             (Json.optional (ClaimedRange.decode (outer + 1)))
           knownZero := ← Json.defaulted fields "known_zero" none
             (Json.optional (Json.unsigned 64))
           knownOne := ← Json.defaulted fields "known_one" none
             (Json.optional (Json.unsigned 64)) }

/-- An object as a table, each value read by `decode`. -/
def decodeTable {α : Type} (decode : Json.Decoder α) : Json.Decoder (Bindings α)
  | .object members => do
    let pairs ← members.mapM fun
      | (some key, value) => do return (key, ← decode value)
      | (none, _) => .error (.unfit "a readable key")
    return Bindings.sorted pairs
  | _ => .error (.unfit "an object")

namespace FactTable

/-- The document of a table. -/
def encode (table : FactTable) : Json :=
  .obj (table.functions.map fun f => (f.1, .obj (f.2.map fun v => (v.1, v.2.encode))))

/-- The table of a document. -/
def decode : Json.Decoder FactTable := fun value => do
  return ⟨← decodeTable (decodeTable (Claim.decode 2)) value⟩

/-- The table that a text writes. -/
def ofText (text : String) : Except Json.Fault FactTable := Json.parse text >>= decode

end FactTable

end FactGuard
