import FactGuard.Json.Token

/-!
# Reading documents

The reader goes through the tokens once. It keeps the arrays and objects that are still open in a
stack, so it needs no recursion, and documents may be nested to any depth.
-/

namespace FactGuard.Json

/-- An array or object that is still open, with its finished parts in reverse. -/
inductive Frame where
  | items (done : List Json)
  /-- The value of `key` comes next. -/
  | members (done : List (Option String × Json)) (key : Option String)

/-- What the reader has seen and may see next. -/
inductive Progress where
  /-- A value must come. -/
  | awaitValue (stack : List Frame)
  /-- The first item of an array, or its end. -/
  | firstItem (stack : List Frame)
  /-- The first key of an object, or its end. -/
  | firstKey (stack : List Frame)
  /-- A further key of an object. -/
  | awaitKey (done : List (Option String × Json)) (stack : List Frame)
  /-- The colon after a key. -/
  | awaitColon (done : List (Option String × Json)) (key : Option String) (stack : List Frame)
  /-- A value is complete: what closes or continues the innermost open part must come. -/
  | complete (value : Json) (stack : List Frame)

namespace Progress

/-- Read the first token of a value. -/
def open? (stack : List Frame) : Token → Option Progress
  | .openBracket => some (.firstItem stack)
  | .openBrace => some (.firstKey stack)
  | .atom value => some (.complete value stack)
  | _ => none

/-- Read the token after a value that is complete. -/
def close? (value : Json) (stack : List Frame) (token : Token) : Option Progress :=
  match stack, token with
  | .items done :: rest, .comma => some (.awaitValue (.items (value :: done) :: rest))
  | .items done :: rest, .closeBracket => some (.complete (.array (value :: done).reverse) rest)
  | .members done key :: rest, .comma => some (.awaitKey ((key, value) :: done) rest)
  | .members done key :: rest, .closeBrace =>
    some (.complete (.object ((key, value) :: done).reverse) rest)
  | _, _ => none

/-- Read one token. -/
def step : Progress → Token → Option Progress
  | .awaitValue stack, token => open? stack token
  | .firstItem stack, token =>
    match token with
    | .closeBracket => some (.complete (.array []) stack)
    | _ => open? (.items [] :: stack) token
  | .firstKey stack, token =>
    match token with
    | .closeBrace => some (.complete (.object []) stack)
    | .atom (.string key) => some (.awaitColon [] key stack)
    | _ => none
  | .awaitKey done stack, token =>
    match token with
    | .atom (.string key) => some (.awaitColon done key stack)
    | _ => none
  | .awaitColon done key stack, token =>
    match token with
    | .colon => some (.awaitValue (.members done key :: stack))
    | _ => none
  | .complete value stack, token => close? value stack token

/-- The document that is complete here. -/
def document? : Progress → Option Json
  | .complete value [] => some value
  | _ => none

end Progress

/-- The document of a list of tokens. -/
def ofTokens? (tokens : List Token) : Option Json :=
  (tokens.foldlM Progress.step (.awaitValue [])).bind Progress.document?

/-- The document that a text writes. -/
def ofText? (text : String) : Option Json := (tokens? text.toList).bind ofTokens?

end FactGuard.Json
