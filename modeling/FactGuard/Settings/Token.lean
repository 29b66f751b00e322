import FactGuard.Json.Token

/-!
# Tokens of configuration files

A configuration file is a list of lines `key = value` in the format TOML, of which it uses the part
without tables. The lexer reads it character by character, as that of `Json/Token.lean` does. It has
one kind of token for each of the two kinds of string that matter: those on one line, which may be
keys, and those that may run over several.
-/

namespace FactGuard.Settings

/-- The smallest parts of a configuration file. -/
inductive Token where
  | newline
  | equals
  | openBracket
  | closeBracket
  | comma
  /-- A bare word: a key, a truth value or a number. -/
  | word (chars : List Char)
  /-- A string, and whether it may run over several lines. -/
  | text (text : String) (multiline : Bool)
deriving DecidableEq, Repr

/-- A string that is being read. -/
structure Quoted where
  /-- The quote that ends the string; backslashes escape only inside double quotes. -/
  quote : Char
  multiline : Bool
  /-- The characters read so far, in reverse. -/
  chars : List Char
  /-- Quotes that may end a string over several lines or belong to it. -/
  pending : Nat

/-- Where the lexer stands between two characters. -/
inductive Mode where
  | between
  | comment
  /-- After a carriage return outside strings, which is one of a pair. -/
  | carriage
  | inWord (chars : List Char)
  /-- After one or two quotes that may be three. -/
  | opening (quote : Char) (count : Nat)
  /-- After three quotes, where a line break does not count. -/
  | opened (quote : Char)
  | openedCarriage (quote : Char)
  | inText (s : Quoted)
  | inTextCarriage (s : Quoted)
  | inEscape (s : Quoted)
  | inUnit (s : Quoted) (value left : Nat)
  /-- After a backslash at the end of a line: blanks and line breaks do not count. -/
  | inTrim (s : Quoted) (broken : Bool)
  | inTrimCarriage (s : Quoted)

/-- Where the lexer stands and the tokens behind it, the last one first. -/
structure Scan where
  mode : Mode
  done : List Token

/-- The character is a control character other than a tab. -/
def isControl (c : Char) : Bool := (c.toNat < 0x20 && c != '\t') || c.toNat == 0x7F

/-- The character may stand in a bare word. -/
def isWordChar (c : Char) : Bool := c.isAlphanum || c == '_' || c == '-' || c == '+' || c == '.'

/-- The character with the given code. -/
def char? (code : Nat) : Option Char := if code.isValidChar then some (Char.ofNat code) else none

namespace Quoted

/-- Append a character. -/
def push (s : Quoted) (c : Char) : Quoted := { s with chars := c :: s.chars }

/-- Take the pending quotes as characters of the string. -/
def flush (s : Quoted) : Quoted :=
  { s with chars := List.replicate s.pending s.quote ++ s.chars, pending := 0 }

/-- The string of the finished token. Pending quotes beyond three belong to it. -/
def token (s : Quoted) : Token :=
  .text (String.ofList (List.replicate (s.pending - 3) s.quote ++ s.chars).reverse) s.multiline

end Quoted

namespace Scan

/-- Nothing read yet. -/
def start : Scan := ⟨.between, []⟩

/-- Read the first character after a token. -/
def begin? (done : List Token) (c : Char) : Option Scan :=
  if c = ' ' ∨ c = '\t' then some ⟨.between, done⟩
  else if c = '\n' then some ⟨.between, .newline :: done⟩
  else if c = '\r' then some ⟨.carriage, done⟩
  else if c = '#' then some ⟨.comment, done⟩
  else if c = '=' then some ⟨.between, .equals :: done⟩
  else if c = '[' then some ⟨.between, .openBracket :: done⟩
  else if c = ']' then some ⟨.between, .closeBracket :: done⟩
  else if c = ',' then some ⟨.between, .comma :: done⟩
  else if c = '"' ∨ c = '\'' then some ⟨.opening c 1, done⟩
  else if isWordChar c then some ⟨.inWord [c], done⟩
  else none

/-- The character that a backslash and `c` stand for. -/
def escaped? (c : Char) : Option Char :=
  match c with
  | '"' => some '"'
  | '\\' => some '\\'
  | 'b' => some '\x08'
  | 'f' => some '\x0c'
  | 'n' => some '\n'
  | 'r' => some '\r'
  | 't' => some '\t'
  | _ => none

/-- Read a character of a string on one line. -/
def lineStep (s : Quoted) (done : List Token) (c : Char) : Option Scan :=
  if c = s.quote then some ⟨.between, s.token :: done⟩
  else if c = '\\' ∧ s.quote = '"' then some ⟨.inEscape s, done⟩
  else if isControl c then none
  else some ⟨.inText (s.push c), done⟩

/-- Read a character of a string over several lines. Three quotes end it, and up to two more before
them belong to it. -/
def blockStep (s : Quoted) (done : List Token) (c : Char) : Option Scan :=
  if c = s.quote then
    if s.pending < 5 then some ⟨.inText { s with pending := s.pending + 1 }, done⟩ else none
  else if 3 ≤ s.pending then begin? (s.token :: done) c
  else
    let s := s.flush
    if c = '\\' ∧ s.quote = '"' then some ⟨.inEscape s, done⟩
    else if c = '\n' then some ⟨.inText (s.push c), done⟩
    else if c = '\r' then some ⟨.inTextCarriage s, done⟩
    else if isControl c then none
    else some ⟨.inText (s.push c), done⟩

/-- Read a character of a string. -/
def textStep (s : Quoted) (done : List Token) (c : Char) : Option Scan :=
  if s.multiline then blockStep s done c else lineStep s done c

/-- Read the first character of a string over several lines. -/
def openedStep (quote : Char) (done : List Token) (c : Char) : Option Scan :=
  let s : Quoted := ⟨quote, true, [], 0⟩
  if c = '\n' then some ⟨.inText s, done⟩
  else if c = '\r' then some ⟨.openedCarriage quote, done⟩
  else blockStep s done c

/-- Read a line feed that a carriage return asks for. -/
def lineFeed? (next : Scan) (c : Char) : Option Scan := if c = '\n' then some next else none

/-- Read one character. -/
def step (scan : Scan) (c : Char) : Option Scan :=
  let done := scan.done
  match scan.mode with
  | .between => begin? done c
  | .comment =>
    if c = '\n' then some ⟨.between, .newline :: done⟩
    else if c = '\r' then some ⟨.carriage, done⟩
    else if isControl c then none
    else some scan
  | .carriage => lineFeed? ⟨.between, .newline :: done⟩ c
  | .inWord chars =>
    if isWordChar c then some ⟨.inWord (c :: chars), done⟩
    else begin? (.word chars.reverse :: done) c
  | .opening quote count =>
    if c = quote then
      if count = 1 then some ⟨.opening quote 2, done⟩ else some ⟨.opened quote, done⟩
    else if count = 1 then lineStep ⟨quote, false, [], 0⟩ done c
    else begin? (.text "" false :: done) c
  | .opened quote => openedStep quote done c
  | .openedCarriage quote => lineFeed? ⟨.inText ⟨quote, true, [], 0⟩, done⟩ c
  | .inText s => textStep s done c
  | .inTextCarriage s => lineFeed? ⟨.inText (s.push '\n'), done⟩ c
  | .inEscape s =>
    if c = 'u' then some ⟨.inUnit s 0 4, done⟩
    else if c = 'U' then some ⟨.inUnit s 0 8, done⟩
    else if s.multiline ∧ (c = ' ' ∨ c = '\t') then some ⟨.inTrim s false, done⟩
    else if s.multiline ∧ c = '\n' then some ⟨.inTrim s true, done⟩
    else if s.multiline ∧ c = '\r' then some ⟨.inTrimCarriage s, done⟩
    else (escaped? c).map fun e => ⟨.inText (s.push e), done⟩
  | .inUnit s value left => do
    let digit ← Json.hexDigit? c
    let value := value * 16 + digit
    if left = 1 then return ⟨.inText (s.push (← char? value)), done⟩
    else return ⟨.inUnit s value (left - 1), done⟩
  | .inTrim s broken =>
    if c = ' ' ∨ c = '\t' then some scan
    else if c = '\n' then some ⟨.inTrim s true, done⟩
    else if c = '\r' then some ⟨.inTrimCarriage s, done⟩
    else if broken then textStep s done c
    else none
  | .inTrimCarriage s => lineFeed? ⟨.inTrim s true, done⟩ c

/-- The tokens of a text that ends here, the last one first. -/
def finish? (scan : Scan) : Option (List Token) :=
  match scan.mode with
  | .between | .comment => some scan.done
  | .inWord chars => some (.word chars.reverse :: scan.done)
  | .opening _ 2 => some (.text "" false :: scan.done)
  | .inText s => if s.multiline ∧ 3 ≤ s.pending then some (s.token :: scan.done) else none
  | _ => none

end Scan

/-- The text without a byte order mark in front. -/
def withoutMark : List Char → List Char
  | c :: rest => if c = '\uFEFF' then rest else c :: rest
  | [] => []

/-- The tokens of a configuration file. -/
def tokens? (text : String) : Option (List Token) :=
  ((withoutMark text.toList).foldlM Scan.step Scan.start).bind fun scan =>
    scan.finish?.map List.reverse

end FactGuard.Settings
