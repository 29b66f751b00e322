import FactGuard.Settings.Token
import FactGuard.Settings.Basic
import FactGuard.Failure

/-!
# Reading configuration files

Each line of a configuration file gives one of the settings, at most once; the others keep their
defaults. Nothing else is admitted.
-/

namespace FactGuard.Settings

/-- The digit of a base. -/
def digitOf? (base : Nat) (c : Char) : Option Nat :=
  (Json.hexDigit? c).bind fun d => if d < base then some d else none

/-- Digits of a base after the first; an underscore may stand between two digits. -/
def moreDigits? (base n : Nat) : List Char → Option Nat
  | [] => some n
  | '_' :: c :: rest => (digitOf? base c).bind fun d => moreDigits? base (n * base + d) rest
  | c :: rest => (digitOf? base c).bind fun d => moreDigits? base (n * base + d) rest

/-- The number that digits of a base write. -/
def digits? (base : Nat) : List Char → Option Nat
  | c :: rest => (digitOf? base c).bind fun d => moreDigits? base d rest
  | [] => none

/-- The number that decimal digits write without a zero in front. -/
def decimal? : List Char → Option Nat
  | ['0'] => some 0
  | '0' :: _ => none
  | chars => digits? 10 chars

/-- The number that a word writes: in base 16, 8 or 2 after `0x`, `0o` or `0b`, or in base ten after
an optional sign. A negative number is none, but zero may have the sign. -/
def number? (chars : List Char) : Option Nat :=
  match chars with
  | '0' :: 'x' :: rest => digits? 16 rest
  | '0' :: 'o' :: rest => digits? 8 rest
  | '0' :: 'b' :: rest => digits? 2 rest
  | '+' :: rest => decimal? rest
  | '-' :: rest => (decimal? rest).bind fun n => if n = 0 then some 0 else none
  | _ => decimal? chars

/-- The truth value that a word writes. -/
def boolean? (chars : List Char) : Option Bool :=
  if chars = ['t', 'r', 'u', 'e'] then some true
  else if chars = ['f', 'a', 'l', 's', 'e'] then some false
  else none

/-- What the reader may see next. -/
inductive Awaits where
  /-- A key or an empty line. -/
  | line
  | equals (key : String)
  | value (key : String)
  /-- An item of an array, or its end. -/
  | item (key : String) (done : List String)
  /-- A comma after an item, or the end of the array. -/
  | separator (key : String) (done : List String)
  | lineEnd

/-- The settings read so far, the keys that gave them, and what may come next. -/
structure Reading where
  settings : Settings
  keys : List String
  awaits : Awaits

namespace Reading

/-- Set what a key names, if the key is new. -/
def assign (r : Reading) (key : String) (settings? : Option Settings) : Option Reading :=
  if r.keys.contains key then none
  else settings?.map fun settings => ⟨settings, key :: r.keys, .lineEnd⟩

/-- Set what a key names to what a word writes. -/
def assignWord (r : Reading) (key : String) (chars : List Char) : Option Reading :=
  r.assign key <|
    if key = "check_ranges" then
      (boolean? chars).map fun value => { r.settings with checkRanges := value }
    else if key = "check_known_bits" then
      (boolean? chars).map fun value => { r.settings with checkKnownBits := value }
    else if key = "step_limit" then
      (number? chars).bind fun value =>
        if value < 2 ^ 63 then some { r.settings with stepLimit := value } else none
    else none

/-- Set what a key names to a list of strings. -/
def assignList (r : Reading) (key : String) (items : List String) : Option Reading :=
  r.assign key <|
    if key = "skip_functions" then some { r.settings with skipFunctions := items } else none

/-- Go on to what may come next. -/
def go (r : Reading) (awaits : Awaits) : Option Reading := some { r with awaits := awaits }

/-- Read one token. -/
def step (r : Reading) (token : Token) : Option Reading :=
  match r.awaits, token with
  | .line, .newline => some r
  | .line, .word chars => r.go (.equals (String.ofList chars))
  | .line, .text key false => r.go (.equals key)
  | .equals key, .equals => r.go (.value key)
  | .value key, .word chars => r.assignWord key chars
  | .value key, .openBracket => r.go (.item key [])
  | .item _ _, .newline => some r
  | .item key done, .text item _ => r.go (.separator key (item :: done))
  | .item key done, .closeBracket => r.assignList key done.reverse
  | .separator _ _, .newline => some r
  | .separator key done, .comma => r.go (.item key done)
  | .separator key done, .closeBracket => r.assignList key done.reverse
  | .lineEnd, .newline => r.go .line
  | _, _ => none

/-- The settings of a file that ends here. -/
def finish? (r : Reading) : Option Settings :=
  match r.awaits with
  | .line | .lineEnd => some r.settings
  | _ => none

end Reading

/-- The settings that a configuration file gives. -/
def ofText? (text : String) : Option Settings := do
  let tokens ← tokens? text
  let reading ← tokens.foldlM Reading.step ⟨Settings.default, [], .line⟩
  reading.finish?

/-- The settings that a configuration file gives. -/
def ofText (text : String) : Except Failure Settings :=
  match ofText? text with
  | some settings => .ok settings
  | none => .error (.config "not a list of known settings")

end FactGuard.Settings
