import FactGuard.Bindings
import FactGuard.Json.Token
import FactGuard.Word

/-!
# Command line arguments

The command line names a command, then the program's file and options. An option has its value in
the next argument or after an equals sign, and is given once. After `--` every argument is a value:
of the function that is run, for the command that runs one, and the file otherwise. Each command is
an inductive value, so what it may be asked to do is told by its type.
-/

namespace FactGuard

/-- The form in which a program is written. -/
inductive Emit where
  | listing
  | document
deriving DecidableEq, Repr

/-- What the command line asks for. -/
inductive Command where
  /-- Guard every function of a program. -/
  | instrument (file : String) (facts config : Option String) (emit : Emit) (stats : Bool)
  /-- List what guards would check. -/
  | facts (file : String) (facts : Option String)
  /-- Run a function, after guarding the program if asked to. -/
  | run (file function : String) (instrument : Bool) (facts config : Option String)
      (args : List String)
deriving DecidableEq, Repr

namespace CommandLine

/-- What a command may be given. -/
structure Grammar where
  /-- Options that have a value. -/
  options : List String
  /-- Options that have none. -/
  flags : List String
  /-- The values after `--` are not files. -/
  hasTrailing : Bool

/-- What is given to a command. -/
structure Given where
  files : List String
  options : Bindings String
  flags : List String
  trailing : List String

/-- Nothing given. -/
def Given.nothing : Given := ⟨[], [], [], []⟩

/-- The flag that every command has, which may also stand before the command. -/
def verbose : String := "verbose"

/-- An option's name and the value that follows an equals sign. -/
def splitOption (chars : List Char) : String × Option String :=
  let name := String.ofList (chars.takeWhile (· != '='))
  match chars.dropWhile (· != '=') with
  | _ :: value => (name, some (String.ofList value))
  | [] => (name, none)

/-- The argument is an option or `--`, not a value. -/
def looksLikeOption (arg : String) : Bool :=
  match arg.toList with
  | ['-'] => false
  | '-' :: _ => true
  | _ => false

namespace Given

/-- Add a flag, once. -/
def addFlag (given : Given) (name : String) : Option Given :=
  if given.flags.contains name then none else some { given with flags := name :: given.flags }

/-- Add an option's value, once. -/
def addOption (given : Given) (name value : String) : Option Given :=
  if (given.options.get? name).isSome then none
  else some { given with options := given.options.insert name value }

/-- Add what follows `--`. -/
def addRest (given : Given) (grammar : Grammar) (rest : List String) : Given :=
  if grammar.hasTrailing then { given with trailing := rest }
  else { given with files := given.files ++ rest }

end Given

/-- Read the arguments of a command. -/
def read (grammar : Grammar) : List String → Given → Option Given
  | [], given => some given
  | arg :: rest, given =>
    match arg.toList with
    | ['-', '-'] => some (given.addRest grammar rest)
    | '-' :: '-' :: chars =>
      match splitOption chars with
      | (name, some value) =>
        if grammar.options.contains name then
          (given.addOption name value).bind fun given => read grammar rest given
        else none
      | (name, none) =>
        if name = verbose ∨ grammar.flags.contains name then
          (given.addFlag name).bind fun given => read grammar rest given
        else if grammar.options.contains name then
          match rest with
          | [] => none
          | value :: rest =>
            if looksLikeOption value then none
            else (given.addOption name value).bind fun given => read grammar rest given
        else none
    | '-' :: c :: chars =>
      if c = 'v' ∧ chars = [] then
        (given.addFlag verbose).bind fun given => read grammar rest given
      else none
    | _ => read grammar rest { given with files := given.files ++ [arg] }

/-- A path, which is not empty. -/
def path? (text : String) : Option String := if text = "" then none else some text

/-- The path that an option gives, if it is given. -/
def optionalPath (given : Given) (name : String) : Option (Option String) :=
  match given.options.get? name with
  | none => some none
  | some text => (path? text).map some

/-- The file of a command. -/
def file? (given : Given) : Option String :=
  match given.files with
  | [file] => path? file
  | _ => none

/-- The form in which a program is to be written. -/
def emit? (given : Given) : Option Emit :=
  match given.options.get? "emit" with
  | none | some "mir" => some .listing
  | some "json" => some .document
  | _ => none

/-- The arguments of the command that guards a program. -/
def instrument? (args : List String) : Option Command := do
  let given ← read ⟨["facts", "config", "emit"], ["stats"], false⟩ args .nothing
  return .instrument (← file? given) (← optionalPath given "facts") (← optionalPath given "config")
    (← emit? given) (given.flags.contains "stats")

/-- The arguments of the command that lists facts. -/
def facts? (args : List String) : Option Command := do
  let given ← read ⟨["facts"], [], false⟩ args .nothing
  return .facts (← file? given) (← optionalPath given "facts")

/-- The arguments of the command that runs a function. -/
def run? (args : List String) : Option Command := do
  let given ← read ⟨["function", "facts", "config"], ["instrument"], true⟩ args .nothing
  return .run (← file? given) (← given.options.get? "function")
    (given.flags.contains "instrument") (← optionalPath given "facts")
    (← optionalPath given "config") given.trailing

/-- The command of a command line after its flags. -/
def named? : List String → Option Command
  | "instrument" :: args => instrument? args
  | "facts" :: args => facts? args
  | "run" :: args => run? args
  | _ => none

/-- The command of a command line. -/
def command? : List String → Option Command
  | "-v" :: args => named? args
  | "--verbose" :: args => named? args
  | args => named? args

/-- The number that digits of a base write, after an optional plus sign, if it is below `bound`. -/
def digits? (base bound : Nat) (chars : List Char) : Option Nat :=
  let digits := match chars with
    | '+' :: rest => rest
    | _ => chars
  match digits.mapM Json.hexDigit? with
  | some (d :: ds) =>
    if (d :: ds).all (decide <| · < base) then
      let n := Json.natOfDigits base (d :: ds)
      if n < bound then some n else none
    else none
  | _ => none

/-- The bit pattern that an argument of a function writes: in base 16 after `0x`, or in base ten,
with a minus sign for a negative number of 64 bits. -/
def pattern? (arg : String) : Option Nat :=
  match arg.toList with
  | '0' :: 'x' :: digits => digits? 16 (2 ^ 64) digits
  | '-' :: '+' :: _ => none
  | '-' :: digits => (digits? 10 (2 ^ 63 + 1) digits).map fun n => truncateInt 64 (-(n : Int))
  | digits => digits? 10 (2 ^ 64) digits

end CommandLine

end FactGuard
