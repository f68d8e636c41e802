import GoAtlas.Text.Decimal

/-!
# Options on a command line

Arguments are read one after another.  `--name value` and `--name=value` give an option
by its name, `-l value`, `-lvalue` and `-l=value` by its letter; letters of flags may be put
together.  After a bare `--` every argument is taken as it is.

Reading stops at the first argument that does not fit, and at a request for help or for
the version.
-/

namespace GoAtlas

/-- What follows an option. -/
inductive OptionKind where
  /-- Nothing. -/
  | flag
  | text
  /-- A text that is not empty. -/
  | path
  /-- A natural number of at most 64 bits. -/
  | number
deriving DecidableEq, Repr

/-- An option that can be given. -/
structure OptionSpec where
  name : String
  letter : Option Char := none
  kind : OptionKind := .flag
  /-- Whether it may be given several times. -/
  repeatable : Bool := false
deriving DecidableEq, Repr

/-- What a command can be given. -/
structure CommandSpec where
  /-- The name under which the command shows its version. -/
  title : String
  options : List OptionSpec
  /-- The number of arguments without an option. -/
  words : Nat := 0
  /-- The names of its own commands. -/
  commands : List String := []
deriving DecidableEq, Repr

/-- Why arguments are not read to the end. -/
inductive Stop where
  /-- An argument does not fit, or one is missing. -/
  | misuse
  | help
  | version (title : String)
deriving DecidableEq, Repr

/-- What has been given. -/
structure Given where
  /-- The options with their values, in order; the value of a flag is empty. -/
  options : List (String × String) := []
  words : List String := []
deriving DecidableEq, Repr

/-- The option for help. -/
def helpOption : OptionSpec where
  name := "help"
  letter := some 'h'

/-- The option for the version. -/
def versionOption : OptionSpec where
  name := "version"
  letter := some 'V'

/-- The natural number of at most 64 bits that a text is, with or without a plus sign. -/
def number? (text : String) : Option Nat :=
  let digits :=
    match text.toList with
    | '+' :: rest => rest
    | digits => digits
  if !digits.isEmpty && digits.all isDigit && digitsValue digits < wordLimit then
    some (digitsValue digits)
  else none

namespace OptionSpec

/-- Whether a text can follow an option. -/
def accepts (option : OptionSpec) (value : String) : Bool :=
  match option.kind with
  | .flag => value.isEmpty
  | .text => true
  | .path => !value.isEmpty
  | .number => (number? value).isSome

end OptionSpec

namespace Given

/-- The values given for an option. -/
def values (given : Given) (name : String) : List String :=
  (given.options.filter fun entry => entry.1 == name).map Prod.snd

/-- The value given for an option. -/
def value? (given : Given) (name : String) : Option String :=
  (given.values name).head?

/-- Whether an option has been given. -/
def has (given : Given) (name : String) : Bool :=
  (given.value? name).isSome

/-- Takes an option with its value. -/
def take (given : Given) (option : OptionSpec) (value : String) : Option Given :=
  if (given.has option.name && !option.repeatable) || !option.accepts value then none
  else some { given with options := given.options ++ [(option.name, value)] }

end Given

/-! ## Single arguments -/

/-- The form of an argument. -/
inductive ArgForm where
  /-- Two hyphens. -/
  | mark
  /-- An option by its name, with a value behind an equals sign or without. -/
  | long (name : String) (value : Option String)
  /-- Options by their letters, and what stands behind them. -/
  | short (letters : List Char)
  | word
deriving DecidableEq, Repr

/-- The form of an argument. -/
def ArgForm.of (arg : String) : ArgForm :=
  match arg.toList with
  | ['-', '-'] => .mark
  | '-' :: '-' :: rest =>
      let name := rest.takeWhile (· != '=')
      .long (String.ofList name)
        (match rest.drop name.length with
        | _ :: value => some (String.ofList value)
        | [] => none)
  | '-' :: c :: rest => .short (c :: rest)
  | _ => .word

namespace CommandSpec

/-- The option with a name. -/
def named? (spec : CommandSpec) (name : String) : Option OptionSpec :=
  spec.options.find? fun option => option.name == name

/-- The option with a letter. -/
def lettered? (spec : CommandSpec) (letter : Char) : Option OptionSpec :=
  spec.options.find? fun option => option.letter == some letter

/-- Takes an option with its value, or stops if it asks for that. -/
def take (spec : CommandSpec) (given : Given) (option : OptionSpec) (value : String) :
    Except Stop Given :=
  match given.take option value with
  | none => .error .misuse
  | some given =>
      if option = helpOption then .error .help
      else if option = versionOption then .error (.version spec.title)
      else .ok given

/-- Reads an option by its name: what has been given then, and the option if its value is
still to come. -/
def readLong (spec : CommandSpec) (given : Given) (name : String) (value : Option String) :
    Except Stop (Given × Option OptionSpec) :=
  match spec.named? name with
  | none => .error .misuse
  | some option =>
      match value with
      | some value =>
          if option.kind = .flag then .error .misuse
          else (spec.take given option value).map (·, none)
      | none =>
          if option.kind = .flag then (spec.take given option "").map (·, none)
          else .ok (given, some option)

/-- Reads options by their letters. -/
def readLetters (spec : CommandSpec) :
    Given → List Char → Except Stop (Given × Option OptionSpec)
  | given, [] => .ok (given, none)
  | given, c :: rest =>
      match spec.lettered? c with
      | none => .error .misuse
      | some option =>
          if option.kind = .flag then
            match spec.take given option "" with
            | .error stop => .error stop
            | .ok given => spec.readLetters given rest
          else
            match rest with
            | [] => .ok (given, some option)
            | '=' :: value => (spec.take given option (String.ofList value)).map (·, none)
            | value => (spec.take given option (String.ofList value)).map (·, none)

/-- Takes arguments as they are. -/
def takeWords (spec : CommandSpec) (given : Given) (args : List String) : Except Stop Given :=
  if given.words.length + args.length ≤ spec.words then
    .ok { given with words := given.words ++ args }
  else .error .misuse

/-! ## All arguments -/

/-- Reads the arguments of a command: what has been given, and the name and the arguments
of one of its own commands if there is one.  The value of the option `pending` is still
to come. -/
def read (spec : CommandSpec) : (pending : Option OptionSpec) → Given → List String →
    Except Stop (Given × Option (String × List String))
  | none, given, [] => .ok (given, none)
  | some _, _, [] => .error .misuse
  | some option, given, arg :: rest =>
      match ArgForm.of arg with
      | .word =>
          match spec.take given option arg with
          | .error stop => .error stop
          | .ok given => spec.read none given rest
      | _ => .error .misuse
  | none, given, arg :: rest =>
      if spec.commands.contains arg then .ok (given, some (arg, rest))
      else
        match ArgForm.of arg with
        | .mark => (spec.takeWords given rest).map (·, none)
        | .long name value =>
            match spec.readLong given name value with
            | .error stop => .error stop
            | .ok (given, pending) => spec.read pending given rest
        | .short letters =>
            match spec.readLetters given letters with
            | .error stop => .error stop
            | .ok (given, pending) => spec.read pending given rest
        | .word =>
            match spec.takeWords given [arg] with
            | .error stop => .error stop
            | .ok given => spec.read none given rest

end CommandSpec

end GoAtlas
