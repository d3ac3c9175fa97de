/-!
# Commands

A command names what to do with some bundle files. `Invocation.parse?` reads it from the words of a
command line: the name of the command, the bundle files, and options. The value of an option is the
next word or follows an equals sign; after `--` there are no options. The option for the
configuration file may also come before the command.
-/

namespace Conduit

/-- What to do. -/
inductive Command where
  | help
  | validate (bundles : List String)
  | dryRun (bundles : List String) (pipe : Option String)
  | neededInputs (bundles : List String) (pipe : String)
  | run (bundles : List String) (pipe : String) (inputs : Option String)
  deriving DecidableEq

/-- A command, and the configuration file that is asked for. -/
structure Invocation where
  config : Option String
  command : Command
  deriving DecidableEq

/-- An option, which has a value. -/
inductive CommandOption where
  | config
  | pipe
  | inputs
  deriving DecidableEq

/-- A word of a command line. -/
inductive Word where
  | plain (text : String)
  | option (option : CommandOption) (value : Option String)
  | endOfOptions
  | unknown
  deriving DecidableEq

namespace Word

/-- The option of a long name. -/
def long? : List Char → Option CommandOption
  | ['c', 'o', 'n', 'f', 'i', 'g'] => some .config
  | ['p', 'i', 'p', 'e'] => some .pipe
  | ['i', 'n', 'p', 'u', 't', 's'] => some .inputs
  | _ => none

/-- The option of a short name. -/
def short? : Char → Option CommandOption
  | 'p' => some .pipe
  | 'i' => some .inputs
  | _ => none

/-- The value that follows the long name of an option in the same word. -/
def longValue? : List Char → Option String
  | '=' :: value => some (String.ofList value)
  | _ => none

/-- The value that follows the short name of an option in the same word. -/
def shortValue? : List Char → Option String
  | [] => none
  | '=' :: value => some (String.ofList value)
  | value => some (String.ofList value)

/-- What a word of a command line means. -/
def read (word : String) : Word :=
  match word.toList with
  | ['-', '-'] => endOfOptions
  | '-' :: '-' :: rest =>
    match long? (rest.takeWhile (· != '=')) with
    | some o => option o (longValue? (rest.dropWhile (· != '=')))
    | none => unknown
  | '-' :: c :: rest =>
    match short? c with
    | some o => option o (shortValue? rest)
    | none => unknown
  | _ => plain word

/-- The value that a word is for the option before it. -/
def value? (word : String) : Option String :=
  match read word with
  | plain text => some text
  | _ => none

end Word

/-- What the words after a command give. -/
structure Arguments where
  bundles : List String := []
  pipe : Option String := none
  inputs : Option String := none
  config : Option String := none
  deriving DecidableEq

namespace Arguments

/-- Adds the value of an option, which may be given once. -/
def add? (a : Arguments) (o : CommandOption) (value : String) : Option Arguments :=
  match o with
  | .config => if a.config.isSome then none else some { a with config := some value }
  | .pipe => if a.pipe.isSome then none else some { a with pipe := some value }
  | .inputs => if a.inputs.isSome then none else some { a with inputs := some value }

/-- Reads the words after a command that has the given options. -/
def parse? (options : List CommandOption) (a : Arguments) : List String → Option Arguments
  | [] => some a
  | word :: rest =>
    match Word.read word with
    | .plain text => parse? options { a with bundles := a.bundles ++ [text] } rest
    | .endOfOptions => some { a with bundles := a.bundles ++ rest }
    | .unknown => none
    | .option o value =>
      if o ∈ options then
        match value, rest with
        | some value, rest => (a.add? o value).bind (parse? options · rest)
        | none, next :: rest => do
          let a ← a.add? o (← Word.value? next)
          parse? options a rest
        | none, [] => none
      else none
  termination_by words => words.length

end Arguments

namespace Command

/-- Reads the words after the name of a command, which needs some bundle files. -/
def arguments? (options : List CommandOption) (words : List String) : Option Arguments := do
  let a ← Arguments.parse? options {} words
  if a.bundles.isEmpty then none else some a

/-- The command of a name, with the configuration file that is asked for after it. -/
def parse? (name : String) (words : List String) : Option (Option String × Command) :=
  match name with
  | "validate" => do
    let a ← arguments? [.config] words
    return (a.config, validate a.bundles)
  | "dry-run" => do
    let a ← arguments? [.config, .pipe] words
    return (a.config, dryRun a.bundles a.pipe)
  | "needed-inputs" => do
    let a ← arguments? [.config, .pipe] words
    return (a.config, neededInputs a.bundles (← a.pipe))
  | "run" => do
    let a ← arguments? [.config, .pipe, .inputs] words
    return (a.config, run a.bundles (← a.pipe) a.inputs)
  | _ => none

/-- The bundle files of a command. -/
def bundles : Command → List String
  | help => []
  | validate bundles | dryRun bundles _ | neededInputs bundles _ | run bundles _ _ => bundles

/-- The file of inputs of a command. -/
def inputs? : Command → Option String
  | run _ _ inputs => inputs
  | _ => none

end Command

namespace Invocation

/-- Reads a command after the options before it. The configuration file that is asked for last is
taken. -/
def parseFrom? (config : Option String) : List String → Option Invocation
  | [] => some ⟨config, .help⟩
  | word :: rest =>
    match Word.read word with
    | .plain name => (Command.parse? name rest).map fun (later, c) => ⟨later.or config, c⟩
    | .option .config value =>
      if config.isSome then none
      else match value, rest with
        | some value, rest => parseFrom? (some value) rest
        | none, next :: rest => (Word.value? next).bind fun value => parseFrom? (some value) rest
        | none, [] => none
    | _ => none
  termination_by words => words.length

/-- The invocation that the words of a command line write. -/
def parse? (words : List String) : Option Invocation :=
  parseFrom? none words

end Invocation

end Conduit
