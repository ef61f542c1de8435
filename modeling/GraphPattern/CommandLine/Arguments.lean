import GraphPattern.Binary64.Decimal

/-!
# Arguments of the command line

Arguments are read from left to right. Options that every command knows may stand before or behind
the name of the command, where the later one counts; no option stands twice in one of these places.
An option takes its value from behind an equals sign or from the next argument, which then must not
look like an option. Behind two hyphens nothing is an option.
-/

namespace GraphPattern.CommandLine

/-- How results are written. -/
inductive OutputFormat where
  /-- For people. -/
  | text
  /-- One JSON document. -/
  | json
deriving DecidableEq

/-- Changes of the search settings. -/
structure SearchArguments where
  /-- Whether every state is to be explored. -/
  exhaustive : Bool
  /-- The greatest number of states. -/
  maxStates : Option Nat
deriving DecidableEq

/-- The data and the destination of a run. -/
structure RunArguments where
  /-- The file of objects. -/
  objects : String
  /-- The file of links. -/
  links : Option String
  /-- The name of the result container. -/
  destination : String
  /-- Whether an existing container is replaced. -/
  replace : Bool
  /-- Whether the members of every match are written. -/
  showMembers : Bool
deriving DecidableEq

/-- What is to be done with a query file. -/
inductive Command where
  /-- Validate the query. -/
  | validate (query : String)
  /-- Plan the query. -/
  | plan (query : String) (search : SearchArguments)
  /-- Run the query. -/
  | run (query : String) (search : SearchArguments) (data : RunArguments)
deriving DecidableEq

/-- A command and how to carry it out. -/
structure Invocation where
  /-- How results are written. -/
  format : OutputFormat
  /-- The settings file. -/
  config : Option String
  /-- The command. -/
  command : Command
deriving DecidableEq

/-- What the arguments ask for. -/
inductive Request where
  /-- The version. -/
  | version
  /-- How the program is used. -/
  | help
  /-- A command. -/
  | invoke (invocation : Invocation)
deriving DecidableEq

/-- Why arguments cannot be understood. -/
inductive UsageError where
  /-- There are no arguments at all. -/
  | noArguments
  /-- No command is named. -/
  | missingCommand
  /-- There is no such command. -/
  | unknownCommand (name : String)
  /-- Nothing of this kind is expected here. -/
  | unexpected (argument : String)
  /-- The option stands twice. -/
  | repeated (option : String)
  /-- The option lacks its value. -/
  | missingValue (option : String)
  /-- The option takes no value. -/
  | needlessValue (option : String)
  /-- The option does not take this value. -/
  | invalidValue (option value : String)
  /-- A required argument is not there. -/
  | missing (argument : String)
deriving DecidableEq

namespace UsageError

/-- The text of a misuse. -/
def message : UsageError → String
  | noArguments => "a command is required"
  | missingCommand => "a command is required"
  | unknownCommand name => s!"unrecognized command '{name}'"
  | unexpected argument => s!"unexpected argument '{argument}'"
  | repeated option => s!"the argument '{option}' cannot be used multiple times"
  | missingValue option => s!"a value is required for '{option}'"
  | needlessValue option => s!"'{option}' takes no value"
  | invalidValue option value => s!"invalid value '{value}' for '{option}'"
  | missing argument => s!"the argument '{argument}' is required"

end UsageError

/-- What follows an option. -/
inductive OptionKind where
  /-- Nothing. -/
  | flag
  /-- A value that satisfies a predicate. -/
  | value (accepts : String → Bool)

/-- An option. -/
structure OptionSpec where
  /-- The name with its hyphens. -/
  name : String
  /-- What follows it. -/
  kind : OptionKind

/-- The options and the arguments of a place on the command line. -/
structure Place where
  /-- The options that are known here. -/
  options : List OptionSpec
  /-- Whether the version can be asked for. -/
  knowsVersion : Bool
  /-- The names of the commands that may follow. -/
  commands : List String
  /-- The number of arguments that are no options. -/
  capacity : Nat

/-- Whether a text may be a file name. -/
def isPath (s : String) : Bool := s ≠ ""

/-- Read a number that fits into 64 bits. -/
def readCount? (s : String) : Option Nat :=
  let digits :=
    match s.toList with
    | '+' :: cs => cs
    | cs => cs
  match Binary64.leadingDigits 0 digits with
  | (0, _, _) => none
  | (_, n, []) => if n < 0x10000000000000000 then some n else none
  | _ => none

/-- The options that every command knows. -/
def commonOptions : List OptionSpec :=
  [⟨"--format", .value fun s => s ∈ ["text", "json"]⟩, ⟨"--config", .value isPath⟩,
    ⟨"--theme", .value fun s => s ∈ ["auto", "light", "dark", "plain"]⟩]

/-- The options of the search. -/
def searchOptions : List OptionSpec :=
  [⟨"--exhaustive", .flag⟩, ⟨"--max-states", .value fun s => (readCount? s).isSome⟩]

/-- The options of a run. -/
def runOptions : List OptionSpec :=
  [⟨"--objects", .value isPath⟩, ⟨"--links", .value isPath⟩, ⟨"--into", .value fun _ => true⟩,
    ⟨"--replace", .flag⟩, ⟨"--show", .flag⟩]

/-- In front of the command. -/
def outset : Place := ⟨commonOptions, true, ["validate", "plan", "run"], 0⟩

/-- Behind the name of a command. -/
def placeOf (command : String) : Place :=
  let own :=
    if command = "plan" then searchOptions
    else if command = "run" then searchOptions ++ runOptions
    else []
  ⟨commonOptions ++ own, false, [], 1⟩

/-- What has been read in one place. -/
structure Readings where
  /-- The options with their values; the value of a flag is empty. -/
  options : List (String × String)
  /-- The arguments that are no options. -/
  arguments : List String
deriving DecidableEq

namespace Readings

/-- Nothing has been read. -/
def none : Readings := ⟨[], []⟩

/-- The value of an option. -/
def value? (r : Readings) (name : String) : Option String := r.options.lookup name

/-- Whether an option has been given. -/
def has (r : Readings) (name : String) : Bool := (r.value? name).isSome

/-- Note an option, which must not have been given. -/
def addOption (r : Readings) (name value : String) : Except UsageError Readings :=
  if r.has name then throw (.repeated name)
  else return { r with options := r.options ++ [(name, value)] }

/-- Note an argument that is no option. -/
def addArgument (r : Readings) (place : Place) (argument : String) : Except UsageError Readings :=
  if place.capacity ≤ r.arguments.length then throw (.unexpected argument)
  else if !isPath argument then throw (.invalidValue "QUERY" argument)
  else return { r with arguments := r.arguments ++ [argument] }

end Readings

/-- Where reading a place ends. -/
inductive Ending where
  /-- At the end of the arguments. -/
  | finished
  /-- Where the version is asked for. -/
  | version
  /-- Where help is asked for. -/
  | help
  /-- At the name of a command, behind which there are further arguments. -/
  | command (name : String) (rest : List String)
deriving DecidableEq

/-- The part of an argument in front of its first equals sign, and the part behind it. -/
def splitValue (argument : String) : String × Option String :=
  let cs := argument.toList
  match cs.dropWhile (· ≠ '=') with
  | [] => (argument, none)
  | _ :: value => (String.ofList (cs.takeWhile (· ≠ '=')), some (String.ofList value))

/-- Whether an argument is read as an option. -/
def looksLikeOption (argument : String) : Bool :=
  match argument.toList with
  | ['-'] => false
  | '-' :: _ => true
  | _ => false

/-- Note an option with a value. -/
def noteValue (r : Readings) (name : String) (accepts : String → Bool) (value : String) :
    Except UsageError Readings :=
  if accepts value then r.addOption name value else throw (.invalidValue name value)

/-- Read the arguments behind two hyphens. -/
def readPlain (place : Place) (r : Readings) (rest : List String) : Except UsageError Readings :=
  rest.foldlM (fun r argument => r.addArgument place argument) r

/-- Read an argument that looks like an option, given those behind it. The answer holds how many of
these belong to it, or where reading ends. -/
def readOption (place : Place) (r : Readings) (argument : String) (next : Option String) :
    Except UsageError (Readings × (Nat ⊕ Ending)) := do
  let (name, attached) := splitValue argument
  if argument = "--help" || argument.startsWith "-h" then return (r, .inr .help)
  if place.knowsVersion && (argument = "--version" || argument.startsWith "-V") then
    return (r, .inr .version)
  match place.options.find? fun o => o.name = name, attached, next with
  | none, _, _ => throw (.unexpected argument)
  | some ⟨_, .flag⟩, none, _ => return (← r.addOption name "", .inl 0)
  | some ⟨_, .flag⟩, some _, _ => throw (.needlessValue name)
  | some ⟨_, .value accepts⟩, some value, _ => return (← noteValue r name accepts value, .inl 0)
  | some ⟨_, .value accepts⟩, none, some value =>
    if looksLikeOption value then throw (.missingValue name)
    else return (← noteValue r name accepts value, .inl 1)
  | some ⟨_, .value _⟩, none, none => throw (.missingValue name)

/-- Read the arguments of a place. -/
def readPlace (place : Place) (r : Readings) :
    List String → Except UsageError (Readings × Ending)
  | [] => return (r, .finished)
  | argument :: rest => do
    if argument = "--" then return (← readPlain place r rest, .finished)
    if looksLikeOption argument then
      match ← readOption place r argument rest.head?, rest with
      | (r, .inr ending), _ => return (r, ending)
      | (r, .inl 0), rest => readPlace place r rest
      | (r, .inl _), _ :: rest => readPlace place r rest
      | (r, .inl _), [] => return (r, .finished)
    else if place.commands.isEmpty then readPlace place (← r.addArgument place argument) rest
    else if argument ∈ place.commands then return (r, .command argument rest)
    else throw (.unknownCommand argument)

/-- An argument that must be there. -/
def required (name : String) : Option String → Except UsageError String
  | some value => pure value
  | none => throw (.missing name)

/-- The changes of the search settings. -/
def searchArguments (r : Readings) : SearchArguments :=
  ⟨r.has "--exhaustive", (r.value? "--max-states").bind readCount?⟩

/-- The data and the destination of a run. -/
def runArguments (r : Readings) : Except UsageError RunArguments := do
  let objects ← required "--objects" (r.value? "--objects")
  let destination ← required "--into" (r.value? "--into")
  return ⟨objects, r.value? "--links", destination, r.has "--replace", r.has "--show"⟩

/-- The command of a name with what has been read behind it. -/
def command (name : String) (r : Readings) : Except UsageError Command := do
  let query ← required "QUERY" r.arguments.head?
  if name = "validate" then return .validate query
  else if name = "plan" then return .plan query (searchArguments r)
  else return .run query (searchArguments r) (← runArguments r)

/-- What was read in front of the command and behind it. Where neither names a settings file, the
given one is used. Its name must not be empty unless both places name one. -/
def invocation (settingsFile : Option String) (before after : Readings) (command : Command) :
    Except UsageError Invocation :=
  let common := fun name => (after.value? name).or (before.value? name)
  if settingsFile = some "" && !(before.has "--config" && after.has "--config") then
    throw (.invalidValue "--config" "")
  else
    let format := if common "--format" = some "json" then .json else .text
    return ⟨format, (common "--config").or settingsFile, command⟩

/-- Understand the arguments, given the settings file that is used where they name none. -/
def understand (settingsFile : Option String) (arguments : List String) :
    Except UsageError Request := do
  if arguments.isEmpty && settingsFile.isNone then throw .noArguments
  match ← readPlace outset .none arguments with
  | (_, .version) => return .version
  | (_, .help) => return .help
  | (_, .finished) => throw .missingCommand
  | (before, .command name rest) =>
    match ← readPlace (placeOf name) .none rest with
    | (_, .version) => return .version
    | (_, .help) => return .help
    | (after, _) => return .invoke (← invocation settingsFile before after (← command name after))

end GraphPattern.CommandLine
