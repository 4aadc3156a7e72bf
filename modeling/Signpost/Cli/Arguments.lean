import Signpost.Cli.Command
import Signpost.Unicode.Property

/-! # Arguments

Reads the arguments of the program. Options stand before or after the word for the command, as far
as both know them; a value follows its option or is attached to it. A value that stands apart is
checked only when the next option is read, or at the end.
-/
namespace Signpost.Cli

/-- Why arguments are no command. Two of the kinds ask for help and for the version. -/
inductive UsageError where
  | unknownArgument
  | invalidValue
  | missingRequiredArgument
  | valueValidation
  | argumentConflict
  | tooManyValues
  | invalidSubcommand
  | missingSubcommand
  | displayHelp
  | displayVersion
  | displayHelpOnMissingArgumentOrSubcommand
  deriving DecidableEq, Repr

namespace UsageError

def message : UsageError → String
  | unknownArgument => "unexpected argument"
  | invalidValue => "an option has no value"
  | missingRequiredArgument => "a required option is missing"
  | valueValidation => "expected key=value"
  | argumentConflict => "an option cannot be used multiple times"
  | tooManyValues => "a flag takes no value"
  | invalidSubcommand => "unrecognized command"
  | missingSubcommand => "a command is required"
  | displayHelp => "Compile route files, match requests and generate URLs"
  | displayVersion => "0.1.0-alpha.1"
  | displayHelpOnMissingArgumentOrSubcommand => "a command is required"

def isRequested : UsageError → Bool
  | displayHelp => true
  | displayVersion => true
  | _ => false

end UsageError

inductive OptionName where
  | file
  | path
  | method
  | host
  | protocol
  | field
  | name
  | param
  deriving DecidableEq, Repr

namespace OptionName

def all : List OptionName :=
  [file, path, method, host, protocol, field, name, param]

def long : OptionName → String
  | file => "file"
  | path => "path"
  | method => "method"
  | host => "host"
  | protocol => "protocol"
  | field => "field"
  | name => "name"
  | param => "param"

def short? : OptionName → Option Char
  | file => some 'f'
  | method => some 'm'
  | name => some 'n'
  | param => some 'p'
  | _ => none

def isRepeated : OptionName → Bool
  | field => true
  | param => true
  | _ => false

end OptionName

inductive Flag where
  | help
  | version
  deriving DecidableEq, Repr

def Flag.outcome : Flag → UsageError
  | help => .displayHelp
  | version => .displayVersion

inductive CommandName where
  | routes
  | matching
  | generate
  | watch
  deriving DecidableEq, Repr

def CommandName.ofText? : String → Option CommandName
  | "routes" => some routes
  | "match" => some matching
  | "generate" => some generate
  | "watch" => some watch
  | _ => none

/-- Arguments are read before the command, or as those of a command. -/
inductive Level where
  | root
  | command (name : CommandName)
  deriving DecidableEq, Repr

namespace Level

def options : Level → List OptionName
  | root => [.file]
  | command .routes => [.file]
  | command .matching => [.file, .path, .method, .host, .protocol, .field]
  | command .generate => [.file, .name, .param]
  | command .watch => [.file, .method, .host, .protocol, .field]

/-- The version is known before the command only. -/
def flags : Level → List Flag
  | root => [.help, .version]
  | command _ => [.help]

def isRoot (l : Level) : Bool :=
  l = root

def longOption? (l : Level) (word : List Char) : Option OptionName :=
  l.options.find? fun o => o.long.toList = word

def shortOption? (l : Level) (c : Char) : Option OptionName :=
  l.options.find? fun o => o.short? = some c

def longFlag? (l : Level) (word : List Char) : Option Flag :=
  l.flags.find? fun
    | .help => word = "help".toList
    | .version => word = "version".toList

def shortFlag? (l : Level) (c : Char) : Option Flag :=
  l.flags.find? fun
    | .help => c = 'h'
    | .version => c = 'V'

/-- A word for a command, or for help about one, where a command is expected. -/
def isCommandWord (l : Level) (arg : String) : Bool :=
  l.isRoot && (arg = "help" || (CommandName.ofText? arg).isSome)

/-- What is wrong with an argument that is no option: it may be taken for a command. -/
def stray (l : Level) (trailing : Bool) (arg : String) : UsageError :=
  if l.isRoot && !(trailing && l.isCommandWord arg) then .invalidSubcommand else .unknownArgument

end Level

/-- A name and a value around the first equals sign. Blanks around the name do not count. -/
def keyValue? (s : String) : Option (String × String) :=
  let cs := s.toList
  match cs.dropWhile (· ≠ '=') with
  | [] => none
  | _ :: value =>
    let key := Unicode.trim (cs.takeWhile (· ≠ '='))
    if key.isEmpty then none else some (String.ofList key, String.ofList value)

def valueProblem? (o : OptionName) (value : String) : Option UsageError :=
  match o with
  | .file => if value = "" then some .invalidValue else none
  | .field => if (keyValue? value).isNone then some .valueValidation else none
  | .param => if (keyValue? value).isNone then some .valueValidation else none
  | _ => none

/-- The options that were read, and one whose value is not there or not checked yet. -/
structure Given where
  values : List (OptionName × String) := []
  pending : Option (OptionName × Option String) := none
  deriving DecidableEq, Repr

namespace Given

def has (g : Given) (o : OptionName) : Bool :=
  g.values.any (·.1 = o)

def value? (g : Given) (o : OptionName) : Option String :=
  g.values.lookup o

def valuesOf (g : Given) (o : OptionName) : List String :=
  g.values.filterMap fun (o', value) => if o' = o then some value else none

def pairsOf (g : Given) (o : OptionName) : List (String × String) :=
  (g.valuesOf o).filterMap keyValue?

/-- Adds a value; an option that is not repeated has one. -/
def accept (g : Given) (o : OptionName) (value : String) : Except UsageError Given :=
  if !o.isRepeated && g.has o then .error .argumentConflict
  else
    match valueProblem? o value with
    | some problem => .error problem
    | none => .ok { g with values := g.values ++ [(o, value)] }

def settle (g : Given) : Except UsageError Given :=
  match g.pending with
  | none => .ok g
  | some (_, none) => .error .invalidValue
  | some (o, some value) => { g with pending := none }.accept o value

def take (g : Given) (o : OptionName) (value? : Option String) : Except UsageError Given := do
  let g ← g.settle
  match value? with
  | some value => g.accept o value
  | none => return { g with pending := some (o, none) }

def stop (g : Given) (flag : Flag) : UsageError :=
  match g.settle with
  | .error e => e
  | .ok _ => flag.outcome

def waiting? (g : Given) : Option OptionName :=
  match g.pending with
  | some (o, none) => some o
  | _ => none

end Given

inductive Shape where
  /-- Two hyphens alone. -/
  | separator
  | long (word : List Char) (value? : Option String)
  | short (letter : Char) (rest : List Char)
  | plain
  deriving DecidableEq, Repr

namespace Shape

def ofText (arg : String) : Shape :=
  match arg.toList with
  | ['-', '-'] => separator
  | '-' :: '-' :: rest =>
    match rest.dropWhile (· ≠ '=') with
    | [] => long rest none
    | _ :: value => long (rest.takeWhile (· ≠ '=')) (some (String.ofList value))
  | '-' :: letter :: rest => short letter rest
  | _ => plain

/-- What is attached to a letter; an equals sign before it is dropped. -/
def attached? : List Char → Option String
  | [] => none
  | '=' :: value => some (String.ofList value)
  | value => some (String.ofList value)

end Shape

def readLong (l : Level) (g : Given) (word : List Char) (value? : Option String) :
    Except UsageError Given :=
  match l.longFlag? word, l.longOption? word with
  | some flag, _ => .error (if value?.isSome then .tooManyValues else g.stop flag)
  | none, some o => g.take o value?
  | none, none => .error .unknownArgument

def readShort (l : Level) (g : Given) (letter : Char) (rest : List Char) :
    Except UsageError Given :=
  match l.shortFlag? letter, l.shortOption? letter with
  | some flag, _ => .error (g.stop flag)
  | none, some o => g.take o (Shape.attached? rest)
  | none, none => .error .unknownArgument

/-- Reads the arguments of a level up to a word for a command, which is left at the start of the
rest. Nothing is an option after two hyphens. -/
def readLevel (l : Level) (g : Given) : List String → Except UsageError (Given × List String)
  | [] => .ok (g, [])
  | arg :: rest =>
    if g.waiting?.isNone && l.isCommandWord arg then .ok (g, arg :: rest)
    else
      match Shape.ofText arg, g.waiting? with
      | .separator, _ =>
        match rest with
        | [] => .ok (g, [])
        | arg :: _ => .error (l.stray true arg)
      | .long word value?, _ => do readLevel l (← readLong l g word value?) rest
      | .short letter more, _ => do readLevel l (← readShort l g letter more) rest
      | .plain, some o => readLevel l { g with pending := some (o, some arg) } rest
      | .plain, none => .error (l.stray false arg)

/-- Help about a command, which must be one; help about help has no further words. -/
def helpOutcome : List String → UsageError
  | [] => .displayHelp
  | [word] =>
    if word = "help" ∨ (CommandName.ofText? word).isSome then .displayHelp else .invalidSubcommand
  | _ => .invalidSubcommand

def requestOptions (g : Given) : RequestOptions :=
  { method := (g.value? .method).getD "get"
    host := (g.value? .host).getD ""
    protocol := (g.value? .protocol).getD "http://"
    fields := g.pairsOf .field }

def commandOf (name : CommandName) (g : Given) : Except UsageError Command :=
  match name with
  | .routes => .ok .routes
  | .matching => .ok (.matching (g.value? .path) (requestOptions g))
  | .watch => .ok (.watch (requestOptions g))
  | .generate =>
    match g.value? .name with
    | some routeName => .ok (.generate routeName (g.pairsOf .param))
    | none => .error .missingRequiredArgument

def noCommand (g : Given) : UsageError :=
  if g.values.isEmpty then .displayHelpOnMissingArgumentOrSubcommand else .missingSubcommand

/-- Reads the arguments of a command and its own. The file that is named last counts. -/
def readCommand (name : CommandName) (root : Given) (args : List String) :
    Except UsageError Invocation := do
  let (g, _) ← readLevel (.command name) {} args
  let g ← g.settle
  let command ← commandOf name g
  let root ← root.settle
  return ⟨(g.value? .file).or (root.value? .file), command⟩

def Invocation.read (args : List String) : Except UsageError Invocation := do
  let (root, rest) ← readLevel .root {} args
  match rest with
  | [] => throw (noCommand (← root.settle))
  | word :: rest =>
    match CommandName.ofText? word with
    | some name => readCommand name root rest
    | none => throw (helpOutcome rest)

end Signpost.Cli
