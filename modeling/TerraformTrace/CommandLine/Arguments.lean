import TerraformTrace.Path
import TerraformTrace.Text.Digit

/-!
# TerraformTrace.CommandLine.Arguments

The arguments of the command line: a command, its subject, and options in any order.

Options are long (`--from`) or short (`-v`). A long option may be shortened as long as
only one option starts that way. A value follows its option as the next argument or
after an equals sign. Short options can be written together, and are taken only if all
of them exist. After `--` everything is the subject. Arguments are taken one after the
other, so help that is asked for before a mistake is given.
-/

namespace TerraformTrace.CommandLine

/-! ### Commands and options -/

/-- What can be asked for. -/
inductive Command
  /-- The value of one reference. -/
  | resolve
  /-- The values of a reference from all candidate directories. -/
  | contexts
  /-- All references of a file with their values. -/
  | scan
deriving DecidableEq, Repr

/-- The word of a command. -/
def Command.word : Command → String
  | .resolve => "resolve"
  | .contexts => "contexts"
  | .scan => "scan"

/-- The command of a word. -/
def Command.ofWord? (word : Text) : Option Command :=
  [Command.resolve, .contexts, .scan].find? (·.word.toList = word)

/-- The options. -/
inductive Switch
  | help
  | workspace
  | config
  | debug
  | verbose
  | start
  | plain
  | json
deriving DecidableEq, Repr

namespace Switch

/-- The names of an option. -/
def spellings : Switch → List String
  | .help => ["-h", "--help"]
  | .workspace => ["--workspace"]
  | .config => ["--config"]
  | .debug => ["--debug"]
  | .verbose => ["-v", "--verbose"]
  | .start => ["--from"]
  | .plain => ["--plain"]
  | .json => ["--json"]

/-- Whether a value belongs to an option. -/
def takesValue : Switch → Bool
  | .workspace | .config | .start => true
  | _ => false

end Switch

/-- The options of a command. -/
def Command.switches : Command → List Switch
  | .resolve => [.help, .workspace, .config, .debug, .verbose, .start, .plain, .json]
  | .contexts => [.help, .workspace, .config, .debug, .verbose, .start, .json]
  | .scan => [.help, .workspace, .config, .debug, .verbose, .json]

/-- What the options say. -/
structure Choices where
  workspace : Path := .ofText []
  config : Option Path := none
  debug : Bool := false
  verbose : Bool := false
  start : Path := .ofText []
  plain : Bool := false
  json : Bool := false
deriving DecidableEq, Repr

/-- A command with its subject and options. -/
structure Arguments extends Choices where
  command : Command
  /-- The reference to resolve, or the file to scan. -/
  subject : Text
deriving DecidableEq, Repr

/-- Why there is nothing to run. -/
inductive UsageEnd
  | help
  | mistake
deriving DecidableEq, Repr

/-- The exit code. -/
def UsageEnd.code : UsageEnd → Nat
  | .help => 0
  | .mistake => 2

/-- How to call the program. -/
def usage : String :=
  "usage: tfresolve resolve REFERENCE [--from DIR] [--plain] [--json] [OPTIONS]\n" ++
  "       tfresolve contexts REFERENCE [--from DIR] [--json] [OPTIONS]\n" ++
  "       tfresolve scan FILE [--json] [OPTIONS]\n" ++
  "options: --workspace DIR, --config FILE, --debug, -v, --verbose, -h, --help\n" ++
  "exit codes: 0 value found, 1 not found, 2 settings error, 3 unreadable file"

/-! ### Kinds of arguments -/

/-- What is written in one argument with an option. -/
inductive Attachment
  | none
  /-- A value after an equals sign. -/
  | value (text : Text)
  /-- The letters of further short options. -/
  | letters (text : Text)
deriving DecidableEq, Repr

/-- What an argument is by its own form. -/
inductive Form
  /-- A subject, a command or a value. -/
  | word
  /-- An option with what is attached to it. -/
  | switch (switch : Switch) (attachment : Attachment)
  | unknown
  | stop
deriving DecidableEq, Repr

/-- The part of an argument before its first equals sign, and what is attached. What
follows the sign after a short option counts as further letters. -/
def splitAttached (argument : Text) : Text × Attachment :=
  let name := argument.takeWhile (· ≠ '=')
  let text := argument.drop (name.length + 1)
  (name,
    if !argument.contains '=' then .none
    else if name.length = 2 && !text.isEmpty then .letters text
    else .value text)

/-- Options by their names. -/
def spelled (switches : List Switch) : List (Text × Switch) :=
  switches.flatMap fun switch => switch.spellings.map fun name => (name.toList, switch)

/-- The option of a name. -/
def switch? (switches : List Switch) (spelling : Text) : Option Switch :=
  (spelled switches).lookup spelling

/-- The options that an argument may stand for when it is none exactly: long options that
start as it does, or the short option that it starts with. -/
def candidates (switches : List Switch) (argument : Text) : List (Switch × Attachment) :=
  match argument with
  | '-' :: '-' :: _ =>
    let (name, attachment) := splitAttached argument
    ((spelled switches).filter fun entry => name.isPrefixOf entry.1).map fun entry =>
      (entry.2, attachment)
  | _ =>
    ((switch? switches (argument.take 2)).map fun switch =>
      (switch, Attachment.letters (argument.drop 2))).toList

/-- Whether a text is a negative number. -/
def isNegativeNumber : Text → Bool
  | '-' :: rest =>
    let whole := rest.takeWhile Text.isDecimal
    match rest.drop whole.length with
    | [] => !whole.isEmpty
    | '.' :: decimals => !decimals.isEmpty && decimals.all Text.isDecimal
    | _ => false
  | _ => false

/-- The form of an argument before the end of the options. A shortened option that fits
several options is a mistake. -/
def form (switches : List Switch) (argument : Text) : Except UsageEnd Form :=
  let (name, attachment) := splitAttached argument
  if argument.head? ≠ some '-' then .ok .word
  else
    match switch? switches name with
    | some switch => .ok (.switch switch attachment)
    | none =>
      if argument.length = 1 then .ok .word
      else
        match candidates switches argument with
        | [(switch, attachment)] => .ok (.switch switch attachment)
        | _ :: _ :: _ => .error .mistake
        | [] =>
          if isNegativeNumber argument || argument.contains ' ' then .ok .word
          else .ok .unknown

/-- The forms of arguments. Everything after `--` is a word. -/
def forms (switches : List Switch) : List Text → Except UsageEnd (List (Form × Text))
  | [] => .ok []
  | argument :: rest =>
    if argument = "--".toList then
      .ok ((.stop, argument) :: rest.map fun word => (.word, word))
    else do
      let first ← form switches argument
      let more ← forms switches rest
      return (first, argument) :: more

/-! ### Reading -/

/-- What has been read of a command's arguments. -/
structure Progress where
  choices : Choices := {}
  subject : Option Text := none
  /-- Whether something was left over. -/
  surplus : Bool := false
deriving DecidableEq, Repr

namespace Progress

/-- Takes an option without a value. -/
def flag (progress : Progress) : Switch → Except UsageEnd Progress
  | .help => .error .help
  | .debug => .ok { progress with choices.debug := true }
  | .verbose => .ok { progress with choices.verbose := true }
  | .plain => .ok { progress with choices.plain := true }
  | .json => .ok { progress with choices.json := true }
  | .workspace | .config | .start => .ok progress

/-- Takes an option with its value. -/
def value (progress : Progress) (switch : Switch) (text : Text) : Progress :=
  match switch with
  | .workspace => { progress with choices.workspace := .ofText text }
  | .config => { progress with choices.config := some (.ofText text) }
  | .start => { progress with choices.start := .ofText text }
  | _ => progress

/-- The options that a short option and the letters after it stand for. -/
def together? (switches : List Switch) (first : Switch) (letters : Text) : Option (List Switch) :=
  (letters.mapM fun letter => switch? switches ['-', letter]).map (first :: ·)

/-- Takes an option with what is attached to it. -/
def attached (switches : List Switch) (progress : Progress) (switch : Switch) :
    Attachment → Except UsageEnd Progress
  | .none => progress.flag switch
  | .value text => if switch.takesValue then .ok (progress.value switch text) else .error .mistake
  | .letters text =>
    match together? switches switch text with
    | none => .error .mistake
    | some all => all.foldlM flag progress

/-- Takes a word: the subject, or else it is left over. -/
def word (progress : Progress) (text : Text) : Progress :=
  match progress.subject with
  | none => { progress with subject := some text }
  | some _ => { progress with surplus := true }

end Progress

/-- Takes classified arguments one by one. -/
def readForms (switches : List Switch) (progress : Progress) :
    List (Form × Text) → Except UsageEnd Progress
  | [] => .ok progress
  | (.word, text) :: (.stop, mark) :: rest =>
    if progress.subject.isNone then readForms switches (progress.word text) rest
    else readForms switches { progress with surplus := true } ((.stop, mark) :: rest)
  | (.word, text) :: rest => readForms switches (progress.word text) rest
  | (.stop, _) :: rest =>
    readForms switches
      { progress with surplus := progress.surplus || progress.subject.isSome || rest.isEmpty } rest
  | (.unknown, _) :: rest => readForms switches { progress with surplus := true } rest
  | (.switch switch attachment, _) :: rest =>
    if switch.takesValue && attachment = .none then
      match rest with
      | (.word, text) :: rest => readForms switches (progress.value switch text) rest
      | _ => .error .mistake
    else do
      let progress ← progress.attached switches switch attachment
      readForms switches progress rest

/-- Reads the arguments of a command. -/
def readCommand (command : Command) (args : List Text) : Except UsageEnd Arguments := do
  let read ← forms command.switches args
  let progress ← readForms command.switches {} read
  match progress.subject with
  | none => .error .mistake
  | some subject =>
    if progress.surplus then .error .mistake
    else .ok { progress.choices with command, subject }

/-- Reads a whole command line. Before the command only help can be asked for; an option
that does not exist there is a mistake, found after the command was read. -/
def parse : List Text → Except UsageEnd Arguments
  | [] => .error .mistake
  | argument :: rest => do
    if argument = "--".toList then .error .mistake
    match ← form [.help] argument with
    | .word =>
      match Command.ofWord? argument with
      | none => .error .mistake
      | some command => readCommand command rest
    | .switch switch attachment => do
      let _ ← Progress.attached [.help] {} switch attachment
      .error .mistake
    | .unknown => do
      let _ ← parse rest
      .error .mistake
    | .stop => .error .mistake

end TerraformTrace.CommandLine
