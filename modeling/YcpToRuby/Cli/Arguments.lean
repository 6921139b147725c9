import YcpToRuby.Tree.Format

/-!
# Arguments of the command line

Arguments are read from the left. An option is spelled out after two hyphens, or is a letter in a
cluster after one. A value follows its option as the next argument, after an equals sign, or
directly after the letter. After `--` every argument is a name. The first argument that asks for
the help or for the version, or that is not in order, ends the reading.
-/

set_option autoImplicit false

namespace YcpToRuby.Cli

structure Invocation where
  input : String
  format : Option Format := none
  output : Option String := none
  config : Option String := none
  exportPrivate : Bool := false
  dumpTree : Bool := false
  verbosity : Nat := 0
  deriving DecidableEq, Repr

inductive Flag where
  | exportPrivate
  | dumpTree
  | verbose
  | help
  | version
  deriving DecidableEq, Repr

inductive Valued where
  | format
  | output
  | config
  deriving DecidableEq, Repr

def Flag.spelling : Flag → String
  | exportPrivate => "--export-private"
  | dumpTree => "--dump-ast"
  | verbose => "--verbose"
  | help => "--help"
  | version => "--version"

def Valued.spelling : Valued → String
  | format => "--format"
  | output => "--output"
  | config => "--config"

def Valued.usage : Valued → String
  | format => "--format <FORMAT>"
  | output => "--output <OUTPUT>"
  | config => "--config <CONFIG>"

def Flag.all : List Flag := [exportPrivate, dumpTree, verbose, help, version]

def Valued.all : List Valued := [format, output, config]

inductive UsageError where
  | unexpected (argument : String)
  | repeated (usage : String)
  | missingValue (option : Valued)
  | unneededValue (flag : Flag) (value : String)
  | badValue (option : Valued) (value : String)
  | missingInput
  deriving DecidableEq, Repr

inductive Stop where
  | usage (error : UsageError)
  | help
  | version
  deriving DecidableEq, Repr

structure Progress where
  input : Option String := none
  format : Option Format := none
  output : Option String := none
  config : Option String := none
  exportPrivate : Bool := false
  dumpTree : Bool := false
  verbosity : Nat := 0
  pending : Option Valued := none
  namesOnly : Bool := false
  deriving DecidableEq, Repr

namespace Progress

def fail {α : Type} (error : UsageError) : Except Stop α :=
  .error (.usage error)

def setFlag (progress : Progress) (flag : Flag) : Except Stop Progress :=
  match flag with
  | .exportPrivate =>
    if progress.exportPrivate then fail (.repeated flag.spelling)
    else .ok { progress with exportPrivate := true }
  | .dumpTree =>
    if progress.dumpTree then fail (.repeated flag.spelling)
    else .ok { progress with dumpTree := true }
  | .verbose => .ok { progress with verbosity := progress.verbosity + 1 }
  | .help => .error .help
  | .version => .error .version

def path (option : Valued) (value : String) : Except Stop String :=
  if value = "" then fail (.missingValue option) else .ok value

def setValue (progress : Progress) (option : Valued) (value : String) :
    Except Stop Progress :=
  let progress := { progress with pending := none }
  match option with
  | .format =>
    if progress.format.isSome then fail (.repeated option.usage)
    else
      match Format.ofName? value with
      | some format => .ok { progress with format := some format }
      | none => fail (.badValue option value)
  | .output =>
    if progress.output.isSome then fail (.repeated option.usage)
    else do return { progress with output := some (← path option value) }
  | .config =>
    if progress.config.isSome then fail (.repeated option.usage)
    else do return { progress with config := some (← path option value) }

def setInput (progress : Progress) (name : String) : Except Stop Progress :=
  if progress.input.isSome then fail (.unexpected name)
  else .ok { progress with input := some name }

def long (progress : Progress) (spelling : String) (value : Option String) :
    Except Stop Progress :=
  match Flag.all.find? (·.spelling == spelling), Valued.all.find? (·.spelling == spelling) with
  | some flag, _ =>
    match value with
    | none => progress.setFlag flag
    | some value => fail (.unneededValue flag value)
  | none, some option =>
    match value with
    | none => .ok { progress with pending := some option }
    | some value => progress.setValue option value
  | none, none => fail (.unexpected spelling)

def cluster (progress : Progress) : List Char → Except Stop Progress
  | [] => .ok progress
  | 'v' :: rest => do cluster (← progress.setFlag .verbose) rest
  | 'h' :: _ => .error .help
  | 'V' :: _ => .error .version
  | ['o'] => .ok { progress with pending := some .output }
  | 'o' :: '=' :: value => progress.setValue .output (String.ofList value)
  | 'o' :: value => progress.setValue .output (String.ofList value)
  | c :: _ => fail (.unexpected (String.ofList ['-', c]))

def isOption : List Char → Bool
  | '-' :: _ :: _ => true
  | _ => false

def step (progress : Progress) (argument : String) : Except Stop Progress :=
  if progress.namesOnly then progress.setInput argument
  else
    match progress.pending with
    | some option =>
      if isOption argument.toList then fail (.missingValue option)
      else progress.setValue option argument
    | none =>
      match argument.toList with
      | ['-', '-'] => .ok { progress with namesOnly := true }
      | '-' :: '-' :: text =>
        let spelling := String.ofList ('-' :: '-' :: text.takeWhile (· != '='))
        match text.dropWhile (· != '=') with
        | [] => progress.long spelling none
        | _ :: value => progress.long spelling (some (String.ofList value))
      | '-' :: c :: rest => progress.cluster (c :: rest)
      | _ => progress.setInput argument

def finish (progress : Progress) : Except Stop Invocation :=
  match progress.pending, progress.input with
  | some option, _ => fail (.missingValue option)
  | none, none => fail .missingInput
  | none, some input =>
    .ok {
      input
      format := progress.format
      output := progress.output
      config := progress.config
      exportPrivate := progress.exportPrivate
      dumpTree := progress.dumpTree
      verbosity := progress.verbosity }

end Progress

def readArguments (arguments : List String) : Except Stop Invocation := do
  (← arguments.foldlM Progress.step {}).finish

end YcpToRuby.Cli
