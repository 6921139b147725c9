import YcpToRuby.Cli.Files
import YcpToRuby.Cli.Usage
import YcpToRuby.Conversion
import YcpToRuby.Json.Printer
import YcpToRuby.Ruby.Dump
import YcpToRuby.Settings.Toml

/-!
# A run of the program

The settings come first, then the format, then the input. Nothing is written unless everything
before it succeeds.
-/

set_option autoImplicit false

namespace YcpToRuby.Cli

def defaultConfig : String := "y2r.toml"

inductive RunError where
  | configUnreadable (path : String) (cause : FileError)
  | configInvalid (path : String)
  | unknownFormat (input : String)
  | inputUnreadable (input : String) (cause : FileError)
  | tree (input : String) (cause : ReadError)
  | program (input : String) (cause : Generate.Failure)
  | outputUnwritable (path : String) (cause : FileError)
  deriving DecidableEq, Repr

def inputName (input : String) : String :=
  if input = "-" then "stdin" else input

def RunError.message : RunError → String
  | configUnreadable path cause =>
    "failed to read " ++ path ++ ": " ++ cause.message ++ ": " ++ cause.message
  | configInvalid path => "invalid configuration in " ++ path
  | unknownFormat input =>
    "cannot tell the format of " ++ input ++ " from its extension; use --format"
  | inputUnreadable input cause => "failed to read " ++ inputName input ++ ": " ++ cause.message
  | tree input cause => "failed to read node tree from " ++ input ++ ": " ++ cause.message
  | program input cause => "failed to translate " ++ input ++ ": " ++ cause.message
  | outputUnwritable path cause => "failed to write " ++ path ++ ": " ++ cause.message

structure Outcome where
  status : Nat
  stdout : String := ""
  stderr : String := ""
  deriving DecidableEq, Repr

def parseSettings (path text : String) : Except RunError Settings :=
  match Settings.ofToml? text with
  | some settings => .ok settings
  | none => .error (.configInvalid path)

def settingsOf (config : Option String) (file : Except FileError String) :
    Except RunError Settings :=
  let path := config.getD defaultConfig
  match file with
  | .ok text => parseSettings path text
  | .error cause =>
    if config.isNone ∧ cause = .notFound then .ok {}
    else .error (.configUnreadable path cause)

def Invocation.override (invocation : Invocation) (settings : Settings) : Settings :=
  { settings with exportPrivate := invocation.exportPrivate || settings.exportPrivate }

def Invocation.inputFormat (invocation : Invocation) : Except RunError Format :=
  match invocation.format with
  | some format => .ok format
  | none =>
    if invocation.input = "-" then .ok .xml
    else
      match Format.ofExtension? ((Text.fileExtension? invocation.input).getD "") with
      | some format => .ok format
      | none => .error (.unknownFormat invocation.input)

def Invocation.result (invocation : Invocation) (settings : Settings) (format : Format)
    (text : String) : Except RunError String := do
  let program ← (format.readProgram text).mapError (.tree invocation.input)
  let tree ← (Generate.unit settings program).mapError (.program invocation.input)
  return if invocation.dumpTree then (tree.toJson Ruby.jsonFloat).pretty ++ "\n" else tree.emit

section

variable {m : Type → Type} [Monad m]

def Invocation.run (invocation : Invocation) (files : Files m) : ExceptT RunError m String := do
  let config ← files.read (invocation.config.getD defaultConfig)
  let settings ← settingsOf invocation.config config
  let format ← invocation.inputFormat
  let input ←
    if invocation.input = "-" then files.readInput else files.read invocation.input
  let text ← input.mapError (RunError.inputUnreadable invocation.input)
  let result ← invocation.result (invocation.override settings) format text
  match invocation.output with
  | none => return result
  | some path =>
    let written ← files.write path result
    written.mapError (RunError.outputUnwritable path)
    return ""

def run (files : Files m) (arguments : List String) : m Outcome := do
  match readArguments arguments with
  | .error .help => return { status := 0, stdout := helpText }
  | .error .version => return { status := 0, stdout := versionText }
  | .error (.usage error) => return { status := 2, stderr := error.report }
  | .ok invocation =>
    match ← (invocation.run files).run with
    | .ok stdout => return { status := 0, stdout }
    | .error cause => return { status := 1, stderr := "error: " ++ cause.message ++ "\n" }

end

end YcpToRuby.Cli
