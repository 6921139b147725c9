import YcpToRuby.Cli.Arguments

/-!
# Help, version and usage errors
-/

set_option autoImplicit false

namespace YcpToRuby.Cli

def versionText : String := "y2r 0.2.0\n"

def usageLine : String := "Usage: y2r [OPTIONS] <INPUT>\n"

def helpText : String := String.join [
  "Translate YCP node trees to Ruby\n",
  "\n",
  usageLine,
  "\n",
  "Arguments:\n",
  "  <INPUT>  Node tree file (\x60.xml\x60 or \x60.json\x60), or \x60-\x60 for XML on stdin\n",
  "\n",
  "Options:\n",
  "      --format <FORMAT>  Input format, overriding the file extension ",
  "[possible values: xml, json]\n",
  "  -o, --output <OUTPUT>  Write Ruby to this file instead of stdout\n",
  "      --export-private   Publish non-global module symbols, marked private\n",
  "      --config <CONFIG>  Configuration file (default: y2r.toml if present)\n",
  "      --dump-ast         Print the Ruby AST as JSON instead of source\n",
  "  -v, --verbose...       Increase logging verbosity (-v: debug, -vv+: trace)\n",
  "  -h, --help             Print help\n",
  "  -V, --version          Print version\n"]

def UsageError.message : UsageError → String
  | unexpected argument => "unexpected argument '" ++ argument ++ "' found"
  | repeated usage => "the argument '" ++ usage ++ "' cannot be used multiple times"
  | missingValue option =>
    "a value is required for '" ++ option.usage ++ "' but none was supplied"
  | unneededValue flag value =>
    "unexpected value '" ++ value ++ "' for '" ++ flag.spelling ++
      "' found; no more were expected"
  | badValue option value =>
    "invalid value '" ++ value ++ "' for '" ++ option.usage ++
      "'\n  [possible values: xml, json]"
  | missingInput => "the following required arguments were not provided:\n  <INPUT>"

def UsageError.report (error : UsageError) : String :=
  "error: " ++ error.message ++ "\n\n" ++ usageLine ++
    "\nFor more information, try '--help'.\n"

end YcpToRuby.Cli
