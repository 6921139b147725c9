import YcpToRuby.Cli.Arguments
import YcpToRuby.Cli.Directory
import YcpToRuby.Cli.Files
import YcpToRuby.Cli.Run
import YcpToRuby.Cli.Usage
import YcpToRuby.Conversion
import YcpToRuby.Generate.Binding
import YcpToRuby.Generate.Constant
import YcpToRuby.Generate.Control
import YcpToRuby.Generate.Definition
import YcpToRuby.Generate.Failure
import YcpToRuby.Generate.Invocation
import YcpToRuby.Generate.Node
import YcpToRuby.Generate.Operation
import YcpToRuby.Generate.Reading
import YcpToRuby.Generate.Unit
import YcpToRuby.Json.Printer
import YcpToRuby.Json.Reader
import YcpToRuby.Json.Token
import YcpToRuby.Json.Value
import YcpToRuby.Main
import YcpToRuby.Number.Binary64
import YcpToRuby.Number.Digits
import YcpToRuby.Number.Shortest
import YcpToRuby.Ruby.Dump
import YcpToRuby.Ruby.Layout
import YcpToRuby.Ruby.Node
import YcpToRuby.Ruby.Operator
import YcpToRuby.Ruby.Quoted
import YcpToRuby.Ruby.Reserved
import YcpToRuby.Scope.Context
import YcpToRuby.Scope.Frame
import YcpToRuby.Scope.Naming
import YcpToRuby.Settings.Basic
import YcpToRuby.Settings.Toml
import YcpToRuby.Text.Affix
import YcpToRuby.Text.Blank
import YcpToRuby.Text.Path
import YcpToRuby.Text.Uppercase
import YcpToRuby.Tree.Basic
import YcpToRuby.Tree.Format
import YcpToRuby.Tree.Json
import YcpToRuby.Tree.Xml
import YcpToRuby.Xml.Char
import YcpToRuby.Xml.Declaration
import YcpToRuby.Xml.Piece
import YcpToRuby.Xml.Qualified
import YcpToRuby.Xml.Reference
import YcpToRuby.Xml.Tag
import YcpToRuby.Ycp.Decode
import YcpToRuby.Ycp.Dump
import YcpToRuby.Ycp.Kind
import YcpToRuby.Ycp.Malformed
import YcpToRuby.Ycp.Node
import YcpToRuby.Proofs.Steps
import YcpToRuby.Proofs.Scope.Naming
import YcpToRuby.Proofs.Scope.Nesting
import YcpToRuby.Proofs.Generate.Success
import YcpToRuby.Proofs.Meaning.Runtime
import YcpToRuby.Proofs.Meaning.Ycp
import YcpToRuby.Proofs.Meaning.Ruby
import YcpToRuby.Proofs.Scope.Transparent
import YcpToRuby.Proofs.Scope.Alike
import YcpToRuby.Proofs.Meaning.Expression
import YcpToRuby.Proofs.Meaning.Simulation
import YcpToRuby.Proofs.Meaning.Statement
import YcpToRuby.Proofs.Ruby.Quoting
import YcpToRuby.Proofs.Ruby.Token
import YcpToRuby.Proofs.Ruby.Reader
import YcpToRuby.Proofs.Ruby.Resume
import YcpToRuby.Proofs.Ruby.RoundTrip
import YcpToRuby.Proofs.Ruby.OneLine
import YcpToRuby.Proofs.Ruby.Command
import YcpToRuby.Proofs.Ruby.Line
import YcpToRuby.Proofs.Ruby.Rows
import YcpToRuby.Proofs.Ruby.Statement
import YcpToRuby.Proofs.Ruby.Emit
import YcpToRuby.Proofs.Text.Separator
import YcpToRuby.Proofs.Ycp.Parts
import YcpToRuby.Proofs.Ycp.WellFormed
import YcpToRuby.Proofs.Ycp.Encode
import YcpToRuby.Proofs.Generate.Faults
import YcpToRuby.Proofs.Number.Decimal
import YcpToRuby.Proofs.Generate.ClientName
import YcpToRuby.Proofs.Generate.Translatable
import YcpToRuby.Proofs.Ruby.Enclosure
import YcpToRuby.Proofs.Generate.Jumps
import YcpToRuby.Proofs.Generate.JumpTargets
import YcpToRuby.Proofs.Generate.Grammar
import YcpToRuby.Proofs.Generate.Temporaries
import YcpToRuby.Proofs.Json.RoundTrip
import YcpToRuby.Proofs.Xml.Tag
import YcpToRuby.Proofs.Tree.Formats
import YcpToRuby.Proofs.Generate.Alike
import YcpToRuby.Proofs.Generate.Classes
import YcpToRuby.Proofs.Scope.Visible
import YcpToRuby.Proofs.Generate.Constants
import YcpToRuby.Proofs.Meaning.Cells
import YcpToRuby.Proofs.Meaning.Agreement
import YcpToRuby.Proofs.Meaning.Arguments
import YcpToRuby.Proofs.Meaning.CopyInOut
import YcpToRuby.Proofs.Ycp.Names
import YcpToRuby.Proofs.Ruby.Indentation
import YcpToRuby.Proofs.Ruby.Levels
import YcpToRuby.Proofs.Scope.Lookup
