import YcpToRuby.Generate.Unit
import YcpToRuby.Ruby.Layout
import YcpToRuby.Tree.Format

/-!
# From a written tree to Ruby text

Read the tree, decode the program, generate the Ruby tree and lay it out.
-/

set_option autoImplicit false

namespace YcpToRuby

inductive ConversionError where
  | read (cause : ReadError)
  | generate (cause : Generate.Failure)
  deriving DecidableEq, Repr

def ConversionError.message : ConversionError → String
  | read cause => cause.message
  | generate cause => cause.message

def rubyText (settings : Settings) (program : Ycp.Node) : Generate.Generated String :=
  Ruby.Node.emit <$> Generate.unit settings program

def convertTree (settings : Settings) (format : Format) (text : String) :
    Except ConversionError Ruby.Node := do
  let program ← (format.readProgram text).mapError .read
  (Generate.unit settings program).mapError .generate

def convert (settings : Settings) (format : Format) (text : String) :
    Except ConversionError String :=
  Ruby.Node.emit <$> convertTree settings format text

end YcpToRuby
