import YcpToRuby.Generate.Failure
import YcpToRuby.Number.Binary64
import YcpToRuby.Ruby.Node

/-!
# Constants
-/

set_option autoImplicit false

namespace YcpToRuby.Generate

open Ruby (Node)

def booleanNode (text : String) : Generated Node :=
  if text = "true" then .ok (.literal (.bool true))
  else if text = "false" then .ok (.literal (.bool false))
  else invalid (.malformedBoolean text)

def integerNode (text : String) : Generated Node :=
  match Number.signed64? text with
  | some value => .ok (.literal (.integer value))
  | none => invalid (.malformedInteger text)

def floatNode (text : String) : Generated Node :=
  match Number.binary64? text with
  | some value =>
    if value.isFinite then .ok (.literal (.float value)) else invalid (.malformedFloat text)
  | none => invalid (.malformedFloat text)

def constant : Ycp.ConstType → Option String → Generated Node
  | .void, _ => .ok .nil
  | type, none => invalid (.constantWithoutValue type)
  | .bool, some text => booleanNode text
  | .int, some text => integerNode text
  | .float, some text => floatNode text
  | .symbol, some text => .ok (.symbol text)
  | .string, some text => .ok (.string text)
  | .path, some text => .ok (.invoke none "path" [.string text])

def localized (text : String) : Node :=
  .invoke none "_" [.string text]

end YcpToRuby.Generate
