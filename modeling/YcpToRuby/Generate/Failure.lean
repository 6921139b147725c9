import YcpToRuby.Scope.Frame
import YcpToRuby.Ycp.Malformed
import YcpToRuby.Ycp.Node

/-!
# Why no Ruby is generated

A program can break a rule of YCP, or use a construct that Ruby has no counterpart for.
-/

set_option autoImplicit false

namespace YcpToRuby.Generate

open Ycp (inTicks)

inductive Invalid where
  | constantWithoutValue (type : Ycp.ConstType)
  | malformedBoolean (text : String)
  | malformedInteger (text : String)
  | malformedFloat (text : String)
  | untypedFunction (name : String)
  | unknownNamespace (ns builtin : String)
  | looseReference (name : String)
  | notAValue (kind : Ycp.Kind)
  | innerFileBlock (kind : Ycp.BlockKind)
  | functionBody (name : String)
  | namelessModule
  | clientWithoutFile
  | className (filename : String)
  deriving DecidableEq, Repr

inductive Unsupported where
  | nestedFunction (name : String)
  | breakInside (clause : Scope.Clause)
  | fallThrough (clause : Scope.Clause)
  deriving DecidableEq, Repr

inductive Failure where
  | invalid (cause : Invalid)
  | unsupported (cause : Unsupported)
  deriving DecidableEq, Repr

def typeLabel : Ycp.ConstType → String
  | .void => "Void"
  | .bool => "Bool"
  | .int => "Int"
  | .float => "Float"
  | .symbol => "Symbol"
  | .string => "String"
  | .path => "Path"

def Invalid.message : Invalid → String
  | constantWithoutValue type => typeLabel type ++ " constant without a value"
  | malformedBoolean text => "malformed boolean constant " ++ inTicks text
  | malformedInteger text => "malformed integer constant " ++ inTicks text
  | malformedFloat text => "malformed float constant " ++ inTicks text
  | untypedFunction name => "function reference " ++ inTicks name ++ " has no type"
  | unknownNamespace ns builtin =>
    "unknown builtin namespace " ++ inTicks ns ++ " in " ++ inTicks builtin
  | looseReference name => "reference to " ++ inTicks name ++ " outside of a call argument"
  | notAValue kind => inTicks kind.tag ++ " cannot be used as a value"
  | innerFileBlock kind => kind.tag ++ " block is only valid at the top level"
  | functionBody name => "body of function " ++ inTicks name ++ " is not a def block"
  | namelessModule => "module block without a name"
  | clientWithoutFile => "file block without a filename"
  | className filename =>
    "file name " ++ inTicks filename ++ " does not give a Ruby class name"

def Unsupported.message : Unsupported → String
  | nestedFunction name => "nested function definition " ++ inTicks name
  | breakInside clause => clause.label ++ " has a break in the middle"
  | fallThrough clause => clause.label ++ " does not end with break or return"

def Failure.message : Failure → String
  | invalid cause => "invalid input: " ++ cause.message
  | unsupported cause => "unsupported construct: " ++ cause.message

abbrev Generated := Except Failure

def invalid {α : Type} (cause : Invalid) : Generated α :=
  .error (.invalid cause)

def unsupported {α : Type} (cause : Unsupported) : Generated α :=
  .error (.unsupported cause)

end YcpToRuby.Generate
