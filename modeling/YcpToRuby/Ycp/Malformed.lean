/-!
# What can be wrong with a tree

The causes for which an attributed tree is no YCP program, and the message of each.
-/

set_option autoImplicit false

namespace YcpToRuby.Ycp

inductive Arity where
  | exactly (n : Nat)
  | atMostOne
  | oneExpression
  deriving DecidableEq, Repr

def Arity.text : Arity → String
  | exactly n => "exactly " ++ toString n
  | atMostOne => "at most 1"
  | oneExpression => "exactly 1 expression"

inductive Malformed where
  | unknownKind (kind : String)
  | missingAttribute (kind attr : String)
  | missingPart (kind part : String)
  | childCount (kind : String) (expected : Arity) (got : Nat)
  | unrecognized (kind attr value : String)
  | notBoolean (kind attr value : String)
  | qualifiedName (text : String)
  | notElement (kind : String)
  | notVariable (kind : String)
  | notSymbol (kind : String)
  | callback (kind : String)
  | secondCallback (builtin : String)
  | insideSwitch (kind : String)
  | secondDefault
  | functionBody (name : String)
  deriving DecidableEq, Repr

def inTicks (text : String) : String :=
  "\x60" ++ text ++ "\x60"

def Malformed.message : Malformed → String
  | unknownKind kind => "unknown node kind " ++ inTicks kind
  | missingAttribute kind attr =>
    inTicks kind ++ " node is missing attribute " ++ inTicks attr
  | missingPart kind part => inTicks kind ++ " node is missing " ++ inTicks part
  | childCount kind expected got =>
    inTicks kind ++ " node expects " ++ expected.text ++ " children, got " ++ toString got
  | unrecognized kind attr value =>
    "unrecognized " ++ attr ++ " " ++ inTicks value ++ " on " ++ inTicks kind ++ " node"
  | notBoolean kind attr value =>
    "unrecognized boolean " ++ attr ++ " " ++ inTicks value ++ " on " ++ inTicks kind ++
      " node"
  | qualifiedName text => "malformed qualified name " ++ inTicks text
  | notElement kind => "`map` expects `element` children, got " ++ inTicks kind
  | notVariable kind => "expected `variable` or `entry`, got " ++ inTicks kind
  | notSymbol kind => "expected `symbol`, got " ++ inTicks kind
  | callback kind =>
    "builtin callback must be an unspec block or yereturn, got " ++ inTicks kind
  | secondCallback builtin => "builtin " ++ inTicks builtin ++ " has more than one callback"
  | insideSwitch kind => "unexpected " ++ inTicks kind ++ " inside switch"
  | secondDefault => "switch has more than one default"
  | functionBody name => "body of function " ++ inTicks name ++ " must be a def block"

end YcpToRuby.Ycp
