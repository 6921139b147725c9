import YcpToRuby.Generate.Failure
import YcpToRuby.Ruby.Node
import YcpToRuby.Scope.Context

/-!
# Variables

How a name is read, written and passed on. The variables of the module itself are instance
variables; those of another module are reached through its accessors. A parameter passed by
reference is a holder, and its value is behind `.value`.
-/

set_option autoImplicit false

namespace YcpToRuby.Generate

open Ruby (Node)
open Scope (Context)
open Ycp (QualifiedName Variable)

def isForeign (ctx : Context) (ns : String) : Bool :=
  ctx.moduleName? != some ns

def nameNode (ctx : Context) (name : QualifiedName) : Node :=
  match name.ns with
  | some ns =>
    if isForeign ctx ns then .invoke (some (.constant ns)) name.name [] else .var ("@" ++ name.name)
  | none => .var (ctx.resolve name.name)

def targetNode (ctx : Context) (name : QualifiedName) : Node :=
  match name.ns with
  | some ns =>
    if isForeign ctx ns then .command (some (.constant ns)) name.name [] else nameNode ctx name
  | none => nameNode ctx name

def heldBy (node : Node) : Node :=
  .command (some node) "value" []

def referenceValue? (ctx : Context) (name : QualifiedName) : Option Node :=
  match name.ns, ctx.lookup? name.name with
  | none, some symbol =>
    if symbol.isReference then some (heldBy (.var (ctx.resolve name.name))) else none
  | _, _ => none

def valueNode (ctx : Context) (name : QualifiedName) : Node :=
  (referenceValue? ctx name).getD (nameNode ctx name)

def assignmentTarget (ctx : Context) (name : QualifiedName) : Node :=
  (referenceValue? ctx name).getD (targetNode ctx name)

def functionGetter (ctx : Context) (name : QualifiedName) : Node :=
  let method := [Node.symbol name.name]
  match name.ns with
  | none =>
    if ctx.isLocal name.name then .var (ctx.localName name.name) else .invoke none "method" method
  | some ns =>
    if isForeign ctx ns then .invoke (some (.constant ns)) "method" method
    else .invoke none "method" method

def variableNode (ctx : Context) (v : Variable) : Generated Node :=
  match v.category with
  | .var => .ok (nameNode ctx v.name)
  | .reference => .ok (heldBy (nameNode ctx v.name))
  | .function =>
    match v.type with
    | some type => .ok (.invoke none "fun_ref" [functionGetter ctx v.name, .string type])
    | none => invalid (.untypedFunction v.name.name)

end YcpToRuby.Generate
