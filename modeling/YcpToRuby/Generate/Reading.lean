import YcpToRuby.Generate.Failure
import YcpToRuby.Ruby.Node
import YcpToRuby.Scope.Context

/-!
# Readings of a node

A node can stand where a value is wanted or where a statement is wanted, and what it becomes
depends on the context. A reading answers both. Expressions read the same in both places; a
statement is no value. Some statements leave nothing behind.
-/

set_option autoImplicit false

namespace YcpToRuby.Generate

open Scope (Context Frame)

structure Reading where
  node : Ycp.Node
  value : Context → Generated Ruby.Node
  statement : Context → Generated (Option Ruby.Node)

namespace Reading

def expression (node : Ycp.Node) (value : Context → Generated Ruby.Node) : Reading :=
  { node, value, statement := fun ctx => some <$> value ctx }

def statementOnly (node : Ycp.Node) (statement : Context → Generated (Option Ruby.Node)) :
    Reading :=
  { node, value := fun _ => invalid (.notAValue node.kind), statement }

def solid (node : Ycp.Node) (statement : Context → Generated Ruby.Node) : Reading :=
  statementOnly node fun ctx => some <$> statement ctx

@[simp] theorem node_expression (node : Ycp.Node) (value : Context → Generated Ruby.Node) :
    (expression node value).node = node := rfl

@[simp] theorem node_statementOnly (node : Ycp.Node)
    (statement : Context → Generated (Option Ruby.Node)) :
    (statementOnly node statement).node = node := rfl

@[simp] theorem node_solid (node : Ycp.Node) (statement : Context → Generated Ruby.Node) :
    (solid node statement).node = node := rfl

end Reading

def splice : Option Ruby.Node → List (Option Ruby.Node)
  | some (.sequence entries) => entries
  | entry => [entry]

def values (readings : List Reading) (ctx : Context) : Generated (List Ruby.Node) :=
  readings.mapM fun reading => reading.value ctx

def statements (readings : List Reading) (ctx : Context) :
    Generated (List (Option Ruby.Node)) := do
  let entries ← readings.mapM fun reading => reading.statement ctx
  return entries.flatMap splice

def Reading.body (reading : Reading) (ctx : Context) : Generated Ruby.Node := do
  return .sequence (splice (← reading.statement ctx))

end YcpToRuby.Generate
