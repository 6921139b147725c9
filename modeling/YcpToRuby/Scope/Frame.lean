import YcpToRuby.Ycp.Node

/-!
# Frames

A frame is one of the constructs around a node. It keeps what the construct declares and what a
jump has to know about it.
-/

set_option autoImplicit false

namespace YcpToRuby.Scope

open Ycp (BlockInfo BlockKind LoopKind Symbol)

inductive Clause where
  | case (value : String)
  | default
  deriving DecidableEq, Repr

def Clause.label : Clause → String
  | case value => "case " ++ value
  | default => "default"

inductive Frame where
  | block (info : BlockInfo)
  | function (name : String) (params : List Symbol) (body : BlockInfo)
  | loop (kind : LoopKind)
  | returnExpr (params : List Symbol)
  | clause (clause : Clause)
  deriving DecidableEq, Repr

inductive FrameKind where
  | block (kind : BlockKind)
  | function
  | loop
  | returnExpr
  | clause
  deriving DecidableEq, Repr

namespace Frame

def kind : Frame → FrameKind
  | block info => .block info.kind
  | function .. => .function
  | loop _ => .loop
  | returnExpr _ => .returnExpr
  | clause _ => .clause

def declared : Frame → List Symbol
  | block info => info.params ++ info.symbols
  | function _ params body => params ++ body.symbols
  | returnExpr params => params
  | loop _ | clause _ => []

def symbols (frame : Frame) : List Symbol :=
  frame.declared.filter fun symbol => symbol.category != .filename

def names (frame : Frame) : List String :=
  frame.symbols.map Symbol.name

def startsLocalScope (frame : Frame) : Bool :=
  match frame.kind with
  | .function | .returnExpr | .block .unspec | .block .function => true
  | _ => false

def label : Frame → String
  | block info => info.kind.tag
  | function name _ _ => "function " ++ name
  | loop kind => kind.kind.tag
  | returnExpr _ => Ycp.Kind.returnExpr.tag
  | clause c => c.label

end Frame

end YcpToRuby.Scope
