import YcpToRuby.Scope.Frame
import YcpToRuby.Scope.Naming

/-!
# Contexts

A context is the stack of frames around a node, outermost first. The outermost frame that starts a
local scope is the boundary: what is declared there or further inside is local, what is declared
outside is global.
-/

set_option autoImplicit false

namespace YcpToRuby.Scope

open Ycp (BlockKind Symbol)

structure Context where
  frames : List Frame := []
  exportPrivate : Bool := false
  deriving DecidableEq, Repr

namespace Context

def inside (ctx : Context) (frame : Frame) : Context :=
  { ctx with frames := ctx.frames ++ [frame] }

def innermost? (ctx : Context) (kinds : List FrameKind) : Option Frame :=
  ctx.frames.reverse.find? fun frame => kinds.contains frame.kind

def moduleName? (ctx : Context) : Option String :=
  match ctx.frames with
  | .block info :: _ => if info.kind = .module then info.name else none
  | _ => none

def inFunction (ctx : Context) : Bool :=
  ctx.frames.any fun frame => frame.kind == .function

def localFrames (ctx : Context) : List Frame :=
  ctx.frames.dropWhile fun frame => !frame.startsLocalScope

def globalFrames (ctx : Context) : List Frame :=
  ctx.frames.takeWhile fun frame => !frame.startsLocalScope

def locals (ctx : Context) : List String :=
  ctx.localFrames.flatMap Frame.names

def globals (ctx : Context) : List String :=
  ctx.globalFrames.flatMap Frame.names

def isLocal (ctx : Context) (name : String) : Bool :=
  ctx.locals.contains name

def isGlobal (ctx : Context) (name : String) : Bool :=
  !ctx.isLocal name && ctx.globals.contains name

def declarationIn? (name : String) (frame : Frame) : Option Symbol :=
  (frame.symbols.filter fun symbol => symbol.name == name).getLast?

def lookup? (ctx : Context) (name : String) : Option Symbol :=
  ctx.frames.reverse.findSome? (declarationIn? name)

def localName (ctx : Context) (name : String) : String :=
  escape (suffixed name ctx.locals)

def globalName (ctx : Context) (name : String) : String :=
  "@" ++ suffixed name ctx.globals

def resolve (ctx : Context) (name : String) : String :=
  if ctx.isGlobal name then ctx.globalName name else ctx.localName name

end Context

end YcpToRuby.Scope
