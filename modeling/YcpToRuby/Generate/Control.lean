import YcpToRuby.Generate.Reading

/-!
# Conditionals, loops and jumps

A `break` leaves the innermost loop or closure; out of a closure it is an exception. A `return`
inside a closure leaves the closure. Clauses of a Ruby `case` do not fall through, so a clause has
to end in `break`, which is dropped, or in `return`; any other `break` that would leave a clause
has no counterpart.
-/

set_option autoImplicit false

namespace YcpToRuby.Generate

open Ruby (Node)
open Scope (Clause Context Frame FrameKind)
open Ycp (BlockInfo LoopKind)

/-! ## Branches -/

def isEmptyBlock : Ycp.Node → Bool
  | .block (.mk info []) => info.kind == .stmt
  | _ => false

def isConditional : Ycp.Node → Bool
  | .ifElse .. => true
  | _ => false

def branch (reading : Option Reading) (ctx : Context) : Generated (Option Node) :=
  match reading with
  | none => .ok none
  | some reading =>
    if isEmptyBlock reading.node then .ok none else some <$> reading.body ctx

def elseBranch (reading : Option Reading) (ctx : Context) : Generated (Option Node) :=
  match reading with
  | none => .ok none
  | some reading =>
    if isConditional reading.node then reading.statement ctx else some <$> reading.body ctx

def conditional (condition : Reading) (thenPart elsePart : Option Reading) (ctx : Context) :
    Generated Node := do
  let test ← condition.value ctx
  match ← branch thenPart ctx, elsePart with
  | none, some elsePart => return .unlessElse test (← elsePart.body ctx) none
  | none, none => return .ifElse test (.sequence []) none
  | some thenBody, elsePart => return .ifElse test thenBody (← elseBranch elsePart ctx)

/-! ## Loops and jumps -/

def loopNode (kind : LoopKind) (condition body : Node) : Node :=
  match kind with
  | .whileTrue => .loop .whileTrue condition body
  | .doWhile => .loop .whileTrue condition (.beginEnd body)
  | .repeatUntil => .loop .untilTrue condition (.beginEnd body)

def loop (kind : LoopKind) (condition body : Reading) (ctx : Context) : Generated Node := do
  let test ← condition.value ctx
  return loopNode kind test (← body.body (ctx.inside (.loop kind)))

def breakNode (ctx : Context) : Generated Node :=
  match ctx.innermost? [.loop, .block .unspec, .clause] with
  | some (.block _) => .ok (.command none "raise" [.constant "Break"])
  | some (.clause clause) => unsupported (.breakInside clause)
  | _ => .ok .breakLoop

def returnNode (value : Option Node) (ctx : Context) : Node :=
  match ctx.innermost? [.function, .block .function, .block .file, .block .unspec] with
  | some (.block info) => if info.kind = .unspec then .next value else .ret value
  | _ => .ret value

def returnStatement (value : Option Reading) (ctx : Context) : Generated Node := do
  match value with
  | none => return returnNode none ctx
  | some value => return returnNode (some (← value.value ctx)) ctx

/-! ## Switches -/

def isBreak : Ycp.Node → Bool
  | .breakLoop => true
  | _ => false

def isReturn : Ycp.Node → Bool
  | .ret _ => true
  | _ => false

def withoutBreak (body : List Reading) : List Reading :=
  match body.getLast? with
  | some last => if isBreak last.node then body.dropLast else body
  | none => body

def leavesSwitch (body : List Reading) : Bool :=
  match body.getLast? with
  | some last => isBreak last.node || isReturn last.node
  | none => false

def clauseBody (clause : Clause) (info : BlockInfo) (body : List Reading) (ctx : Context) :
    Generated Node := do
  return .sequence (← statements body ((ctx.inside (.clause clause)).inside (.block info)))

def caseClause (value : Reading) (info : BlockInfo) (body : List Reading) (ctx : Context) :
    Generated (List Node × Node) := do
  let clause := Clause.case value.node.describe
  if leavesSwitch body then
    let test ← value.value ctx
    return ([test], ← clauseBody clause info (withoutBreak body) ctx)
  else unsupported (.fallThrough clause)

def defaultClause (default : Option (BlockInfo × List Reading)) (ctx : Context) :
    Generated (Option Node) :=
  match default with
  | none => .ok none
  | some (info, body) =>
    if (withoutBreak body).isEmpty then .ok none
    else some <$> clauseBody .default info (withoutBreak body) ctx

def switch (condition : Reading) (cases : List (Reading × BlockInfo × List Reading))
    (default : Option (BlockInfo × List Reading)) (ctx : Context) : Generated Node := do
  let subject ← condition.value ctx
  let clauses ← cases.mapM fun (value, info, body) => caseClause value info body ctx
  return .caseWhen subject clauses (← defaultClause default ctx)

end YcpToRuby.Generate
