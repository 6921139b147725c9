import YcpToRuby.Generate.Constant
import YcpToRuby.Generate.Control
import YcpToRuby.Generate.Definition
import YcpToRuby.Generate.Operation

/-!
# Every node

The reading of a node is made from the readings of its parts. A path of one key indexes with the
bare key.
-/

set_option autoImplicit false

namespace YcpToRuby.Generate

open Scope (Context)
open Ycp (Block BlockInfo Closure Node)

def blockReading (node : Node) (info : BlockInfo) (body : List Reading) : Reading :=
  match info.kind with
  | .unspec => .expression node fun ctx => lambda <$> blockLiteral info body ctx
  | .stmt | .function =>
    .solid node fun ctx => .sequence <$> statements body (ctx.inside (.block info))
  | .module | .file => .solid node fun _ => invalid (.innerFileBlock info.kind)

@[simp] theorem node_blockReading (node : Node) (info : BlockInfo) (body : List Reading) :
    (blockReading node info body).node = node := by
  unfold blockReading
  split <;> simp

mutual

def reading : Node → Reading
  | .const type value => .expression (.const type value) fun _ => constant type value
  | .locale text => .expression (.locale text) fun _ => .ok (localized text)
  | .list elements =>
    .expression (.list elements) fun ctx => .array <$> values (readings elements) ctx
  | .map entries =>
    .expression (.map entries) fun ctx => .hash <$> (entryReadings entries).mapM fun entry => do
      return (← entry.1.value ctx, ← entry.2.value ctx)
  | .var target => .expression (.var target) fun ctx => variableNode ctx target
  | .assign target value =>
    .expression (.assign target value) fun ctx => do
      let value ← (reading value).value ctx
      return .assign (assignmentTarget ctx target) value
  | .bracket target index value =>
    .expression (.bracket target index value) fun ctx => do
      let key := match index with
        | .list [key] => reading key
        | path => reading path
      return opsCall "set" [← variableNode ctx target, ← key.value ctx,
        ← (reading value).value ctx]
  | .index value index fallback =>
    .expression (.index value index fallback) fun ctx => do
      let key := match index with
        | .list [key] => reading key
        | path => reading path
      return opsCall "get" [← (reading value).value ctx, ← key.value ctx,
        ← (reading fallback).value ctx]
  | .call target category type args =>
    .expression (.call target category type args) fun ctx =>
      callWith ctx target category <$> (readings args).mapM (argument ctx)
  | .builtin name args closure =>
    .expression (.builtin name args closure) fun ctx => do
      let (receiver, method) ← builtinReceiver name
      let call := Ruby.Node.invoke (some receiver) method (← values (readings args) ctx)
      match closureReading closure with
      | none => return call
      | some block => return call.withBlock (← block ctx)
  | .compare op lhs rhs =>
    .expression (.compare op lhs rhs) fun ctx => do
      return compareNode op (← (reading lhs).value ctx) (← (reading rhs).value ctx)
  | .binary op lhs rhs =>
    .expression (.binary op lhs rhs) fun ctx => do
      return binaryNode op (← (reading lhs).value ctx) (← (reading rhs).value ctx)
  | .unary op operand =>
    .expression (.unary op operand) fun ctx => do
      return unaryNode op (← (reading operand).value ctx)
  | .ternary condition thenValue elseValue =>
    .expression (.ternary condition thenValue elseValue) fun ctx => do
      return .ternary (← (reading condition).value ctx) (← (reading thenValue).value ctx)
        (← (reading elseValue).value ctx)
  | .isType type operand =>
    .expression (.isType type operand) fun ctx => do
      return typeTest type (← (reading operand).value ctx)
  | .propagate source target operand =>
    .expression (.propagate source target operand) fun ctx => do
      return conversion source target (← (reading operand).value ctx)
  | .reference target =>
    .expression (.reference target) fun _ => invalid (.looseReference target.name.name)
  | .returnExpr params value =>
    .expression (.returnExpr params value) fun ctx =>
      lambda <$> valueLiteral params (reading value) ctx
  | .term name args =>
    .expression (.term name args) fun ctx => termNode ctx name <$> values (readings args) ctx
  | .block (.mk info body) => blockReading (.block (.mk info body)) info (readings body)
  | .ifElse condition thenBody elseBody =>
    .solid (.ifElse condition thenBody elseBody)
      (conditional (reading condition) (optionReading thenBody) (optionReading elseBody))
  | .loop kind condition body =>
    .solid (.loop kind condition body) (loop kind (reading condition) (reading body))
  | .breakLoop => .solid .breakLoop breakNode
  | .continueLoop => .solid .continueLoop fun _ => .ok (.next none)
  | .ret value => .solid (.ret value) (returnStatement (optionReading value))
  | .switch condition cases default =>
    .solid (.switch condition cases default)
      (switch (reading condition) (caseReadings cases) (defaultReading default))
  | .funDef name params (.mk info body) =>
    .solid (.funDef name params (.mk info body)) (functionDef name params info (readings body))
  | .importModule name => .solid (.importModule name) fun _ => .ok (importNode name)
  | .includeFile name skip =>
    .statementOnly (.includeFile name skip) fun _ => .ok (includeNode name skip)
  | .textdomain name => .solid (.textdomain name) fun _ => .ok (textdomainNode name)
  | .typedef => .statementOnly .typedef fun _ => .ok none
  | .filename name => .statementOnly (.filename name) fun _ => .ok none

def readings : List Node → List Reading
  | [] => []
  | node :: rest => reading node :: readings rest

def optionReading : Option Node → Option Reading
  | none => none
  | some node => some (reading node)

def entryReadings : List (Node × Node) → List (Reading × Reading)
  | [] => []
  | (key, value) :: rest => (reading key, reading value) :: entryReadings rest

def closureReading : Option Closure → Option (Context → Generated Ruby.Node)
  | none => none
  | some (.block (.mk info body)) => some (blockLiteral info (readings body))
  | some (.value params value) => some (valueLiteral params (reading value))

def caseReadings : List (Node × Block) → List (Reading × BlockInfo × List Reading)
  | [] => []
  | (value, .mk info body) :: rest =>
    (reading value, info, readings body) :: caseReadings rest

def defaultReading : Option Block → Option (BlockInfo × List Reading)
  | none => none
  | some (.mk info body) => some (info, readings body)

end

theorem readings_eq_map (nodes : List Node) : readings nodes = nodes.map reading := by
  induction nodes with
  | nil => simp [readings]
  | cons node rest ih => simp [readings, ih]

theorem optionReading_eq_map (node : Option Node) : optionReading node = node.map reading := by
  cases node <;> simp [optionReading]

theorem entryReadings_eq_map (entries : List (Node × Node)) :
    entryReadings entries = entries.map fun entry => (reading entry.1, reading entry.2) := by
  induction entries with
  | nil => simp [entryReadings]
  | cons entry rest ih => simp [entryReadings, ih]

/-- A reading keeps the node that it reads. -/
theorem node_reading (node : Node) : (reading node).node = node := by
  unfold reading
  split <;> simp

end YcpToRuby.Generate
