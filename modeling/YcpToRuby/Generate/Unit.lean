import YcpToRuby.Generate.Node
import YcpToRuby.Settings.Basic
import YcpToRuby.Text.Path

/-!
# Whole files

A module becomes a class with one instance, bound to a constant of the module's name. A client
becomes a class named after its file, whose `main` runs at once. In both classes the text domains
come first, then `main` with the loose statements, then the functions.
-/

set_option autoImplicit false

namespace YcpToRuby.Generate

open Scope (Context)
open Ycp (BlockInfo Symbol)

inductive Part where
  | textdomain (node : Ruby.Node)
  | function (node : Ruby.Node)
  | main (entries : List (Option Ruby.Node))

namespace Part

def textdomain? : Part → Option Ruby.Node
  | textdomain node => some node
  | _ => none

def function? : Part → Option Ruby.Node
  | function node => some node
  | _ => none

def mainEntries : Part → List (Option Ruby.Node)
  | main entries => entries
  | _ => []

end Part

def part (ctx : Context) : Ycp.Node → Generated Part
  | .textdomain name => .ok (.textdomain (textdomainNode name))
  | .funDef name params (.mk info body) =>
    .function <$> functionDef name params info (readings body) ctx
  | .typedef => .ok (.main [])
  | .filename _ => .ok (.main [])
  | node => do return .main (splice (← (reading node).statement ctx))

structure Sections where
  textdomains : List Ruby.Node
  main : List (Option Ruby.Node)
  functions : List Ruby.Node

def Sections.ofParts (parts : List Part) : Sections where
  textdomains := parts.filterMap Part.textdomain?
  main := parts.flatMap Part.mainEntries
  functions := parts.filterMap Part.function?

def sections (ctx : Context) (body : List Ycp.Node) : Generated Sections :=
  Sections.ofParts <$> body.mapM (part ctx)

def mainMethod (entries : List (Option Ruby.Node)) : Ruby.Node :=
  .methodDef "main" [] (.sequence entries)

/-! ## Modules -/

def publishedKind? : Ycp.SymbolCategory → Option String
  | .var => some "variable"
  | .function => some "function"
  | .reference | .filename => none

def publishCall (exportPrivate : Bool) (symbol : Symbol) : Option Ruby.Node :=
  if symbol.isGlobal || exportPrivate then
    (publishedKind? symbol.category).map fun kind =>
      .command none "publish" [.hash (
        [(.symbol kind, .symbol symbol.name), (.symbol "type", .string symbol.type)] ++
        if symbol.isGlobal then [] else [(.symbol "private", .literal (.bool true))])]
  else none

def moduleProgram (name : String) (info : BlockInfo) (exportPrivate : Bool)
    (sections : Sections) : Ruby.Node :=
  let className := name ++ "Class"
  let hasMain := sections.main.any Option.isSome
  let classBody :=
    [.command none "include" [.constant "Yast"], .command none "extend" [.constant "Exportable"]] ++
    sections.textdomains ++
    (if hasMain then [mainMethod sections.main] else []) ++
    sections.functions ++
    info.symbols.filterMap (publishCall exportPrivate)
  .program (.statements [
    .command none "require" [.string "yast"],
    .moduleDef "Yast" (.statements (
      [.classDef className none (.statements classBody),
        .assign (.constant name) (.command (some (.constant className)) "new" [])] ++
      if hasMain then [.command (some (.constant name)) "main" []] else []))])

def moduleUnit (info : BlockInfo) (body : List Ycp.Node) (ctx : Context) :
    Generated Ruby.Node :=
  match info.name with
  | none => invalid .namelessModule
  | some name =>
    moduleProgram name info ctx.exportPrivate <$> sections (ctx.inside (.block info)) body

/-! ## Clients -/

def joinWords (atStart : Bool) : List Char → List Char
  | [] => []
  | c :: rest =>
    if c.isAlphanum then (if atStart then c.toUpper else c) :: joinWords false rest
    else joinWords true rest

def clientClass (filename : String) : Generated String :=
  match joinWords true ((Text.fileStem? filename).getD "").toList with
  | [] => invalid (.className filename)
  | c :: rest =>
    if c.isAlpha then .ok (String.ofList (c :: rest) ++ "Client")
    else invalid (.className filename)

def isReturnNode : Ruby.Node → Bool
  | .ret _ => true
  | _ => false

def withResult (entries : List (Option Ruby.Node)) : List (Option Ruby.Node) :=
  match (entries.filterMap id).getLast? with
  | some last => if isReturnNode last then entries else entries ++ [some .nil]
  | none => entries ++ [some .nil]

def clientProgram (className : String) (sections : Sections) : Ruby.Node :=
  let classBody :=
    sections.textdomains ++ [mainMethod (withResult sections.main)] ++ sections.functions
  let instance_ := Ruby.Node.command
    (some (.const (some (.constant "Yast")) className)) "new" []
  .program (.statements [
    .moduleDef "Yast"
      (.statements [.classDef className (some (.constant "Client")) (.statements classBody)]),
    .command (some instance_) "main" []])

def clientUnit (info : BlockInfo) (body : List Ycp.Node) (ctx : Context) :
    Generated Ruby.Node :=
  match info.filename with
  | none => invalid .clientWithoutFile
  | some filename => do
    let className ← clientClass filename
    return clientProgram className (← sections (ctx.inside (.block info)) body)

/-! ## Any node -/

def unit (settings : Settings) (node : Ycp.Node) : Generated Ruby.Node :=
  let ctx : Context := { exportPrivate := settings.exportPrivate }
  let fragment : Generated Ruby.Node := do
    return ((← (reading node).statement ctx).getD (.sequence []))
  match node with
  | .block (.mk info body) =>
    match info.kind with
    | .module => moduleUnit info body ctx
    | .file => clientUnit info body ctx
    | _ => fragment
  | _ => fragment

end YcpToRuby.Generate
