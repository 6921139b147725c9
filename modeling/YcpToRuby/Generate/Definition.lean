import YcpToRuby.Generate.Invocation
import YcpToRuby.Text.Blank

/-!
# Function definitions and directives
-/

set_option autoImplicit false

namespace YcpToRuby.Generate

open Ruby (Node)
open Scope (Context)
open Ycp (BlockInfo Symbol)

def immutableTypes : List String := ["boolean", "integer", "symbol"]

/-- Values are copied on a call in YCP and shared in Ruby, so a parameter that could be changed in
place is copied. -/
def needsCopy (param : Symbol) : Bool :=
  let type := Text.trim param.type
  let bare := (Text.dropHead? "const ".toList type.toList).map String.ofList
  !param.isReference && !immutableTypes.contains (Text.trim (bare.getD type))

def copyParam (name : String) : Option Node :=
  some (.assign (.var name) (.invoke none "deep_copy" [.var name]))

def functionDef (name : String) (params : List Symbol) (info : BlockInfo) (body : List Reading)
    (ctx : Context) : Generated Node := do
  if ctx.inFunction then unsupported (.nestedFunction name)
  else if info.kind ≠ .function then invalid (.functionBody name)
  else
    let inner := ctx.inside (.function name params info)
    let copies := (params.filter needsCopy).map fun param => copyParam (inner.localName param.name)
    return .methodDef name (localNames inner params)
      (.sequence (copies ++ (← statements body inner)))

def importNode (name : String) : Node :=
  .command (some (.constant "Yast")) "import" [.string name]

def rubyFile (name : String) : String :=
  match Text.dropTail? ".ycp".toList name.toList with
  | some base => String.ofList base ++ ".rb"
  | none => name

def includeNode (name : String) (skip : Bool) : Option Node :=
  if skip then none
  else some (.command (some (.constant "Yast")) "include" [.self, .string (rubyFile name)])

def textdomainNode (name : String) : Node :=
  .command none "textdomain" [.string name]

end YcpToRuby.Generate
