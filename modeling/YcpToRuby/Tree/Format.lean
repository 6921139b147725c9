import YcpToRuby.Tree.Json
import YcpToRuby.Tree.Xml
import YcpToRuby.Ycp.Decode

/-!
# Formats of attributed trees

A tree is written in one of two formats, each known by a name and by file extensions. Reading a
text gives the tree, and decoding the tree gives the program.
-/

set_option autoImplicit false

namespace YcpToRuby

inductive ReadError where
  | illFormed
  | emptyDocument
  | severalRoots
  | malformed (cause : Ycp.Malformed)
  deriving DecidableEq, Repr

def ReadError.message : ReadError → String
  | illFormed => "parse error"
  | emptyDocument => "invalid input tree: empty <ycp> document"
  | severalRoots =>
    "invalid input tree: <ycp> document must contain exactly one top-level node"
  | malformed cause => "invalid input tree: " ++ cause.message

inductive Format where
  | xml
  | json
  deriving DecidableEq, Repr

namespace Format

def all : List Format := [xml, json]

def name : Format → String
  | xml => "xml"
  | json => "json"

def extensions : Format → List String
  | xml => ["xml"]
  | json => ["json"]

def ofName? (name : String) : Option Format :=
  all.find? fun format => format.name == name

def ofExtension? (extension : String) : Option Format :=
  all.find? fun format => format.extensions.contains extension

def unwrap (tree : Tree) : Except ReadError Tree :=
  if tree.kind = "ycp" then
    match tree.children with
    | [only] => .ok only
    | [] => .error .emptyDocument
    | _ => .error .severalRoots
  else .ok tree

def readTree (format : Format) (text : String) : Except ReadError Tree :=
  match format with
  | xml =>
    match Tree.ofXmlText? text with
    | some tree => unwrap tree
    | none => .error .illFormed
  | json =>
    match Tree.ofJsonText? text with
    | some tree => .ok tree
    | none => .error .illFormed

def readProgram (format : Format) (text : String) : Except ReadError Ycp.Node := do
  let tree ← format.readTree text
  (Ycp.decode tree).mapError ReadError.malformed

end Format

end YcpToRuby
