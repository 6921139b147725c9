import YcpToRuby.Xml.Char

/-!
# Tags

The name of a tag and its attributes, as they are written.
-/

set_option autoImplicit false

namespace YcpToRuby.Xml

structure RawTag where
  name : List Char
  attrs : List (List Char × List Char) := []
  isEmpty : Bool := false
  deriving DecidableEq, Repr

namespace RawTag

inductive Place where
  | name (text : List Char)
  | gap
  | attrName (text : List Char)
  | equals (name : List Char)
  | quote (name : List Char)
  | value (name : List Char) (quote : Char) (text : List Char)
  | closed
  | slash
  deriving DecidableEq, Repr

structure Scan where
  place : Place := .name []
  tag : RawTag := { name := [] }
  deriving DecidableEq, Repr

def Scan.goTo (scan : Scan) (place : Place) : Option Scan :=
  some { scan with place }

def step (scan : Scan) (c : Char) : Option Scan :=
  match scan.place with
  | .name text =>
    let named := { scan with tag := { scan.tag with name := text.reverse } }
    if isBlank c then named.goTo .gap
    else if c = '/' then named.goTo .slash
    else scan.goTo (.name (c :: text))
  | .gap =>
    if isBlank c then some scan
    else if c = '/' then scan.goTo .slash
    else scan.goTo (.attrName [c])
  | .attrName text =>
    if isBlank c then scan.goTo (.equals text.reverse)
    else if c = '=' then scan.goTo (.quote text.reverse)
    else scan.goTo (.attrName (c :: text))
  | .equals name =>
    if isBlank c then some scan
    else if c = '=' then scan.goTo (.quote name)
    else none
  | .quote name =>
    if isBlank c then some scan
    else if c = '\x22' || c = '\'' then scan.goTo (.value name c [])
    else none
  | .value name quote text =>
    if c = quote then
      some {
        place := .closed
        tag := { scan.tag with attrs := (name, text.reverse) :: scan.tag.attrs } }
    else scan.goTo (.value name quote (c :: text))
  | .closed =>
    if isBlank c then scan.goTo .gap
    else if c = '/' then scan.goTo .slash
    else none
  | .slash => none

def read? (content : List Char) : Option RawTag := do
  let scan ← content.foldlM step {}
  let tag := { scan.tag with attrs := scan.tag.attrs.reverse }
  match scan.place with
  | .name text => some { tag with name := text.reverse }
  | .gap | .closed => some tag
  | .slash => some { tag with isEmpty := true }
  | _ => none

end RawTag

end YcpToRuby.Xml
