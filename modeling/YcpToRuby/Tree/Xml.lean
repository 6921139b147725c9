import YcpToRuby.Text.Affix
import YcpToRuby.Text.Blank
import YcpToRuby.Tree.Basic
import YcpToRuby.Xml.Declaration
import YcpToRuby.Xml.Piece
import YcpToRuby.Xml.Qualified

/-!
# Attributed trees in XML

The local name of an element is the kind, attributes by their local names are the attributes, and
the elements inside are the children. Everything else in the document has to be in order and is
left out. Of attributes with one local name the last counts.
-/

set_option autoImplicit false

namespace YcpToRuby.Tree

open Xml (Bindings Piece RawTag StartTag)

structure OpenElement where
  tag : StartTag
  children : List Tree := []

namespace OpenElement

def close (element : OpenElement) : Tree :=
  .node element.tag.kind (Attributes.ofList element.tag.attrs) element.children.reverse

end OpenElement

structure Document where
  opened : List OpenElement := []
  root : Option Tree := none

namespace Document

def bindings (document : Document) : Bindings :=
  match document.opened with
  | [] => Xml.initialBindings
  | element :: _ => element.tag.bindings

def attach (document : Document) (tree : Tree) : Option Document :=
  match document.opened, document.root with
  | parent :: rest, root =>
    some { opened := { parent with children := tree :: parent.children } :: rest, root }
  | [], none => some { document with root := some tree }
  | [], some _ => none

def start (document : Document) (content : List Char) : Option Document := do
  let raw ← RawTag.read? content
  let tag ← raw.resolve? document.bindings
  let element : OpenElement := { tag }
  if tag.isEmpty then document.attach element.close
  else if document.opened.isEmpty && document.root.isSome then none
  else some { document with opened := element :: document.opened }

def finish (document : Document) (content : List Char) : Option Document :=
  match document.opened with
  | [] => none
  | element :: rest =>
    if element.tag.name == Text.dropTail Xml.isBlank content then
      { document with opened := rest }.attach element.close
    else none

def step (document : Document) : Piece → Option Document
  | .text content =>
    if document.opened.isEmpty then if content.all Xml.isBlank then some document else none
    else if Xml.isText content then some document
    else none
  | .tag ('/' :: content) => document.finish content
  | .tag content => document.start content
  | .comment => some document
  | .characters => if document.opened.isEmpty then none else some document
  | .instruction content => if Xml.isInstruction content then some document else none

def ofPieces? (pieces : List Piece) : Option Tree := do
  let document ← pieces.foldlM step {}
  if document.opened.isEmpty then document.root else none

end Document

def withoutDeclaration : List Piece → List Piece
  | .text [] :: .instruction content :: rest =>
    if Xml.isDeclaration content then rest else .text [] :: .instruction content :: rest
  | pieces => pieces

def ofXmlText? (text : String) : Option Tree := do
  let document := Text.dropMark text.toList
  if document.all Xml.isChar then
    Document.ofPieces? (withoutDeclaration (← Piece.pieces? (Xml.unifyLineEnds document)))
  else none

end YcpToRuby.Tree
