/-!
# Pieces of a document

A document divides into tags, the text between them, and pieces that hold no elements. A tag ends
at the first `>` outside quotes. No other declaration starts with `<!` than a comment or a section
of plain characters.
-/

set_option autoImplicit false

namespace YcpToRuby.Xml

inductive Piece where
  | text (content : List Char)
  | tag (content : List Char)
  | comment
  | characters
  | instruction (content : List Char)
  deriving DecidableEq, Repr

namespace Piece

inductive Place where
  | text (content : List Char)
  | start
  | tag (quote : Option Char) (content : List Char)
  | declaration
  | opening (expected : List Char) (section_ : Bool)
  | comment (hyphens : Nat)
  | characters (brackets : Nat)
  | instruction (content : List Char)
  deriving DecidableEq, Repr

structure Scan where
  place : Place := .text []
  pieces : List Piece := []
  deriving DecidableEq, Repr

def Scan.goTo (scan : Scan) (place : Place) : Option Scan :=
  some { scan with place }

def Scan.finish (scan : Scan) (piece : Piece) : Option Scan :=
  some { place := .text [], pieces := piece :: scan.pieces }

def step (scan : Scan) (c : Char) : Option Scan :=
  match scan.place with
  | .text content =>
    if c = '<' then some { place := .start, pieces := .text content.reverse :: scan.pieces }
    else scan.goTo (.text (c :: content))
  | .start =>
    if c = '!' then scan.goTo .declaration
    else if c = '?' then scan.goTo (.instruction [])
    else if c = '<' || c = '>' then none
    else scan.goTo (.tag none [c])
  | .tag none content =>
    if c = '>' then scan.finish (.tag content.reverse)
    else if c = '<' then none
    else if c = '\x22' || c = '\'' then scan.goTo (.tag (some c) (c :: content))
    else scan.goTo (.tag none (c :: content))
  | .tag (some quote) content =>
    scan.goTo (.tag (if c = quote then none else some quote) (c :: content))
  | .declaration =>
    if c = '-' then scan.goTo (.opening ['-'] false)
    else if c = '[' then scan.goTo (.opening "CDATA[".toList true)
    else none
  | .opening expected section_ =>
    match expected with
    | [] => none
    | e :: rest =>
      if c = e then
        match rest with
        | [] => scan.goTo (if section_ then .characters 0 else .comment 0)
        | _ => scan.goTo (.opening rest section_)
      else none
  | .comment hyphens =>
    if hyphens = 2 then if c = '>' then scan.finish .comment else none
    else scan.goTo (.comment (if c = '-' then hyphens + 1 else 0))
  | .characters brackets =>
    if c = '>' && brackets = 2 then scan.finish .characters
    else scan.goTo (.characters (if c = ']' then min 2 (brackets + 1) else 0))
  | .instruction content =>
    if c = '>' && content.head? = some '?' then
      scan.finish (.instruction content.tail.reverse)
    else scan.goTo (.instruction (c :: content))

def pieces? (document : List Char) : Option (List Piece) := do
  let scan ← document.foldlM step {}
  match scan.place with
  | .text content => some (.text content.reverse :: scan.pieces).reverse
  | _ => none

end Piece

end YcpToRuby.Xml
