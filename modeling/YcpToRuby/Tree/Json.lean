import YcpToRuby.Json.Printer
import YcpToRuby.Json.Reader
import YcpToRuby.Tree.Basic

/-!
# Attributed trees in JSON

A node is an object with the fields `kind`, `attrs` and `children`, of which the last two may be
missing, or an array of these three in this order, of which the last ones may be missing. Other
fields of the object are skipped. Objects and arrays that make up the tree may be nested
`nestingLimit` deep.
-/

set_option autoImplicit false

namespace YcpToRuby.Tree

def nestingLimit : Nat := 127

def attributesOfFields? : List (Option String × Json) → Option (List (String × String))
  | [] => some []
  | (some name, .string (some text)) :: rest =>
    (attributesOfFields? rest).map ((name, text) :: ·)
  | _ => none

def attributesOfJson? (room : Nat) : Json → Option Attributes
  | .object fields =>
    if room = 0 then none else (attributesOfFields? fields).map Attributes.ofList
  | _ => none

structure Fields where
  kind : Option String := none
  attrs : Option Attributes := none
  children : Option (List Tree) := none

def Fields.tree? (fields : Fields) : Option Tree :=
  fields.kind.map fun kind =>
    .node kind (fields.attrs.getD .empty) (fields.children.getD [])

mutual

def ofJson? : Nat → Json → Option Tree
  | room + 1, .object fields => ofFields? room {} fields
  | room + 1, .array items => ofItems? room items
  | _, _ => none

def ofFields? (room : Nat) (met : Fields) : List (Option String × Json) → Option Tree
  | [] => met.tree?
  | (none, _) :: _ => none
  | (some name, value) :: rest =>
    if name = "kind" then
      match met.kind, value with
      | none, .string (some kind) => ofFields? room { met with kind := some kind } rest
      | _, _ => none
    else if name = "attrs" then
      match met.attrs, attributesOfJson? room value with
      | none, some attrs => ofFields? room { met with attrs := some attrs } rest
      | _, _ => none
    else if name = "children" then
      match met.children, childrenOfJson? room value with
      | none, some children => ofFields? room { met with children := some children } rest
      | _, _ => none
    else ofFields? room met rest

def ofItems? (room : Nat) : List Json → Option Tree
  | [.string (some kind)] => some (.node kind .empty [])
  | [.string (some kind), attrs] =>
    (attributesOfJson? room attrs).map fun attrs => .node kind attrs []
  | [.string (some kind), attrs, children] =>
    (attributesOfJson? room attrs).bind fun attrs =>
      (childrenOfJson? room children).map fun children => .node kind attrs children
  | _ => none

def childrenOfJson? : Nat → Json → Option (List Tree)
  | room + 1, .array items => treesOfJson? room items
  | _, _ => none

def treesOfJson? (room : Nat) : List Json → Option (List Tree)
  | [] => some []
  | item :: rest =>
    (ofJson? room item).bind fun tree => (treesOfJson? room rest).map (tree :: ·)

end

def ofJsonText? (text : String) : Option Tree :=
  (Json.parse? text).bind (ofJson? nestingLimit)

mutual

def toJson : Tree → Json
  | node kind attrs children =>
    .record ([("kind", .text kind)] ++
      (if attrs.isEmpty then []
        else [("attrs", .record (attrs.entries.map fun (name, text) => (name, .text text)))]) ++
      (if children.isEmpty then [] else [("children", .array (toJsons children))]))

def toJsons : List Tree → List Json
  | [] => []
  | tree :: rest => tree.toJson :: toJsons rest

end

def toJsonText (tree : Tree) : String :=
  tree.toJson.compact

end YcpToRuby.Tree
