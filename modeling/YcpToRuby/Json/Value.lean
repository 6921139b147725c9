/-!
# JSON values

Numbers keep their spelling and objects keep the order and the repetitions of their fields. The
grammar lets an escape name half of a surrogate pair; a string literal with such an escape has no
text, and is `string none`.
-/

set_option autoImplicit false

namespace YcpToRuby

inductive Json where
  | null
  | bool (value : Bool)
  | number (spelling : String)
  | string (text : Option String)
  | array (items : List Json)
  | object (fields : List (Option String × Json))
  deriving Repr

namespace Json

def text (s : String) : Json :=
  string (some s)

def record (fields : List (String × Json)) : Json :=
  object (fields.map fun (key, value) => (some key, value))

def texts (items : List String) : Json :=
  array (items.map text)

def ofOption {α : Type} (encode : α → Json) : Option α → Json
  | none => null
  | some value => encode value

def field? (key : String) : Json → Option Json
  | object fields => (fields.reverse.find? fun (name, _) => name == some key).map Prod.snd
  | _ => none

end Json

end YcpToRuby
