import YcpToRuby.Json.Token

/-!
# Reading JSON

Tokens are assembled into a value by a machine whose stack holds the arrays and objects that are
still open, so that nesting is limited by nothing but the text.
-/

set_option autoImplicit false

namespace YcpToRuby.Json

inductive Open where
  | array (items : List Json)
  | object (fields : List (Option String × Json)) (key : Option String)

inductive Expected where
  | value
  | item
  | field
  | key
  | colon
  | separator
  | nothing (value : Json)

structure Assembly where
  stack : List Open := []
  expected : Expected := .value

namespace Assembly

def complete (value : Json) : List Open → Assembly
  | [] => ⟨[], .nothing value⟩
  | .array items :: stack => ⟨.array (value :: items) :: stack, .separator⟩
  | .object fields key :: stack => ⟨.object ((key, value) :: fields) none :: stack, .separator⟩

def begin? (stack : List Open) : Token → Option Assembly
  | .atom value => some (complete value stack)
  | .openBracket => some ⟨.array [] :: stack, .item⟩
  | .openBrace => some ⟨.object [] none :: stack, .field⟩
  | _ => none

def step : Assembly → Token → Option Assembly
  | ⟨stack, .value⟩, token => begin? stack token
  | ⟨.array items :: stack, .item⟩, .closeBracket => some (complete (.array items.reverse) stack)
  | ⟨stack, .item⟩, token => begin? stack token
  | ⟨.object fields _ :: stack, .field⟩, .closeBrace =>
    some (complete (.object fields.reverse) stack)
  | ⟨.object fields _ :: stack, .field⟩, .atom (.string key) =>
    some ⟨.object fields key :: stack, .colon⟩
  | ⟨.object fields _ :: stack, .key⟩, .atom (.string key) =>
    some ⟨.object fields key :: stack, .colon⟩
  | ⟨stack, .colon⟩, .colon => some ⟨stack, .value⟩
  | ⟨.array items :: stack, .separator⟩, .closeBracket =>
    some (complete (.array items.reverse) stack)
  | ⟨.array items :: stack, .separator⟩, .comma => some ⟨.array items :: stack, .value⟩
  | ⟨.object fields _ :: stack, .separator⟩, .closeBrace =>
    some (complete (.object fields.reverse) stack)
  | ⟨.object fields key :: stack, .separator⟩, .comma => some ⟨.object fields key :: stack, .key⟩
  | _, _ => none

def finish? : Assembly → Option Json
  | ⟨_, .nothing value⟩ => some value
  | _ => none

end Assembly

def parse? (text : String) : Option Json :=
  (tokens? text.toList).bind fun tokens =>
    (tokens.foldlM Assembly.step {}).bind Assembly.finish?

end YcpToRuby.Json
