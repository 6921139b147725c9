import YcpToRuby.Json.Value

/-!
# Writing JSON

`compact` writes a value on one line. `pretty` puts each item and each field on a line of its own,
indented by two spaces for each level; an empty container stays closed.
-/

set_option autoImplicit false

namespace YcpToRuby.Json

def hexDigits (width : Nat) (n : Nat) : List Char :=
  let digits := Nat.toDigits 16 n
  List.replicate (width - digits.length) '0' ++ digits

def escapedChar (c : Char) : List Char :=
  match c with
  | '\x22' => ['\\', '\x22']
  | '\\' => ['\\', '\\']
  | '\x08' => ['\\', 'b']
  | '\x0c' => ['\\', 'f']
  | '\n' => ['\\', 'n']
  | '\r' => ['\\', 'r']
  | '\t' => ['\\', 't']
  | c => if c.toNat < 0x20 then ['\\', 'u'] ++ hexDigits 4 c.toNat else [c]

def quoted (text : String) : String :=
  String.ofList ('\x22' :: text.toList.flatMap escapedChar ++ ['\x22'])

def literal : Option String → String
  | some text => quoted text
  | none => "\x22\\ud800\x22"

def word (value : Bool) : String :=
  if value then "true" else "false"

mutual

def compact : Json → String
  | null => "null"
  | bool value => word value
  | number spelling => spelling
  | string text => literal text
  | array items => "[" ++ ",".intercalate (compactItems items) ++ "]"
  | object fields => "\x7b" ++ ",".intercalate (compactFields fields) ++ "\x7d"

def compactItems : List Json → List String
  | [] => []
  | item :: rest => compact item :: compactItems rest

def compactFields : List (Option String × Json) → List String
  | [] => []
  | (key, value) :: rest => (literal key ++ ":" ++ compact value) :: compactFields rest

end

def lineBreak (level : Nat) : String :=
  "\n" ++ String.ofList (List.replicate (2 * level) ' ')

def onLines (level : Nat) (opening closing : String) (parts : List String) : String :=
  if parts.isEmpty then opening ++ closing
  else
    opening ++ lineBreak (level + 1) ++ ("," ++ lineBreak (level + 1)).intercalate parts ++
      lineBreak level ++ closing

mutual

def prettyAt (level : Nat) : Json → String
  | null => "null"
  | bool value => word value
  | number spelling => spelling
  | string text => literal text
  | array items => onLines level "[" "]" (prettyItems (level + 1) items)
  | object fields => onLines level "\x7b" "\x7d" (prettyFields (level + 1) fields)

def prettyItems (level : Nat) : List Json → List String
  | [] => []
  | item :: rest => prettyAt level item :: prettyItems level rest

def prettyFields (level : Nat) : List (Option String × Json) → List String
  | [] => []
  | (key, value) :: rest =>
    (literal key ++ ": " ++ prettyAt level value) :: prettyFields level rest

end

def pretty (value : Json) : String :=
  prettyAt 0 value

end YcpToRuby.Json
