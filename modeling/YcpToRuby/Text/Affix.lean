/-!
# Heads, tails and separators of a text

Names of YCP are divided by a double colon. `cutFirst` divides at the first one and `cutLast` at
the last one; a run of three colons holds two separators, and `cutLast` takes the right one.
-/

set_option autoImplicit false

namespace YcpToRuby.Text

def cutFirst : List Char → Option (List Char × List Char)
  | [] => none
  | ':' :: ':' :: rest => some ([], rest)
  | c :: rest => (cutFirst rest).map fun (before, after) => (c :: before, after)

def cutLast : List Char → Option (List Char × List Char)
  | [] => none
  | c :: rest =>
    match cutLast rest with
    | some (before, after) => some (c :: before, after)
    | none =>
      match c, rest with
      | ':', ':' :: after => some ([], after)
      | _, _ => none

def dropHead? (head : List Char) (cs : List Char) : Option (List Char) :=
  if head.isPrefixOf cs then some (cs.drop head.length) else none

def dropTail? (tail : List Char) (cs : List Char) : Option (List Char) :=
  if tail.isSuffixOf cs then some (cs.take (cs.length - tail.length)) else none

def dropMark : List Char → List Char
  | '\uFEFF' :: rest => rest
  | text => text

end YcpToRuby.Text
