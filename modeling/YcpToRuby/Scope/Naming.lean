import YcpToRuby.Ruby.Reserved
import YcpToRuby.Text.Uppercase

/-!
# Ruby names for declared names

A name declared several times gets a number: the least one, from the number of its declarations
upwards, that gives no declared name. Among as many candidates as there are declared names and one
more, there always is such a number, so the search is bounded. A local of Ruby may not be a
reserved word or start with a capital; those names, and names that start with an underscore, get
an underscore in front.
-/

set_option autoImplicit false

namespace YcpToRuby.Scope

def freshNumber (name : String) (declared : List String) : Nat → Nat → Nat
  | 0, n => n
  | candidates + 1, n =>
    if declared.contains (name ++ toString n) then freshNumber name declared candidates (n + 1)
    else n

def suffixed (name : String) (declared : List String) : String :=
  let count := declared.count name
  if count ≤ 1 then name
  else name ++ toString (freshNumber name declared declared.length count)

def needsEscape (name : String) : Bool :=
  Ruby.isReserved name ||
    match name.toList with
    | c :: _ => Text.isUppercase c || c == '_'
    | [] => false

def escape (name : String) : String :=
  if needsEscape name then "_" ++ name else name

end YcpToRuby.Scope
