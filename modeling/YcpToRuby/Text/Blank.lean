/-!
# Blanks

The characters with the `White_Space` property of Unicode, and trimming by them.
-/

set_option autoImplicit false

namespace YcpToRuby.Text

def isBlank (c : Char) : Bool :=
  let n := c.toNat
  (0x9 ≤ n && n ≤ 0xD) || n == 0x20 || n == 0x85 || n == 0xA0 || n == 0x1680 ||
    (0x2000 ≤ n && n ≤ 0x200A) || n == 0x2028 || n == 0x2029 || n == 0x202F || n == 0x205F ||
    n == 0x3000

def dropTail (p : Char → Bool) (cs : List Char) : List Char :=
  (cs.reverse.dropWhile p).reverse

def trimEnd (s : String) : String :=
  String.ofList (dropTail isBlank s.toList)

def trim (s : String) : String :=
  String.ofList (dropTail isBlank (s.toList.dropWhile isBlank))

end YcpToRuby.Text
