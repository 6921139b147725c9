/-!
# Reserved words of Ruby
-/

set_option autoImplicit false

namespace YcpToRuby.Ruby

def reservedWords : List String := [
  "BEGIN", "END", "__ENCODING__", "__END__", "__FILE__", "__LINE__", "alias", "and", "begin",
  "break", "case", "class", "def", "defined?", "do", "else", "elsif", "end", "ensure", "false",
  "for", "if", "in", "module", "next", "nil", "not", "or", "redo", "rescue", "retry", "return",
  "self", "super", "then", "true", "undef", "unless", "until", "when", "while", "yield"]

def isReserved (name : String) : Bool :=
  reservedWords.contains name

end YcpToRuby.Ruby
