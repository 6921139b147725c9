/-!
# Settings
-/

set_option autoImplicit false

namespace YcpToRuby

structure Settings where
  exportPrivate : Bool := false
  deriving DecidableEq, Repr

end YcpToRuby
