/-!
# Access to files

The operations on files that a run of the program needs, in any monad, and why they can fail.
-/

set_option autoImplicit false

namespace YcpToRuby.Cli

inductive FileError where
  | notFound
  | notDirectory
  | isDirectory
  | notPermitted
  | notText
  | other (text : String)
  deriving DecidableEq, Repr

def FileError.message : FileError → String
  | notFound => "No such file or directory (os error 2)"
  | notDirectory => "Not a directory (os error 20)"
  | isDirectory => "Is a directory (os error 21)"
  | notPermitted => "Permission denied (os error 13)"
  | notText => "stream did not contain valid UTF-8"
  | other text => text

structure Files (m : Type → Type) where
  read : String → m (Except FileError String)
  readInput : m (Except FileError String)
  write : String → String → m (Except FileError Unit)

end YcpToRuby.Cli
