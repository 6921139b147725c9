import YcpToRuby.Cli.Run

/-!
# The program
-/

set_option autoImplicit false

namespace YcpToRuby.Cli

def systemNumber (code : UInt32) : Nat :=
  if code.toNat < 0x80000000 then code.toNat else 0x100000000 - code.toNat

def fileError : IO.Error → FileError
  | .noFileOrDirectory .. => .notFound
  | .permissionDenied .. => .notPermitted
  | .inappropriateType file code text =>
    if systemNumber code = 20 then .notDirectory
    else if systemNumber code = 21 then .isDirectory
    else .other (toString (IO.Error.inappropriateType file code text))
  | error => .other (toString error)

def ofBytes (bytes : ByteArray) : Except FileError String :=
  match String.fromUTF8? bytes with
  | some text => .ok text
  | none => .error .notText

partial def readAll (stream : IO.FS.Stream) (read : ByteArray) : IO ByteArray := do
  let bytes ← stream.read 65536
  if bytes.isEmpty then return read else readAll stream (read ++ bytes)

def systemFiles : Files IO where
  read path := do
    try return ofBytes (← IO.FS.readBinFile path)
    catch error => return .error (fileError error)
  readInput := do
    try return ofBytes (← readAll (← IO.getStdin) ByteArray.empty)
    catch error => return .error (fileError error)
  write path text := do
    try return .ok (← IO.FS.writeFile path text)
    catch error => return .error (fileError error)

end YcpToRuby.Cli

def main (arguments : List String) : IO UInt32 := do
  let outcome ← YcpToRuby.Cli.run YcpToRuby.Cli.systemFiles arguments
  IO.print outcome.stdout
  IO.eprint outcome.stderr
  return outcome.status.toUInt32
