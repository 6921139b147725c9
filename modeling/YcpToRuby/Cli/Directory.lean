import YcpToRuby.Cli.Files
import YcpToRuby.Text.Path

/-!
# A working directory in memory

Files are kept by their locations: the steps that lead from the working directory to them. A
location that starts with `..` lies above the working directory, and one that starts with `/` is
counted from the root. A directory is there as soon as something lies in it.
-/

set_option autoImplicit false

namespace YcpToRuby.Cli

abbrev Location := List String

def parent (location : Location) : Location :=
  if location = ["/"] then location
  else if location.all (· == "..") then location ++ [".."]
  else location.dropLast

structure Directory where
  files : List (Location × String) := []
  deriving DecidableEq, Repr

inductive Target where
  | directory
  | name (location : Location) (slash : Bool)
  deriving DecidableEq, Repr

namespace Directory

def isDirectory (directory : Directory) (location : Location) : Bool :=
  directory.files.any fun (file, _) => location.isPrefixOf file && file != location

def get? (directory : Directory) (location : Location) : Option String :=
  directory.files.lookup location

def put (directory : Directory) (location : Location) (text : String) : Directory :=
  { files := (location, text) :: directory.files.filter fun (file, _) => file != location }

def walk (directory : Directory) (location : Location) : List String → Except FileError Target
  | [] => .ok .directory
  | step :: rest =>
    if step = "" ∨ step = "." then walk directory location rest
    else if step = ".." then walk directory (parent location) rest
    else
      let here := location ++ [step]
      if directory.isDirectory here then walk directory here rest
      else if rest.all (· == "") then .ok (.name here (!rest.isEmpty))
      else if (directory.get? here).isSome then .error .notDirectory
      else .error .notFound

def target (directory : Directory) (path : String) : Except FileError Target :=
  match (Text.divideAt (· == '/') path.toList).map String.ofList with
  | [""] => .error .notFound
  | "" :: steps => directory.walk ["/"] steps
  | steps => directory.walk [] steps

def read (directory : Directory) (path : String) : Except FileError String := do
  match ← directory.target path with
  | .directory => .error .isDirectory
  | .name location slash =>
    match directory.get? location with
    | none => .error .notFound
    | some text => if slash then .error .notDirectory else .ok text

def write (directory : Directory) (path text : String) : Except FileError Directory := do
  match ← directory.target path with
  | .directory => .error .isDirectory
  | .name location slash =>
    if slash then .error .isDirectory else .ok (directory.put location text)

def ofFiles (files : List (String × String)) : Directory :=
  { files := files.map fun (path, text) => (Text.pathSteps path, text) }

end Directory

def memoryFiles (input : String) : Files (StateM Directory) where
  read path := do return (← get).read path
  readInput := pure (.ok input)
  write path text := do
    match (← get).write path text with
    | .ok directory =>
      set directory
      return .ok ()
    | .error cause => return .error cause

end YcpToRuby.Cli
