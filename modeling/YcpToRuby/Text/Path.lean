/-!
# Names in file paths

The last component of a path, and how a dot divides it. Empty components and single dots do not
count. A name that starts with its only dot has no extension.
-/

set_option autoImplicit false

namespace YcpToRuby.Text

def divideAt (p : Char → Bool) : List Char → List (List Char)
  | [] => [[]]
  | c :: rest =>
    if p c then [] :: divideAt p rest
    else
      match divideAt p rest with
      | first :: others => (c :: first) :: others
      | [] => [[c]]

def pathSteps (path : String) : List String :=
  ((divideAt (· == '/') path.toList).map String.ofList).filter fun step =>
    step != "" && step != "."

def fileName? (path : String) : Option String :=
  match (pathSteps path).getLast? with
  | some ".." => none
  | last => last

def cutLastDot : List Char → Option (List Char × List Char)
  | [] => none
  | c :: rest =>
    match cutLastDot rest with
    | some (before, after) => some (c :: before, after)
    | none => if c == '.' then some ([], rest) else none

def stemOfName (name : String) : String :=
  match cutLastDot name.toList with
  | none | some ([], _) => name
  | some (before, _) => String.ofList before

def extensionOfName? (name : String) : Option String :=
  match cutLastDot name.toList with
  | none | some ([], _) => none
  | some (_, after) => some (String.ofList after)

def fileStem? (path : String) : Option String :=
  (fileName? path).map stemOfName

def fileExtension? (path : String) : Option String :=
  (fileName? path).bind extensionOfName?

end YcpToRuby.Text
