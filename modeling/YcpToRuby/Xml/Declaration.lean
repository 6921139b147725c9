import YcpToRuby.Xml.Tag

/-!
# Instructions and the declaration of a document

An instruction has a name of its own, which is not `xml` in any case of letters. The declaration
looks like an instruction named `xml`; it gives the version, and it may give the encoding and
whether the document stands alone.
-/

set_option autoImplicit false

namespace YcpToRuby.Xml

def isInstruction (content : List Char) : Bool :=
  let name := content.takeWhile fun c => !isBlank c
  isName name && name.map Char.toLower != "xml".toList

def isVersion : List Char → Bool
  | '1' :: '.' :: minor => !minor.isEmpty && minor.all Char.isDigit
  | _ => false

def isEncoding : List Char → Bool
  | [] => false
  | c :: rest =>
    c.isAlpha && rest.all fun c => c.isAlphanum || c == '.' || c == '_' || c == '-'

def isAnswer (text : List Char) : Bool :=
  text == "yes".toList || text == "no".toList

def standsAlone : List (String × List Char) → Bool
  | [] => true
  | [("standalone", answer)] => isAnswer answer
  | _ => false

def isDeclaration (content : List Char) : Bool :=
  match RawTag.read? content with
  | none => false
  | some tag =>
    tag.name == "xml".toList && !tag.isEmpty &&
    match tag.attrs.map fun (name, value) => (String.ofList name, value) with
    | ("version", version) :: ("encoding", encoding) :: rest =>
      isVersion version && isEncoding encoding && standsAlone rest
    | ("version", version) :: rest => isVersion version && standsAlone rest
    | _ => false

end YcpToRuby.Xml
