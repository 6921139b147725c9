import YcpToRuby.Text.Path
import YcpToRuby.Xml.Reference
import YcpToRuby.Xml.Tag

/-!
# Names with namespaces

A name may carry a label before a colon, and the label stands for a namespace that an attribute
around it declares. Two attributes of one tag must differ as written and also with their labels
replaced by namespaces. The labels `xml` and `xmlns` and their namespaces belong together, and only
attributes carry them.
-/

set_option autoImplicit false

namespace YcpToRuby.Xml

structure QName where
  label : Option String
  base : String
  deriving DecidableEq, Repr

def QName.read? (text : List Char) : Option QName :=
  match Text.divideAt (· == ':') text with
  | [base] => if isName base then some ⟨none, String.ofList base⟩ else none
  | [label, base] =>
    if isName label && isName base then some ⟨some (String.ofList label), String.ofList base⟩
    else none
  | _ => none

def standardNamespace (steps : List String) : String :=
  "/".intercalate (["http:", "", "www.w3.org"] ++ steps)

def xmlNamespace : String := standardNamespace ["XML", "1998", "namespace"]

def declaringNamespace : String := standardNamespace ["2000", "xmlns", ""]

abbrev Bindings := List (Option String × String)

/-- The label that an attribute declares: that of `xmlns:label="…"`, and none for the default
namespace, which the local part `xmlns` declares under any other label. -/
def QName.declares? : QName → Option (Option String)
  | ⟨some "xmlns", label⟩ => some (some label)
  | ⟨_, "xmlns"⟩ => some none
  | _ => none

def isBinding : Option String × String → Bool
  | (none, ns) => ns != xmlNamespace && ns != declaringNamespace
  | (some "xml", ns) => ns == xmlNamespace
  | (some "xmlns", _) => false
  | (some _, ns) => ns != "" && ns != xmlNamespace && ns != declaringNamespace

def Bindings.ofAttribute? (bindings : Bindings) : Option String → Option (Option String)
  | none => some none
  | some label => (bindings.lookup (some label)).map some

def Bindings.admits (bindings : Bindings) : Option String → Bool
  | none => true
  | some label =>
    label != "xml" && label != "xmlns" && (bindings.lookup (some label)).isSome

def initialBindings : Bindings := [(some "xml", xmlNamespace)]

structure StartTag where
  name : List Char
  kind : String
  attrs : List (String × String)
  bindings : Bindings
  isEmpty : Bool
  deriving DecidableEq, Repr

def RawTag.attributes? (tag : RawTag) : Option (List (QName × String)) :=
  tag.attrs.mapM fun (name, value) => do
    return (← QName.read? name, ← attributeValue? value)

def RawTag.resolve? (tag : RawTag) (around : Bindings) : Option StartTag := do
  let name ← QName.read? tag.name
  let attrs ← tag.attributes?
  let declared := attrs.filterMap fun (name, value) =>
    name.declares?.map fun label => (label, value)
  let plain := attrs.filter fun (name, _) => name.declares?.isNone
  let bindings : Bindings := declared ++ around
  let expanded ← plain.mapM fun (name, _) => do
    return (← bindings.ofAttribute? name.label, name.base)
  if (attrs.map Prod.fst).Nodup ∧ expanded.Nodup ∧ declared.all isBinding ∧
      bindings.admits name.label then
    some {
      name := tag.name
      kind := name.base
      attrs := plain.map fun (name, value) => (name.base, value)
      bindings
      isEmpty := tag.isEmpty }
  else none

end YcpToRuby.Xml
