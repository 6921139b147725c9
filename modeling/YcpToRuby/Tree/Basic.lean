/-!
# Attributed trees

A node has a kind, attributes and children. Attributes are texts under distinct names, in the
order in which the names first appeared; setting a name again replaces its text.
-/

set_option autoImplicit false

namespace YcpToRuby

structure Attributes where
  entries : List (String × String) := []
  nodup : (entries.map Prod.fst).Nodup := by simp

namespace Attributes

def empty : Attributes := {}

def isEmpty (attrs : Attributes) : Bool :=
  attrs.entries.isEmpty

def get? (attrs : Attributes) (name : String) : Option String :=
  attrs.entries.lookup name

def replaceIn (name text : String) (entries : List (String × String)) : List (String × String) :=
  entries.map fun entry => if entry.1 = name then (name, text) else entry

theorem map_fst_replaceIn (name text : String) (entries : List (String × String)) :
    (replaceIn name text entries).map Prod.fst = entries.map Prod.fst := by
  rw [replaceIn, List.map_map]
  refine List.map_congr_left fun entry _ => ?_
  by_cases h : entry.1 = name <;> simp [h]

def set (attrs : Attributes) (name text : String) : Attributes :=
  if h : name ∈ attrs.entries.map Prod.fst then
    ⟨replaceIn name text attrs.entries, by rw [map_fst_replaceIn]; exact attrs.nodup⟩
  else
    ⟨attrs.entries ++ [(name, text)], by
      rw [List.map_append, List.nodup_append]
      refine ⟨attrs.nodup, by simp, ?_⟩
      intro a ha b hb hab
      have hb' : b = name := by simpa using hb
      exact h (hb' ▸ hab ▸ ha)⟩

def ofList (entries : List (String × String)) : Attributes :=
  entries.foldl (fun attrs entry => attrs.set entry.1 entry.2) empty

end Attributes

inductive Tree where
  | node (kind : String) (attrs : Attributes) (children : List Tree)

namespace Tree

def kind : Tree → String
  | node kind _ _ => kind

def attrs : Tree → Attributes
  | node _ attrs _ => attrs

def children : Tree → List Tree
  | node _ _ children => children

def get? (tree : Tree) (name : String) : Option String :=
  tree.attrs.get? name

end Tree

end YcpToRuby
