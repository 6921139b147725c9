import YcpToRuby.Proofs.Ycp.Encode

/-!
# Where qualified names come from

A tree can write a qualified name in two ways. Spelled as one name with the separator in it, the
name is divided, and a name that does not divide into two proper parts is refused. Given by two
attributes, it is taken as it is. So the qualified names of a decoded program are proper, except for
those that the tree gives, and whatever the tree gives is accepted.
-/

set_option autoImplicit false

namespace YcpToRuby

theorem Tree.within_node_iff {d : Tree} {kind : String} {attrs : Attributes}
    {children : List Tree} :
    d.Within (.node kind attrs children) ↔
      d = .node kind attrs children ∨ ∃ child ∈ children, d.Within child := by
  constructor
  · intro h
    cases h with
    | self => exact Or.inl rfl
    | child hchild h => exact Or.inr ⟨_, hchild, h⟩
  · rintro (rfl | ⟨child, hchild, h⟩)
    · exact .self
    · exact .child hchild h

def Tree.Gives (tree : Tree) (ns name : String) : Prop :=
  tree.get? "ns" = some ns ∧ ns ≠ "" ∧ tree.get? "name" = some name

def Tree.Spells (tree : Tree) (ns name : String) : Prop :=
  (tree.get? "ns").getD "" = "" ∧ tree.get? "name" = some (ns ++ "::" ++ name)

namespace Ycp

def IsProper (ns name : String) : Prop :=
  ns ≠ "" ∧ name ≠ "" ∧ ¬ [':', ':'] <:+: ns.toList ∧ ¬ [':', ':'] <:+: name.toList

instance (ns name : String) : Decidable (IsProper ns name) :=
  inferInstanceAs (Decidable (_ ∧ _ ∧ _ ∧ _))

section Names

variable {ns : String} {name : QualifiedName}

theorem isProper_of_splitName {text : String} (h : splitName text = .ok name)
    (hns : name.ns = some ns) : text = ns ++ "::" ++ name.name ∧ IsProper ns name.name := by
  unfold splitName at h
  split at h
  · obtain rfl := Except.ok.inj h
    cases hns
  · rename_i before after hcut
    split at h
    · cases h
    · rename_i hparts
      obtain rfl := Except.ok.inj h
      obtain rfl := Option.some.inj hns
      obtain ⟨htext, hbefore⟩ := Text.of_cutFirst_eq_some hcut
      simp only [Bool.or_eq_true, List.isEmpty_iff, Option.isSome_iff_ne_none, not_or,
        not_not] at hparts
      obtain ⟨⟨hns, hname⟩, hafter⟩ := hparts
      have hlast := (Text.cutFirst_eq_none_iff after).mp hafter
      refine ⟨String.toList_inj.mp (by simp [htext]), by simpa using hns, by simpa using hname, ?_⟩
      simpa using ⟨hbefore, hlast⟩

theorem gives_or_spells {tree : Tree} (h : qualifiedName tree.kind tree.attrs = .ok name)
    (hns : name.ns = some ns) :
    tree.Gives ns name.name ∨ tree.Spells ns name.name ∧ IsProper ns name.name := by
  simp only [qualifiedName, requiredAttribute, bind_eq_ok] at h
  obtain ⟨text, htext, h⟩ := h
  have hname : tree.get? "name" = some text := by
    unfold Tree.get?
    split at htext
    · rename_i found
      exact found.trans (congrArg some (Except.ok.inj htext))
    · cases htext
  split at h
  · rename_i given hgiven
    split at h
    · rename_i hempty
      obtain ⟨rfl, hproper⟩ := isProper_of_splitName h hns
      refine Or.inr ⟨⟨?_, hname⟩, hproper⟩
      simpa [Tree.get?, hgiven] using hempty
    · rename_i hne
      obtain rfl := Except.ok.inj h
      obtain rfl := Option.some.inj hns
      exact Or.inl ⟨hgiven, by simpa using hne, hname⟩
  · rename_i hnone
    obtain ⟨rfl, hproper⟩ := isProper_of_splitName h hns
    exact Or.inr ⟨⟨by simp [Tree.get?, hnone], hname⟩, hproper⟩

end Names

/-- Each qualified name of a decoded program is written in the tree, and it is proper if it is
spelled there. If all that the tree gives is proper, so are all of them. -/
theorem qualified_names_written {tree : Tree} {n : Node} (h : decode tree = .ok n) :
    (∀ m path, Occurs m path n → ∀ name ∈ m.names, ∀ ns, name.ns = some ns →
      ∃ d : Tree, d.Within tree ∧
        (d.Gives ns name.name ∨ d.Spells ns name.name ∧ IsProper ns name.name)) ∧
    ((∀ d : Tree, d.Within tree → ∀ ns name, d.Gives ns name → IsProper ns name) →
      ∀ m path, Occurs m path n → ∀ name ∈ m.names, ∀ ns, name.ns = some ns →
        IsProper ns name.name) := by
  have hwritten : ∀ m path, Occurs m path n → ∀ name ∈ m.names, ∀ ns, name.ns = some ns →
      ∃ d : Tree, d.Within tree ∧
        (d.Gives ns name.name ∨ d.Spells ns name.name ∧ IsProper ns name.name) := by
    intro m path hm name hname ns hns
    obtain ⟨e, he, hdecode⟩ := hm.exists_decode h
    obtain ⟨d, hd, hqualified⟩ := (comesFrom_of_decode hdecode).names name hname
    exact ⟨d, hd.trans he, gives_or_spells hqualified hns⟩
  refine ⟨hwritten, fun hgiven m path hm name hname ns hns => ?_⟩
  obtain ⟨d, hd, hgives | ⟨-, hproper⟩⟩ := hwritten m path hm name hname ns hns
  · exact hgiven d hd ns name.name hgives
  · exact hproper

def qualifiedCall : Tree :=
  .node "call" (.ofList [("name", "M::f"), ("category", "function")])
    [.node "variable" (.ofList [("ns", "N"), ("name", "x")]) [],
      .node "yereference" .empty [.node "entry" (.ofList [("name", "K::y")]) []]]

theorem qualifiedCall_names_proper :
    ∃ n, decode qualifiedCall = .ok n ∧ n.names = [⟨some "M", "f"⟩] ∧
      ∀ m path, Occurs m path n → ∀ name ∈ m.names, ∀ ns, name.ns = some ns →
        IsProper ns name.name := by
  have hdecode : decode qualifiedCall = .ok (.call ⟨some "M", "f"⟩ .function none
      [.var ⟨⟨some "N", "x"⟩, .var, none⟩, .reference ⟨⟨some "K", "y"⟩, .var, none⟩]) := by rfl
  refine ⟨_, hdecode, rfl, (qualified_names_written hdecode).2 ?_⟩
  intro d hd ns name hgives
  have hspelled : d.get? "ns" = none ∨ d.get? "ns" = some "N" ∧ d.get? "name" = some "x" := by
    simp only [qualifiedCall, Tree.within_node_iff, List.mem_cons, List.not_mem_nil, or_false,
      exists_eq_or_imp, exists_eq_left, false_and, exists_false] at hd
    rcases hd with rfl | rfl | rfl | rfl
    · exact Or.inl rfl
    · exact Or.inr ⟨rfl, rfl⟩
    · exact Or.inl rfl
    · exact Or.inl rfl
  obtain ⟨hns, -, hname⟩ := hgives
  rw [hns, hname] at hspelled
  obtain ⟨rfl, rfl⟩ : ns = "N" ∧ name = "x" := by simpa using hspelled
  decide

/-- A namespace that holds the separator, and a name that holds it or is empty, are accepted. -/
theorem given_names_improper :
    decode (.node "variable" (.ofList [("ns", "A::B"), ("name", "x")]) []) =
        .ok (.var ⟨⟨some "A::B", "x"⟩, .var, none⟩) ∧
      ¬ IsProper "A::B" "x" ∧
      decode (.node "variable" (.ofList [("ns", "A"), ("name", "b::c")]) []) =
        .ok (.var ⟨⟨some "A", "b::c"⟩, .var, none⟩) ∧
      ¬ IsProper "A" "b::c" ∧
      decode (.node "variable" (.ofList [("ns", "A"), ("name", "")]) []) =
        .ok (.var ⟨⟨some "A", ""⟩, .var, none⟩) ∧
      ¬ IsProper "A" "" :=
  ⟨rfl, by decide, rfl, by decide, rfl, by decide⟩

end Ycp

end YcpToRuby
