import YcpToRuby.Proofs.Json.RoundTrip
import YcpToRuby.Proofs.Xml.Tag
import YcpToRuby.Tree.Format

/-!
# One tree, two formats

A tree is written in JSON as its object form, and in XML with one element for each node. Both texts
read back as the tree: the formats hold the same trees, as far as XML has names and characters for
them and JSON has room.
-/

set_option autoImplicit false

namespace YcpToRuby

/-! ## Attributes -/

namespace Attributes

theorem eq_of_entries_eq {attrs others : Attributes} (h : attrs.entries = others.entries) :
    attrs = others := by
  cases attrs
  cases others
  cases h
  rfl

theorem entries_foldl_set {attrs : Attributes} {entries : List (String × String)}
    (h : ((attrs.entries ++ entries).map Prod.fst).Nodup) :
    (entries.foldl (fun attrs entry => attrs.set entry.1 entry.2) attrs).entries =
      attrs.entries ++ entries := by
  induction entries generalizing attrs with
  | nil => simp
  | cons entry entries ih =>
    have hfresh : entry.1 ∉ attrs.entries.map Prod.fst := by
      rw [List.map_append, List.nodup_append] at h
      intro hmem
      exact h.2.2 _ hmem entry.1 (by simp) rfl
    have hset : (attrs.set entry.1 entry.2).entries = attrs.entries ++ [entry] := by
      rw [set, dif_neg hfresh]
    rw [List.foldl_cons, ih, hset, List.append_assoc, List.singleton_append]
    rwa [hset, List.append_assoc, List.singleton_append]

theorem ofList_entries (attrs : Attributes) : ofList attrs.entries = attrs :=
  eq_of_entries_eq (entries_foldl_set (by simpa [empty] using attrs.nodup))

end Attributes

/-! ## JSON -/

namespace Json

mutual

def depth : Json → Nat
  | array items => itemsDepth items + 1
  | object fields => fieldsDepth fields + 1
  | _ => 0

def itemsDepth : List Json → Nat
  | [] => 0
  | item :: rest => max item.depth (itemsDepth rest)

def fieldsDepth : List (Option String × Json) → Nat
  | [] => 0
  | (_, value) :: rest => max value.depth (fieldsDepth rest)

end

theorem depth_lt_of_mem_items {items : List Json} {item : Json} (h : item ∈ items) :
    item.depth < (array items).depth := by
  induction items with
  | nil => cases h
  | cons first rest ih =>
    simp only [depth, itemsDepth] at ih ⊢
    rcases List.mem_cons.mp h with rfl | h
    · omega
    · have := ih h
      omega

theorem depth_lt_of_mem_record {fields : List (String × Json)} {field : String × Json}
    (h : field ∈ fields) : field.2.depth < (record fields).depth := by
  simp only [record_eq_object]
  induction fields with
  | nil => cases h
  | cons first rest ih =>
    simp only [List.map_cons, depth, fieldsDepth] at ih ⊢
    rcases List.mem_cons.mp h with rfl | h
    · omega
    · have := ih h
      omega

end Json

namespace Tree

open Xml (Piece RawTag StartTag)

theorem induction {motive : Tree → Prop}
    (node : ∀ kind attrs children, (∀ child ∈ children, motive child) →
      motive (.node kind attrs children)) (tree : Tree) : motive tree :=
  match tree with
  | .node kind attrs children => node kind attrs children fun child _ => induction node child

theorem toJsons_eq_map (trees : List Tree) : toJsons trees = trees.map toJson := by
  induction trees with
  | nil => simp [toJsons]
  | cons tree trees ih => simp [toJsons, ih]

def attrsJson (attrs : Attributes) : Json :=
  .record (attrs.entries.map fun entry => (entry.1, .text entry.2))

def nodeFields (kind : String) (attrs : Attributes) (children : List Tree) :
    List (String × Json) :=
  [("kind", .text kind)] ++ (if attrs.isEmpty then [] else [("attrs", attrsJson attrs)]) ++
    if children.isEmpty then [] else [("children", .array (children.map toJson))]

theorem toJson_node (kind : String) (attrs : Attributes) (children : List Tree) :
    toJson (.node kind attrs children) = .record (nodeFields kind attrs children) := by
  rw [toJson, toJsons_eq_map]
  rfl

theorem isTextual_attrsJson (attrs : Attributes) : (attrsJson attrs).IsTextual := by
  refine .record fun field hfield => ?_
  obtain ⟨entry, -, rfl⟩ := List.mem_map.mp hfield
  exact .text _

theorem isTextual_toJson (tree : Tree) : tree.toJson.IsTextual := by
  induction tree using Tree.induction with
  | node kind attrs children ih =>
    rw [toJson_node]
    have hchildren : (Json.array (children.map toJson)).IsTextual :=
      .array (List.forall_mem_map.mpr ih)
    refine .record ?_
    simp only [nodeFields, List.forall_mem_append, List.forall_mem_singleton]
    refine ⟨⟨.text kind, ?_⟩, ?_⟩
    · split
      · simp
      · simpa using isTextual_attrsJson attrs
    · split
      · simp
      · simpa using hchildren

theorem attributesOfFields?_entries (entries : List (String × String)) :
    attributesOfFields? (entries.map fun entry => (some entry.1, .text entry.2)) =
      some entries := by
  induction entries with
  | nil => rfl
  | cons entry entries ih =>
    rw [List.map_cons, Json.text, attributesOfFields?, ih]
    rfl

theorem attributesOfJson?_attrsJson {room : Nat} {attrs : Attributes}
    (h : (attrsJson attrs).depth ≤ room) :
    attributesOfJson? room (attrsJson attrs) = some attrs := by
  have hroom : room ≠ 0 := by
    rintro rfl
    simp [attrsJson, Json.record, Json.depth] at h
  have hfields : attrsJson attrs =
      .object (attrs.entries.map fun entry => (some entry.1, .text entry.2)) := by
    simp [attrsJson, Json.record_eq_object, Function.comp_def]
  rw [hfields, attributesOfJson?, if_neg hroom, attributesOfFields?_entries, Option.map_some,
    Attributes.ofList_entries]

theorem treesOfJson?_map {room : Nat} {trees : List Tree}
    (h : ∀ tree ∈ trees, ofJson? room tree.toJson = some tree) :
    treesOfJson? room (trees.map toJson) = some trees := by
  induction trees with
  | nil => rw [List.map_nil, treesOfJson?]
  | cons tree trees ih =>
    obtain ⟨htree, htrees⟩ := List.forall_mem_cons.mp h
    rw [List.map_cons, treesOfJson?, htree, Option.bind_some, ih htrees, Option.map_some]

theorem childrenOfJson?_map {room : Nat} {children : List Tree}
    (ih : ∀ child ∈ children, ∀ room, child.toJson.depth ≤ room →
      ofJson? room child.toJson = some child)
    (h : (Json.array (children.map toJson)).depth ≤ room) :
    childrenOfJson? room (.array (children.map toJson)) = some children := by
  cases room with
  | zero => simp [Json.depth] at h
  | succ room =>
    rw [childrenOfJson?]
    refine treesOfJson?_map fun child hchild => ih child hchild room ?_
    have : child.toJson.depth < _ := Json.depth_lt_of_mem_items (List.mem_map_of_mem hchild)
    omega

section Fields

variable {room : Nat} {kind : String} {attrs : Attributes} {met : Option Attributes}
  {rest : List (Option String × Json)}

theorem ofFields?_nil {met : Fields} : ofFields? room met [] = met.tree? := by
  rw [ofFields?]

theorem ofFields?_kind :
    ofFields? room {} ((some "kind", .text kind) :: rest) =
      ofFields? room { kind := some kind } rest := by
  rw [Json.text, ofFields?, if_pos rfl]
  rfl

theorem ofFields?_attrs {value : Json} (h : attributesOfJson? room value = some attrs) :
    ofFields? room { kind := some kind } ((some "attrs", value) :: rest) =
      ofFields? room { kind := some kind, attrs := some attrs } rest := by
  rw [ofFields?, if_neg (by decide), if_pos rfl]
  · simp only [h]
  · simp

theorem ofFields?_children {value : Json} {children : List Tree}
    (h : childrenOfJson? room value = some children) :
    ofFields? room { kind := some kind, attrs := met } ((some "children", value) :: rest) =
      ofFields? room { kind := some kind, attrs := met, children := some children } rest := by
  rw [ofFields?, if_neg (by decide), if_neg (by decide), if_pos rfl]
  · simp only [h]
  · simp

end Fields

/-- The object form reads back where there is room for it. -/
theorem ofJson?_toJson (tree : Tree) :
    ∀ room, tree.toJson.depth ≤ room → ofJson? room tree.toJson = some tree := by
  induction tree using Tree.induction with
  | node kind attrs children ih =>
    intro room hroom
    rw [toJson_node] at hroom ⊢
    cases room with
    | zero => simp [Json.record, Json.depth] at hroom
    | succ room =>
      have hfield : ∀ field ∈ nodeFields kind attrs children, field.2.depth ≤ room := by
        intro field hfield
        have := Json.depth_lt_of_mem_record hfield
        omega
      have hattrs : attrs.isEmpty = false →
          attributesOfJson? room (attrsJson attrs) = some attrs := fun hsome =>
        attributesOfJson?_attrsJson
          (hfield ("attrs", attrsJson attrs) (by simp [nodeFields, hsome]))
      have hchildren : children.isEmpty = false →
          childrenOfJson? room (.array (children.map toJson)) = some children := fun hsome =>
        childrenOfJson?_map ih
          (hfield ("children", .array (children.map toJson)) (by simp [nodeFields, hsome]))
      rw [Json.record_eq_object, ofJson?, nodeFields]
      have hempty : attrs.isEmpty = true → attrs = .empty := fun hnone =>
        Attributes.eq_of_entries_eq (List.isEmpty_iff.mp hnone)
      cases hnoAttrs : attrs.isEmpty <;> cases hnoChildren : children.isEmpty
      · simp [ofFields?_kind, ofFields?_attrs (hattrs hnoAttrs),
          ofFields?_children (hchildren hnoChildren), ofFields?_nil, Fields.tree?]
      · simp [ofFields?_kind, ofFields?_attrs (hattrs hnoAttrs), ofFields?_nil, Fields.tree?,
          List.isEmpty_iff.mp hnoChildren]
      · simp [ofFields?_kind, ofFields?_children (hchildren hnoChildren), ofFields?_nil,
          Fields.tree?, hempty hnoAttrs]
      · simp [ofFields?_kind, ofFields?_nil, Fields.tree?, hempty hnoAttrs,
          List.isEmpty_iff.mp hnoChildren]

theorem ofJsonText?_toJsonText {tree : Tree} (h : tree.toJson.depth ≤ nestingLimit) :
    ofJsonText? tree.toJsonText = some tree := by
  rw [ofJsonText?, toJsonText, Json.parse?_compact tree.isTextual_toJson, Option.bind_some,
    ofJson?_toJson tree nestingLimit h]

/-! ## XML -/

mutual

def toXml (short : Bool) : Tree → List Char
  | node kind attrs children =>
    if short && children.isEmpty then '<' :: (Xml.tagText kind attrs.entries ++ ['/'] ++ ['>'])
    else
      '<' :: (Xml.tagText kind attrs.entries ++ ['>']) ++ toXmls short children ++
        '<' :: ('/' :: kind.toList ++ ['>'])

def toXmls (short : Bool) : List Tree → List Char
  | [] => []
  | tree :: rest => toXml short tree ++ toXmls short rest

end

def toXmlText (short : Bool) (tree : Tree) : String :=
  String.ofList (tree.toXml short)

/-- Kinds and names of attributes are names of XML that declare nothing, and the texts of
attributes hold characters of XML only. -/
inductive IsPortable : Tree → Prop
  | node {kind : String} {attrs : Attributes} {children : List Tree}
      (hkind : Xml.isName kind.toList = true) (hnames : Xml.PlainNames attrs.entries)
      (hvalues : ∀ entry ∈ attrs.entries, ∀ c ∈ entry.2.toList, Xml.isChar c = true)
      (hchildren : ∀ child ∈ children, IsPortable child) : IsPortable (.node kind attrs children)

/-! ### Pieces of an element -/

theorem exists_cons_of_isName {name : List Char} (h : Xml.isName name = true) :
    ∃ c rest, name = c :: rest ∧ Xml.isNameChar c = true := by
  cases name with
  | nil => cases h
  | cons c rest => exact ⟨c, rest, rfl, Xml.isNameChar_of_mem h c List.mem_cons_self⟩

theorem scans_startTag {kind : String} {attrs : List (String × String)}
    (hkind : Xml.isName kind.toList = true) (hnames : Xml.PlainNames attrs) {slash : List Char}
    (hslash : Xml.KeptInTag slash) :
    Xml.Scans ('<' :: (Xml.tagText kind attrs ++ slash ++ ['>']))
      [.text [], .tag (Xml.tagText kind attrs ++ slash)] := by
  obtain ⟨c, rest, hcons, hc⟩ := exists_cons_of_isName hkind
  have hrest : Xml.KeptInTag rest := by
    refine Xml.keptInTag_of_nameChars fun d hd => ?_
    exact Xml.isNameChar_of_mem hkind d (hcons ▸ List.mem_cons_of_mem c hd)
  have hattrs := Xml.keptInTag_attributes fun entry hentry => (hnames entry hentry).1
  have htext : Xml.tagText kind attrs ++ slash =
      c :: (rest ++ (attrs.flatMap Xml.attributeText ++ slash)) := by
    simp [Xml.tagText, hcons]
  rw [htext]
  refine Xml.scans_tag ⟨?_, ?_, ?_, ?_⟩ (hrest.append (hattrs.append hslash))
  all_goals exact Xml.isNameChar_ne hc (by decide)

theorem scans_endTag {kind : String} (hkind : Xml.isName kind.toList = true) :
    Xml.Scans ('<' :: ('/' :: kind.toList ++ ['>'])) [.text [], .tag ('/' :: kind.toList)] :=
  Xml.scans_tag (by decide) (Xml.keptInTag_name hkind)

/-! ### Documents -/

def Attaches (ps : List Piece) (tree : Tree) : Prop :=
  ∀ document : Document, (document.opened = [] → document.root = none) →
    ps.foldlM Document.step document = document.attach tree

theorem step_text_nil (document : Document) : document.step (.text []) = some document := by
  have htext : Xml.isText [] = true := rfl
  simp [Document.step, htext]

theorem step_tag {c : Char} (hc : c ≠ '/') (document : Document) (content : List Char) :
    document.step (.tag (c :: content)) = document.start (c :: content) := by
  rw [Document.step]
  rintro _ ⟨⟩
  exact hc rfl

def writtenTag (kind : String) (attrs : Attributes) (bindings : Xml.Bindings) (isEmpty : Bool) :
    StartTag :=
  ⟨kind.toList, kind, attrs.entries, bindings, isEmpty⟩

theorem step_writtenTag {kind : String} {attrs : Attributes}
    (hkind : Xml.isName kind.toList = true) (hnames : Xml.PlainNames attrs.entries)
    (document : Document) (isEmpty : Bool) :
    document.step (.tag (Xml.tagText kind attrs.entries ++ if isEmpty then ['/'] else [])) =
      if isEmpty then document.attach (.node kind attrs [])
      else if document.opened.isEmpty && document.root.isSome then none
      else some { document with
        opened := ⟨writtenTag kind attrs document.bindings isEmpty, []⟩ :: document.opened } := by
  obtain ⟨c, rest, hcons, hc⟩ := exists_cons_of_isName hkind
  have hslash : c ≠ '/' := Xml.isNameChar_ne hc (by decide)
  have hstart : document.step (.tag (Xml.tagText kind attrs.entries ++
      if isEmpty then ['/'] else [])) =
        document.start (Xml.tagText kind attrs.entries ++ if isEmpty then ['/'] else []) := by
    rw [Xml.tagText, hcons]
    exact step_tag hslash document _
  have hread := RawTag.read?_tagText hkind (fun entry hentry => (hnames entry hentry).1) isEmpty
  have hresolve := Xml.resolve?_written hkind hnames attrs.nodup document.bindings isEmpty
  have hclose : OpenElement.close ⟨writtenTag kind attrs document.bindings isEmpty, []⟩ =
      .node kind attrs [] := by
    simp [OpenElement.close, writtenTag, Attributes.ofList_entries]
  rw [hstart, Document.start, hread, Option.bind_eq_bind, Option.bind_some, hresolve,
    Option.bind_eq_bind, Option.bind_some, ← hclose]
  rfl

theorem dropTail_of_forall {p : Char → Bool} {cs : List Char} (h : ∀ c ∈ cs, p c = false) :
    Text.dropTail p cs = cs := by
  rw [Text.dropTail]
  cases hreverse : cs.reverse with
  | nil => simpa using hreverse.symm
  | cons c rest =>
    have hc : p c = false := h c (List.mem_reverse.mp (hreverse ▸ List.mem_cons_self))
    rw [List.dropWhile_cons_of_neg (by simp [hc]), ← hreverse, List.reverse_reverse]

theorem step_endTag {kind : String} {attrs : Attributes} (hkind : Xml.isName kind.toList = true)
    (bindings : Xml.Bindings) (children : List Tree) (opened : List OpenElement)
    (root : Option Tree) :
    Document.step ⟨⟨writtenTag kind attrs bindings false, children⟩ :: opened, root⟩
        (.tag ('/' :: kind.toList)) =
      Document.attach ⟨opened, root⟩ (.node kind attrs children.reverse) := by
  have hblank : Text.dropTail Xml.isBlank kind.toList = kind.toList :=
    dropTail_of_forall fun c hc => Xml.isBlank_of_isNameChar (Xml.isNameChar_of_mem hkind c hc)
  have hclose : OpenElement.close ⟨writtenTag kind attrs bindings false, children⟩ =
      .node kind attrs children.reverse := by
    simp [OpenElement.close, writtenTag, Attributes.ofList_entries]
  simp [Document.step, Document.finish, writtenTag, hblank, ← hclose]

def ReadsAs (text : List Char) (tree : Tree) : Prop :=
  ∃ content rest, Xml.Scans text (.text [] :: .tag content :: rest) ∧
    Attaches (.text [] :: .tag content :: rest) tree

theorem exists_pieces_children {short : Bool} {children : List Tree}
    (h : ∀ child ∈ children, ReadsAs (child.toXml short) child) :
    ∃ ps, Xml.Scans (toXmls short children) ps ∧ ∀ element opened root,
      ps.foldlM Document.step ⟨element :: opened, root⟩ =
        some ⟨{ element with children := children.reverse ++ element.children } :: opened,
          root⟩ := by
  induction children with
  | nil =>
    rw [toXmls]
    exact ⟨[], Xml.scans_nil, fun _ _ _ => rfl⟩
  | cons child children ih =>
    obtain ⟨⟨content, rest, hscans, hattaches⟩, hchildren⟩ := List.forall_mem_cons.mp h
    obtain ⟨ps, hscans', hpieces⟩ := ih hchildren
    rw [toXmls]
    refine ⟨_, hscans.append hscans', fun element opened root => ?_⟩
    rw [List.foldlM_append, hattaches _ (by simp)]
    have hpieces := hpieces { element with children := child :: element.children } opened root
    rw [List.reverse_cons, List.append_assoc]
    exact hpieces

theorem IsPortable.readsAs {tree : Tree} (h : IsPortable tree) (short : Bool) :
    ReadsAs (tree.toXml short) tree := by
  induction h with
  | @node kind attrs children hkind hnames _ _ ih =>
    rw [toXml]
    split
    · rename_i hshort
      obtain rfl : children = [] := by simpa using (Bool.and_eq_true_iff.mp hshort).2
      have hslash : Xml.KeptInTag ['/'] :=
        Xml.keptInTag_of_forall (List.forall_mem_singleton.mpr (by decide))
      refine ⟨_, _, scans_startTag hkind hnames hslash, ?_⟩
      intro document _
      rw [List.foldlM_cons, step_text_nil]
      have hstep := step_writtenTag hkind hnames document true
      simpa using hstep
    · obtain ⟨ps, hscans, hpieces⟩ := exists_pieces_children ih
      have hstart := scans_startTag hkind hnames Xml.keptInTag_nil
      rw [List.append_nil] at hstart
      refine ⟨Xml.tagText kind attrs.entries, ps ++ [Piece.text [], Piece.tag ('/' :: kind.toList)],
        (hstart.append hscans).append (scans_endTag hkind), ?_⟩
      intro document hdocument
      have hroom : ¬ (document.opened.isEmpty && document.root.isSome) = true := by
        intro hfull
        obtain ⟨hopened, hroot⟩ := Bool.and_eq_true_iff.mp hfull
        simp [hdocument (List.isEmpty_iff.mp hopened)] at hroot
      have hstep := step_writtenTag hkind hnames document false
      rw [if_neg Bool.false_ne_true, if_neg Bool.false_ne_true, if_neg hroom,
        List.append_nil] at hstep
      simp only [List.foldlM_cons, step_text_nil, hstep, List.foldlM_append, hpieces,
        step_endTag hkind, Option.bind_eq_bind, Option.bind_some, List.append_nil,
        List.reverse_reverse, List.foldlM_nil, Option.pure_def, Option.bind_fun_some]

/-! ### Texts -/

theorem toXmls_eq_flatMap (short : Bool) (trees : List Tree) :
    toXmls short trees = trees.flatMap (toXml short) := by
  induction trees with
  | nil => simp [toXmls]
  | cons tree trees ih => simp [toXmls, ih]

theorem isKeptChar_of_mem_toXml {tree : Tree} (h : IsPortable tree) (short : Bool) :
    ∀ c ∈ tree.toXml short, Xml.IsKeptChar c := by
  induction h with
  | @node kind attrs children hkind hnames hvalues _ ih =>
    have htag : ∀ c ∈ Xml.tagText kind attrs.entries, Xml.IsKeptChar c :=
      Xml.isKeptChar_of_mem_tagText hkind (fun entry hentry => (hnames entry hentry).1) hvalues
    have hname : ∀ c ∈ kind.toList, Xml.IsKeptChar c := fun c hc =>
      Xml.isKeptChar_of_isNameChar (Xml.isNameChar_of_mem hkind c hc)
    have hchildren : ∀ c ∈ toXmls short children, Xml.IsKeptChar c := by
      rw [toXmls_eq_flatMap]
      exact List.forall_mem_flatMap.mpr ih
    have hless : Xml.IsKeptChar '<' := by decide
    have hgreater : Xml.IsKeptChar '>' := by decide
    have hslash : Xml.IsKeptChar '/' := by decide
    rw [toXml]
    split
    · simp only [List.forall_mem_cons, List.forall_mem_append, List.not_mem_nil, false_imp_iff,
        implies_true, and_true]
      exact ⟨hless, ⟨htag, hslash⟩, hgreater⟩
    · simp only [List.forall_mem_cons, List.forall_mem_append, List.not_mem_nil, false_imp_iff,
        implies_true, and_true]
      exact ⟨⟨⟨hless, htag, hgreater⟩, hchildren⟩, hless, ⟨hslash, hname⟩, hgreater⟩

theorem unifyLineEnds_of_isKeptChar {cs : List Char} (h : ∀ c ∈ cs, Xml.IsKeptChar c) :
    Xml.unifyLineEnds cs = cs := by
  induction cs with
  | nil => rfl
  | cons c cs ih =>
    obtain ⟨hc, hcs⟩ := List.forall_mem_cons.mp h
    rw [Xml.unifyLineEnds, if_neg hc.2, ih hcs]
    rintro _ rfl
    exact absurd rfl hc.2

theorem dropMark_toXml (short : Bool) (tree : Tree) :
    Text.dropMark (tree.toXml short) = tree.toXml short := by
  have hless : ∃ rest, tree.toXml short = '<' :: rest := by
    obtain ⟨kind, attrs, children⟩ := tree
    rw [toXml]
    split
    · exact ⟨_, rfl⟩
    · exact ⟨_, rfl⟩
  obtain ⟨rest, hrest⟩ := hless
  rw [hrest]
  rfl

theorem ofXmlText?_toXmlText {tree : Tree} (h : IsPortable tree) (short : Bool) :
    ofXmlText? (tree.toXmlText short) = some tree := by
  have hplain := isKeptChar_of_mem_toXml h short
  have hchars : (tree.toXml short).all Xml.isChar = true :=
    List.all_eq_true.mpr fun c hc => (hplain c hc).1
  obtain ⟨content, rest, hscans, hattaches⟩ := h.readsAs short
  have hpieces : Piece.pieces? (tree.toXml short) =
      some (Piece.text [] :: Piece.tag content :: rest ++ [Piece.text []]) := hscans.pieces?
  have hfold : (Piece.text [] :: Piece.tag content :: rest ++ [Piece.text []]).foldlM
      Document.step {} =
      some { root := some tree } := by
    have hroot : Document.attach {} tree = some { root := some tree } := rfl
    rw [List.foldlM_append, hattaches {} fun _ => rfl, hroot]
    simp [step_text_nil]
  simp only [ofXmlText?, toXmlText, String.toList_ofList, dropMark_toXml, hchars, if_true,
    unifyLineEnds_of_isKeptChar hplain, hpieces, Option.bind_eq_bind, Option.bind_some]
  change Document.ofPieces? (Piece.text [] :: Piece.tag content :: rest ++ [Piece.text []]) =
    some tree
  rw [Document.ofPieces?, hfold]
  rfl

/-! ## Both formats -/

theorem isPortable_ycp {tree : Tree} (h : IsPortable tree) :
    IsPortable (.node "ycp" .empty [tree]) := by
  refine .node (by decide) ?_ ?_ ?_
  · simp [Xml.PlainNames, Attributes.empty]
  · simp [Attributes.empty]
  · simpa using h

theorem toXmlText_ycp (short : Bool) (tree : Tree) :
    (Tree.node "ycp" .empty [tree]).toXmlText short =
      "<ycp>" ++ tree.toXmlText short ++ "</ycp>" := by
  rw [toXmlText, toXml]
  simp [Xml.tagText, toXmls, toXmlText, Attributes.empty, ← String.toList_inj]

/-- Whatever the format, reading the written tree gives the tree; a document element of the kind
`ycp` around it changes nothing. -/
theorem readTree_written {tree : Tree} (h : IsPortable tree) (hroot : tree.kind ≠ "ycp")
    (hdepth : tree.toJson.depth ≤ 127) :
    Format.readTree .json tree.toJsonText = .ok tree ∧
      ∀ short, Format.readTree .xml (tree.toXmlText short) = .ok tree ∧
        Format.readTree .xml ("<ycp>" ++ tree.toXmlText short ++ "</ycp>") = .ok tree := by
  refine ⟨?_, fun short => ⟨?_, ?_⟩⟩
  · simp [Format.readTree, ofJsonText?_toJsonText hdepth]
  · simp [Format.readTree, ofXmlText?_toXmlText h short, Format.unwrap, hroot]
  · rw [← toXmlText_ycp]
    simp [Format.readTree, ofXmlText?_toXmlText (isPortable_ycp h) short, Format.unwrap, kind,
      children]

def awkwardTree : Tree :=
  .node "const" { entries := [("type", "string"), ("value", "<a & \"b\">\t\n\r\\\u00e9")] }
    [.node "loc" .empty []]

theorem awkwardTree_written :
    awkwardTree.IsPortable ∧ awkwardTree.kind ≠ "ycp" ∧ awkwardTree.toJson.depth ≤ 127 ∧
      Format.readTree .json awkwardTree.toJsonText = .ok awkwardTree ∧
      ∀ short, Format.readTree .xml (awkwardTree.toXmlText short) = .ok awkwardTree ∧
        Format.readTree .xml ("<ycp>" ++ awkwardTree.toXmlText short ++ "</ycp>") =
          .ok awkwardTree := by
  have hchild : IsPortable (.node "loc" .empty []) :=
    .node (by decide) (by simp [Xml.PlainNames, Attributes.empty]) (by simp [Attributes.empty])
      (by simp)
  have hvalues : ∀ entry ∈ [("type", "string"), ("value", "<a & \"b\">\t\n\r\\\u00e9")],
      entry.2.toList.all Xml.isChar = true := by
    decide
  have h : awkwardTree.IsPortable :=
    .node (by decide) (by unfold Xml.PlainNames; decide)
      (fun entry hentry => List.all_eq_true.mp (hvalues entry hentry)) (by simpa using hchild)
  have hroot : awkwardTree.kind ≠ "ycp" := by decide
  have hdepth : awkwardTree.toJson.depth ≤ 127 := by decide
  exact ⟨h, hroot, hdepth, readTree_written h hroot hdepth⟩

end Tree

end YcpToRuby
