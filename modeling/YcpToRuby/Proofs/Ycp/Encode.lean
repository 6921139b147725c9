import YcpToRuby.Proofs.Ycp.WellFormed

/-!
# Programs as attributed trees

The layout in which the front end writes a program. Each kind has its attributes and children, parts
of a kind that are found by name stand in a grouping node, and what is empty or absent is left out.
Decoding the tree of a well-formed program gives the program back.
-/

set_option autoImplicit false

namespace YcpToRuby

/-! ## Attributes that are set and read -/

namespace Attributes

def setOption (attrs : Attributes) (name : String) : Option String → Attributes
  | some text => attrs.set name text
  | none => attrs

theorem lookup_replaceIn_self {name : String} (text : String) {entries : List (String × String)}
    (h : name ∈ entries.map Prod.fst) : (replaceIn name text entries).lookup name = some text := by
  induction entries with
  | nil => simp at h
  | cons entry rest ih =>
    obtain ⟨first, value⟩ := entry
    by_cases hfirst : first = name
    · simp [replaceIn, hfirst]
    · have hne : (name == first) = false := by simpa using Ne.symm hfirst
      have hmem : name ∈ rest.map Prod.fst := by simpa [Ne.symm hfirst] using h
      simpa [replaceIn, hfirst, List.lookup_cons, hne] using ih hmem

theorem lookup_replaceIn_ne {name key : String} (text : String) (entries : List (String × String))
    (h : key ≠ name) : (replaceIn name text entries).lookup key = entries.lookup key := by
  induction entries with
  | nil => rfl
  | cons entry rest ih =>
    obtain ⟨first, value⟩ := entry
    have hne : (key == name) = false := by simpa using h
    by_cases hfirst : first = name
    · simpa [replaceIn, hfirst, List.lookup_cons, hne] using ih
    · cases hkey : key == first
      · simpa [replaceIn, hfirst, List.lookup_cons, hkey] using ih
      · simp [replaceIn, hfirst, List.lookup_cons, hkey]

@[simp] theorem get?_set (attrs : Attributes) (name text key : String) :
    (attrs.set name text).get? key = if key = name then some text else attrs.get? key := by
  unfold set get?
  split <;> rename_i hmem
  · by_cases hkey : key = name
    · subst hkey
      simpa using lookup_replaceIn_self text hmem
    · simpa [hkey] using lookup_replaceIn_ne text attrs.entries hkey
  · by_cases hkey : key = name
    · subst hkey
      have hnone : attrs.entries.lookup key = none := by
        rw [List.lookup_eq_none_iff]
        intro entry hentry
        have hne : key ≠ entry.1 := fun heq => hmem (heq ▸ List.mem_map_of_mem hentry)
        simpa using hne
      simp [List.lookup_append, hnone]
    · have hne : (key == name) = false := by simpa using hkey
      simp [List.lookup_append, hkey, List.lookup_cons, hne]

@[simp] theorem get?_empty (key : String) : empty.get? key = none := rfl

@[simp] theorem get?_setOption (attrs : Attributes) (name key : String) (text : Option String) :
    (attrs.setOption name text).get? key =
      if key = name then text.or (attrs.get? key) else attrs.get? key := by
  cases text <;> simp [setOption]

end Attributes

@[simp] theorem Tree.kind_node (kind : String) (attrs : Attributes) (children : List Tree) :
    (Tree.node kind attrs children).kind = kind := rfl

namespace Ycp

/-! ## The layout -/

def QualifiedName.attributes (name : QualifiedName) : Attributes :=
  (Attributes.empty.set "name" name.name).setOption "ns" name.ns

def Variable.encode (kind : String) (v : Variable) : Tree :=
  .node kind ((v.name.attributes.set "category" v.category.tag).setOption "type" v.type) []

def booleanText (value : Bool) : String :=
  if value then "true" else "false"

def Symbol.encode (symbol : Symbol) : Tree :=
  .node "symbol" ((((Attributes.empty.set "global" (booleanText symbol.isGlobal)).set
    "category" symbol.category.tag).set "type" symbol.type).set "name" symbol.name) []

def grouping (part : String) (inner : Tree) : Tree :=
  .node part .empty [inner]

@[simp] theorem kind_grouping (part : String) (inner : Tree) : (grouping part inner).kind = part :=
  rfl

def encodeSymbols (part : String) (symbols : List Symbol) : List Tree :=
  if symbols.isEmpty then [] else [.node part .empty (symbols.map Symbol.encode)]

def BlockInfo.attributes (info : BlockInfo) : Attributes :=
  ((Attributes.empty.set "kind" info.kind.tag).setOption "name" info.name).setOption "filename"
    info.filename

def BlockInfo.declarations (info : BlockInfo) : List Tree :=
  encodeSymbols "symbols" info.symbols ++ encodeSymbols "params" info.params

def encodeReturnExpr (params : List Symbol) (value : Tree) : Tree :=
  .node "yereturn" .empty (encodeSymbols "params" params ++ [value])

mutual

def Node.encode : Node → Tree
  | .const type value =>
    .node "const" ((Attributes.empty.set "type" type.tag).setOption "value" value) []
  | .locale text => .node "locale" (Attributes.empty.set "text" text) []
  | .list elements => .node "list" .empty (encodeAll elements)
  | .map entries => .node "map" .empty (encodeEntries entries)
  | .var target => target.encode "variable"
  | .assign target value => .node "assign" target.attributes [value.encode]
  | .bracket target index value =>
    .node "bracket" .empty [target.encode "entry", index.encode, value.encode]
  | .index value index fallback =>
    .node "yebracket" .empty [value.encode, index.encode, fallback.encode]
  | .call target category type args =>
    .node "call" ((target.attributes.set "category" category.tag).setOption "type" type)
      (encodeAll args)
  | .builtin name args closure =>
    .node "builtin" (Attributes.empty.set "name" name) (encodeAll args ++ encodeClosure closure)
  | .compare op lhs rhs =>
    .node "compare" (Attributes.empty.set "op" op.tag) [lhs.encode, rhs.encode]
  | .binary op lhs rhs =>
    .node "yebinary" (Attributes.empty.set "op" op.tag) [lhs.encode, rhs.encode]
  | .unary op operand => .node "yeunary" (Attributes.empty.set "op" op.tag) [operand.encode]
  | .ternary condition thenValue elseValue =>
    .node "yetriple" .empty [condition.encode, thenValue.encode, elseValue.encode]
  | .isType type operand => .node "yeis" (Attributes.empty.set "type" type) [operand.encode]
  | .propagate source target operand =>
    .node "yepropagate" ((Attributes.empty.set "from" source).set "to" target) [operand.encode]
  | .reference target => .node "yereference" .empty [target.encode "entry"]
  | .returnExpr params value => encodeReturnExpr params value.encode
  | .term name args => .node "yeterm" (Attributes.empty.set "name" name) (encodeAll args)
  | .block block => block.encode
  | .ifElse condition thenBody elseBody =>
    .node "if" .empty (grouping "cond" condition.encode ::
      (encodeOption "then" thenBody ++ encodeOption "else" elseBody))
  | .loop kind condition body =>
    .node kind.kind.tag .empty [grouping "cond" condition.encode, grouping "body" body.encode]
  | .breakLoop => .node "break" .empty []
  | .continueLoop => .node "continue" .empty []
  | .ret value => .node "return" .empty (encodeResult value)
  | .switch condition cases default =>
    .node "switch" .empty (grouping "cond" condition.encode ::
      (encodeCases cases ++ encodeDefault default))
  | .funDef name params body =>
    .node "fun_def" (Attributes.empty.set "name" name)
      (encodeSymbols "params" params ++ [body.encode])
  | .importModule name => .node "import" (Attributes.empty.set "name" name) []
  | .includeFile name skip =>
    .node "include" ((Attributes.empty.set "name" name).set "skip" (booleanText skip)) []
  | .textdomain name => .node "textdomain" (Attributes.empty.set "name" name) []
  | .typedef => .node "typedef" .empty []
  | .filename name => .node "filename" (Attributes.empty.set "name" name) []

def Block.encode : Block → Tree
  | .mk info body => .node "block" info.attributes (info.declarations ++ encodeAll body)

def encodeAll : List Node → List Tree
  | [] => []
  | node :: rest => node.encode :: encodeAll rest

def encodeResult : Option Node → List Tree
  | none => []
  | some node => [node.encode]

def encodeOption (part : String) : Option Node → List Tree
  | none => []
  | some node => [grouping part node.encode]

def encodeEntries : List (Node × Node) → List Tree
  | [] => []
  | (key, value) :: rest =>
    .node "element" .empty [grouping "key" key.encode, grouping "value" value.encode] ::
      encodeEntries rest

def encodeClosure : Option Closure → List Tree
  | none => []
  | some (.block block) => [grouping "callback" block.encode]
  | some (.value params value) => [grouping "callback" (encodeReturnExpr params value.encode)]

def encodeCases : List (Node × Block) → List Tree
  | [] => []
  | (value, body) :: rest =>
    .node "case" .empty [grouping "value" value.encode, body.encode] :: encodeCases rest

def encodeDefault : Option Block → List Tree
  | none => []
  | some body => [grouping "default" body.encode]

end

/-! ## Attributes that are read back -/

section Attributes

variable {kind : String} {attrs : Attributes}

theorem requiredAttribute_eq_ok {name text : String} (h : attrs.get? name = some text) :
    requiredAttribute kind attrs name = .ok text := by
  simp [requiredAttribute, h]

theorem taggedAttribute_eq_ok {α : Type} {all : List α} {tag : α → String} {name : String}
    {member : α} (h : attrs.get? name = some (tag member))
    (hfind : (all.find? fun other => tag other == tag member) = some member) :
    taggedAttribute kind attrs all tag name = .ok member := by
  simp [taggedAttribute, requiredAttribute_eq_ok h, hfind]

theorem booleanAttribute_eq_ok {name : String} {value : Bool}
    (h : attrs.get? name = some (booleanText value)) :
    booleanAttribute kind attrs name = .ok value := by
  cases value <;> simp [booleanAttribute, h, booleanText]

theorem qualifiedName_eq_ok {name : QualifiedName} (h : name.IsDivided)
    (hname : attrs.get? "name" = some name.name) (hns : attrs.get? "ns" = name.ns) :
    qualifiedName kind attrs = .ok name := by
  obtain ⟨ns, text⟩ := name
  simp only at hname hns
  cases ns with
  | some ns =>
    have hne : ns.isEmpty = false := by simpa [QualifiedName.IsDivided] using h
    simp [qualifiedName, requiredAttribute_eq_ok hname, hns, hne]
  | none =>
    have hcut : Text.cutFirst text.toList = none := (Text.cutFirst_eq_none_iff _).mpr h
    simp [qualifiedName, requiredAttribute_eq_ok hname, hns, splitName, hcut]

theorem decodeVariable_encode {v : Variable} (h : v.name.IsDivided)
    (hkind : kind = "variable" ∨ kind = "entry") : decodeVariable (v.encode kind) = .ok v := by
  have hguard : ¬ (kind ≠ "variable" ∧ kind ≠ "entry") := by
    rintro ⟨hvariable, hentry⟩
    exact hkind.elim hvariable hentry
  rw [Variable.encode, decodeVariable, if_neg hguard]
  generalize hattrs : (v.name.attributes.set "category" v.category.tag).setOption "type" v.type =
    attrs
  have hname : qualifiedName kind attrs = .ok v.name :=
    qualifiedName_eq_ok h (by simp [← hattrs, QualifiedName.attributes])
      (by simp [← hattrs, QualifiedName.attributes])
  have hcategory : attrs.get? "category" = some v.category.tag := by simp [← hattrs]
  have htag : taggedAttribute kind attrs Category.all Category.tag "category" = .ok v.category :=
    taggedAttribute_eq_ok hcategory (by cases v.category <;> rfl)
  have htype : attrs.get? "type" = v.type := by simp [← hattrs, QualifiedName.attributes]
  simp [hname, hcategory, htag, htype]

theorem decodeSymbol_encode (symbol : Symbol) : decodeSymbol symbol.encode = .ok symbol := by
  rw [Symbol.encode, decodeSymbol, if_neg (by simp)]
  generalize hattrs : (((Attributes.empty.set "global" (booleanText symbol.isGlobal)).set
    "category" symbol.category.tag).set "type" symbol.type).set "name" symbol.name = attrs
  have hglobal : booleanAttribute "symbol" attrs "global" = .ok symbol.isGlobal :=
    booleanAttribute_eq_ok (by simp [← hattrs])
  have hcategory : taggedAttribute "symbol" attrs SymbolCategory.all SymbolCategory.tag
      "category" = .ok symbol.category :=
    taggedAttribute_eq_ok (by simp [← hattrs]) (by cases symbol.category <;> rfl)
  have hname : requiredAttribute "symbol" attrs "name" = .ok symbol.name :=
    requiredAttribute_eq_ok (by simp [← hattrs])
  have htype : attrs.get? "type" = some symbol.type := by simp [← hattrs]
  simp [hglobal, hcategory, hname, htype]

theorem decodeSymbols_encode (symbols : List Symbol) :
    decodeSymbols (symbols.map Symbol.encode) = .ok symbols := by
  induction symbols with
  | nil => rfl
  | cons symbol rest ih => simp [decodeSymbols, decodeSymbol_encode, ih]

end Attributes

/-! ## Parts that are found by their kind -/

theorem kind_encode (n : Node) : n.encode.kind = n.kind.tag := by
  cases n with
  | block block => cases block; rfl
  | _ => rfl

theorem kind_encode_block (block : Block) : block.encode.kind = "block" := by
  cases block
  rfl

theorem encodeAll_eq_map (nodes : List Node) : encodeAll nodes = nodes.map Node.encode := by
  induction nodes with
  | nil => simp [encodeAll]
  | cons node rest ih => simp [encodeAll, ih]

def groupings : List String := ["symbols", "params", "value", "callback"]

theorem tag_not_mem_groupings (kind : Kind) : kind.tag ∉ groupings := by
  cases kind <;> decide

theorem kind_encode_ne (n : Node) {part : String} (hpart : part ∈ groupings) :
    n.encode.kind ≠ part := by
  rw [kind_encode]
  rintro rfl
  exact tag_not_mem_groupings n.kind hpart

theorem kind_ne_of_mem_encodeAll {nodes : List Node} {tree : Tree} (h : tree ∈ encodeAll nodes)
    {part : String} (hpart : part ∈ groupings) : tree.kind ≠ part := by
  rw [encodeAll_eq_map] at h
  obtain ⟨n, -, rfl⟩ := List.mem_map.mp h
  exact kind_encode_ne n hpart

theorem symbolsUnder_encodeSymbols {part : String} {symbols : List Symbol} {rest : List Tree}
    (hrest : ∀ tree ∈ rest, tree.kind ≠ part) :
    symbolsUnder part (encodeSymbols part symbols ++ rest) = .ok symbols := by
  unfold encodeSymbols
  split
  · rename_i hempty
    obtain rfl : symbols = [] := by simpa using hempty
    have hnone : (rest.find? fun child => child.kind == part) = none := by
      simpa using hrest
    simp [symbolsUnder, hnone]
  · simp [symbolsUnder, Tree.children, decodeSymbols_encode]

theorem symbolsUnder_append {part : String} {before rest : List Tree}
    (h : ∀ tree ∈ before, tree.kind ≠ part) :
    symbolsUnder part (before ++ rest) = symbolsUnder part rest := by
  have hnone : (before.find? fun child => child.kind == part) = none := by
    simpa using h
  simp [symbolsUnder, List.find?_append, hnone]

theorem kind_of_mem_encodeSymbols {part : String} {symbols : List Symbol} {tree : Tree}
    (h : tree ∈ encodeSymbols part symbols) : tree.kind = part := by
  unfold encodeSymbols at h
  split at h
  · simp at h
  · rw [List.mem_singleton.mp h]
    rfl

theorem decodeExcept_append_skipped {skipped : List String} {before rest : List Tree}
    (h : ∀ tree ∈ before, tree.kind ∈ skipped) :
    decodeExcept skipped (before ++ rest) = decodeExcept skipped rest := by
  induction before with
  | nil => rfl
  | cons tree others ih =>
    have htree : skipped.contains tree.kind = true := by
      simpa using h tree List.mem_cons_self
    rw [List.cons_append, decodeExcept, if_pos htree]
    exact ih fun other hother => h other (List.mem_cons_of_mem _ hother)

theorem decodeExcept_encodeAll {skipped : List String} {nodes : List Node}
    (hskipped : skipped ⊆ groupings) (h : ∀ n ∈ nodes, decode n.encode = .ok n) :
    decodeExcept skipped (encodeAll nodes) = .ok nodes := by
  induction nodes with
  | nil => simp [encodeAll, decodeExcept]
  | cons n rest ih =>
    have hkind : n.encode.kind ∉ skipped := fun hmem => kind_encode_ne n (hskipped hmem) rfl
    have hn := h n List.mem_cons_self
    have hrest := ih fun m hm => h m (List.mem_cons_of_mem _ hm)
    simp [encodeAll, decodeExcept, hkind, hn, hrest]

theorem decodePart_grouping {kind part : String} {n : Node} {rest : List Tree}
    (h : decode n.encode = .ok n) :
    decodePart kind part (grouping part n.encode :: rest) = .ok n := by
  simp [grouping, decodePart, decodeOnly, h]

theorem decodePart_other {kind part other : String} {inner : Tree} {rest : List Tree}
    (h : other ≠ part) :
    decodePart kind part (grouping other inner :: rest) = decodePart kind part rest := by
  simp [grouping, decodePart, h]

theorem decodeEntries_encode {entries : List (Node × Node)}
    (h : ∀ entry ∈ entries, decode entry.1.encode = .ok entry.1 ∧
      decode entry.2.encode = .ok entry.2) :
    decodeEntries (encodeEntries entries) = .ok entries := by
  induction entries with
  | nil => simp [encodeEntries, decodeEntries]
  | cons entry rest ih =>
    obtain ⟨key, value⟩ := entry
    obtain ⟨hkey, hvalue⟩ := h _ List.mem_cons_self
    have hrest := ih fun entry hentry => h entry (List.mem_cons_of_mem _ hentry)
    simp [encodeEntries, decodeEntries, decodePart_grouping hkey, decodePart_other,
      decodePart_grouping hvalue, hrest]

/-! ## Blocks, closures and clauses -/

theorem blockOf_encode (info : BlockInfo) (body : List Node)
    (h : ∀ s ∈ body, decode s.encode = .ok s) :
    blockOf "block" info.attributes (info.declarations ++ encodeAll body)
      (decodeExcept declarations (info.declarations ++ encodeAll body)) = .ok (.mk info body) := by
  have hkind : taggedAttribute "block" info.attributes BlockKind.all BlockKind.tag "kind" =
      .ok info.kind :=
    taggedAttribute_eq_ok (by simp [BlockInfo.attributes]) (by cases info.kind <;> rfl)
  have hbody : decodeExcept declarations (info.declarations ++ encodeAll body) = .ok body := by
    rw [decodeExcept_append_skipped, decodeExcept_encodeAll (by decide) h]
    intro tree htree
    rcases List.mem_append.mp htree with htree | htree
    · rw [kind_of_mem_encodeSymbols htree]
      decide
    · rw [kind_of_mem_encodeSymbols htree]
      decide
  have hparams : symbolsUnder "params" (info.declarations ++ encodeAll body) = .ok info.params := by
    rw [BlockInfo.declarations, List.append_assoc, symbolsUnder_append]
    · exact symbolsUnder_encodeSymbols fun tree htree =>
        kind_ne_of_mem_encodeAll htree (by decide)
    · intro tree htree
      rw [kind_of_mem_encodeSymbols htree]
      decide
  have hsymbols : symbolsUnder "symbols" (info.declarations ++ encodeAll body) =
      .ok info.symbols := by
    rw [BlockInfo.declarations, List.append_assoc]
    apply symbolsUnder_encodeSymbols
    intro tree htree
    rcases List.mem_append.mp htree with htree | htree
    · rw [kind_of_mem_encodeSymbols htree]
      decide
    · exact kind_ne_of_mem_encodeAll htree (by decide)
  have hname : info.attributes.get? "name" = info.name := by simp [BlockInfo.attributes]
  have hfilename : info.attributes.get? "filename" = info.filename := by
    simp [BlockInfo.attributes]
  simp [blockOf, hkind, hbody, hparams, hsymbols, hname, hfilename]

theorem decode_encode_block {block : Block} (h : ∀ s ∈ block.statements, decode s.encode = .ok s) :
    decode block.encode = .ok (.block block) := by
  obtain ⟨info, body⟩ := block
  show Node.block <$> blockOf "block" info.attributes (info.declarations ++ encodeAll body)
    (decodeExcept declarations (info.declarations ++ encodeAll body)) = _
  rw [blockOf_encode info body h]
  rfl

theorem decode_encodeReturnExpr (params : List Symbol) {value : Node}
    (h : decode value.encode = .ok value) :
    decode (encodeReturnExpr params value.encode) = .ok (.returnExpr params value) := by
  have hkind : value.encode.kind ≠ "params" := kind_encode_ne value (by decide)
  have hparams : symbolsUnder "params" (encodeSymbols "params" params ++ [value.encode]) =
      .ok params :=
    symbolsUnder_encodeSymbols (by simpa using hkind)
  rw [encodeReturnExpr, decode.eq_def]
  simp only [show Kind.ofTag? "yereturn" = some .returnExpr from rfl, hparams]
  unfold encodeSymbols
  split <;> simp [hkind, h, decodeFirstExcept]

theorem decodeClosure_encode {closure : Closure}
    (hkind : ∀ block, closure = .block block → block.info.kind = .unspec)
    (h : ∀ part ∈ closure.parts, decode part.2.encode = .ok part.2) :
    ∃ tree, encodeClosure (some closure) = [tree] ∧ tree.kind = "callback" ∧
      decodeClosure tree = .ok closure := by
  cases closure with
  | block block =>
    have hblock := decode_encode_block (List.forall_mem_map.mp h)
    refine ⟨grouping "callback" block.encode, by simp [encodeClosure], rfl, ?_⟩
    simp [grouping, decodeClosure, decodeOnly, hblock, closureOf, hkind block rfl]
  | value params value =>
    have hvalue := decode_encodeReturnExpr params (h _ (List.mem_singleton.mpr rfl))
    refine ⟨grouping "callback" (encodeReturnExpr params value.encode), by simp [encodeClosure],
      rfl, ?_⟩
    simp [grouping, decodeClosure, decodeOnly, hvalue, closureOf]

theorem decodeArguments_encode {kind : String} {attrs : Attributes} {args : List Node}
    {closure : Option Closure} (hargs : ∀ n ∈ args, decode n.encode = .ok n)
    (hkind : ∀ block, closure = some (.block block) → block.info.kind = .unspec)
    (hclosure : ∀ c ∈ closure, ∀ part ∈ c.parts, decode part.2.encode = .ok part.2) :
    decodeArguments kind attrs false (encodeAll args ++ encodeClosure closure) =
      .ok (args, closure) := by
  induction args with
  | nil =>
    cases closure with
    | none => simp [encodeAll, encodeClosure, decodeArguments]
    | some closure =>
      obtain ⟨tree, htree, hcallback, hdecode⟩ :=
        decodeClosure_encode (fun block hblock => hkind block (hblock ▸ rfl)) (hclosure closure rfl)
      simp [encodeAll, htree, decodeArguments, hcallback, hdecode]
  | cons arg rest ih =>
    have harg := hargs arg List.mem_cons_self
    have hrest := ih fun n hn => hargs n (List.mem_cons_of_mem _ hn)
    have hcallback : arg.encode.kind ≠ "callback" := kind_encode_ne arg (by decide)
    simp [encodeAll, decodeArguments, hcallback, harg, hrest]

theorem decodeClauses_cond (met : Bool) (condition : Tree) (rest : List Tree) :
    decodeClauses met (grouping "cond" condition :: rest) = decodeClauses met rest := by
  simp [grouping, decodeClauses]

theorem decodeClauses_encodeDefault {default : Option Block}
    (hkind : ∀ block ∈ default, block.info.kind = .stmt)
    (h : ∀ block ∈ default, ∀ s ∈ block.statements, decode s.encode = .ok s) :
    decodeClauses false (encodeDefault default) = .ok ([], default) := by
  cases default with
  | none => simp [encodeDefault, decodeClauses]
  | some block =>
    have hblock := decode_encode_block (h block rfl)
    simp [encodeDefault, grouping, decodeClauses, decodeExcept, hblock, clauseBlock,
      hkind block rfl]

theorem decodeClauses_encode {cases : List (Node × Block)} {default : Option Block}
    (hvalues : ∀ c ∈ cases, decode c.1.encode = .ok c.1)
    (hkinds : ∀ c ∈ cases, c.2.info.kind = .stmt)
    (hbodies : ∀ c ∈ cases, ∀ s ∈ c.2.statements, decode s.encode = .ok s)
    (hdefault : decodeClauses false (encodeDefault default) = .ok ([], default)) :
    decodeClauses false (encodeCases cases ++ encodeDefault default) = .ok (cases, default) := by
  induction cases with
  | nil => simpa [encodeCases] using hdefault
  | cons c rest ih =>
    obtain ⟨value, block⟩ := c
    have hvalue := hvalues _ List.mem_cons_self
    have hblock := decode_encode_block (hbodies _ List.mem_cons_self)
    have hkind := hkinds _ List.mem_cons_self
    have hrest := ih (fun c hc => hvalues c (List.mem_cons_of_mem _ hc))
      (fun c hc => hkinds c (List.mem_cons_of_mem _ hc))
      (fun c hc => hbodies c (List.mem_cons_of_mem _ hc))
    simp [encodeCases, decodeClauses, decodePart_grouping hvalue, decodeExcept, kind_encode_block,
      hblock, clauseBlock, hkind, hrest]

/-! ## Every program -/

theorem decodeConstant_encode {type : ConstType} {value : Option String}
    (h : (Node.const type value).IsSound) :
    decodeConstant "const" ((Attributes.empty.set "type" type.tag).setOption "value" value) =
      .ok (.const type value) := by
  generalize hattrs : (Attributes.empty.set "type" type.tag).setOption "value" value = attrs
  have htype : taggedAttribute "const" attrs ConstType.all ConstType.tag "type" = .ok type :=
    taggedAttribute_eq_ok (by simp [← hattrs]) (by cases type <;> rfl)
  have hvalue : attrs.get? "value" = value := by simp [← hattrs]
  by_cases hvoid : type = .void
  · subst hvoid
    simp [decodeConstant, htype, hvalue]
  · obtain ⟨text, rfl⟩ := Option.isSome_iff_exists.mp (h hvoid)
    cases type <;> simp_all [decodeConstant]

theorem decodePart?_encode (thenBody elseBody : Option Node) (condition : Tree)
    (hthen : ∀ s ∈ thenBody, decode s.encode = .ok s)
    (helse : ∀ s ∈ elseBody, decode s.encode = .ok s) :
    let children := grouping "cond" condition ::
      (encodeOption "then" thenBody ++ encodeOption "else" elseBody)
    decodePart? "then" children = .ok thenBody ∧ decodePart? "else" children = .ok elseBody := by
  cases thenBody with
  | none =>
    cases elseBody with
    | none => simp [encodeOption, grouping, decodePart?]
    | some e => simp [encodeOption, grouping, decodePart?, decodeOnly, helse e rfl]
  | some t =>
    cases elseBody with
    | none => simp [encodeOption, grouping, decodePart?, decodeOnly, hthen t rfl]
    | some e =>
      simp [encodeOption, grouping, decodePart?, decodeOnly, hthen t rfl, helse e rfl]

theorem Kind.ofTag?_tag (kind : Kind) : Kind.ofTag? kind.tag = some kind := by
  cases kind <;> rfl

theorem decodeBody_encode (kind : String) (params : List Symbol) (info : BlockInfo)
    (body : List Node) (h : ∀ s ∈ body, decode s.encode = .ok s) :
    decodeBody kind (encodeSymbols "params" params ++ [(Block.mk info body).encode]) =
      .ok (.mk info body) := by
  have hblock := blockOf_encode info body h
  unfold encodeSymbols
  split <;> simpa [decodeBody, Block.encode] using hblock

/-- If the parts of a node decode to themselves, so does the node. -/
theorem decode_encode_of_parts {n : Node} (hn : n.IsSound)
    (h : ∀ part ∈ n.parts, decode part.2.encode = .ok part.2) : decode n.encode = .ok n := by
  cases n <;> simp only [Node.parts, List.forall_mem_cons, List.forall_mem_map,
    List.forall_mem_append, List.forall_mem_flatMap, List.not_mem_nil] at h
  case const type value => exact decodeConstant_encode hn
  case locale | breakLoop | continueLoop | importModule | textdomain | typedef | filename => rfl
  case includeFile name skip =>
    have hskip : booleanAttribute "include"
        ((Attributes.empty.set "name" name).set "skip" (booleanText skip)) "skip" = .ok skip :=
      booleanAttribute_eq_ok (by simp)
    simp [Node.encode, decode, show Kind.ofTag? "include" = some .includeFile from rfl, hskip,
      requiredAttribute]
  case list elements =>
    show Node.list <$> decodeExcept [] (encodeAll elements) = _
    rw [decodeExcept_encodeAll (by decide) h]
    rfl
  case map entries =>
    show Node.map <$> decodeEntries (encodeEntries entries) = _
    rw [decodeEntries_encode (by simpa using h)]
    rfl
  case var target =>
    show Node.var <$> decodeVariable (target.encode "variable") = _
    rw [decodeVariable_encode hn (Or.inl rfl)]
    rfl
  case assign target value =>
    have hname : qualifiedName "assign" target.attributes = .ok target :=
      qualifiedName_eq_ok hn (by simp [QualifiedName.attributes])
        (by simp [QualifiedName.attributes])
    simp [Node.encode, decode, show Kind.ofTag? "assign" = some .assign from rfl, hname, h]
  case bracket target key value =>
    have htarget : decodeVariable (target.encode "entry") = .ok target :=
      decodeVariable_encode hn (Or.inr rfl)
    simp [Node.encode, decode, show Kind.ofTag? "bracket" = some .bracket from rfl, htarget, h]
  case index value key fallback =>
    simp [Node.encode, decode, show Kind.ofTag? "yebracket" = some .index from rfl, h]
  case call target category type args =>
    rw [Node.encode, decode.eq_def]
    generalize hattrs : (target.attributes.set "category" category.tag).setOption "type" type =
      attrs
    have hname : qualifiedName "call" attrs = .ok target :=
      qualifiedName_eq_ok hn (by simp [← hattrs, QualifiedName.attributes])
        (by simp [← hattrs, QualifiedName.attributes])
    have hcategory : taggedAttribute "call" attrs CallCategory.all CallCategory.tag "category" =
        .ok category :=
      taggedAttribute_eq_ok (by simp [← hattrs]) (by cases category <;> rfl)
    have htype : attrs.get? "type" = type := by simp [← hattrs, QualifiedName.attributes]
    simp [show Kind.ofTag? "call" = some .call from rfl, hname, hcategory, htype,
      decodeExcept_encodeAll (show [] ⊆ groupings by decide) h]
  case builtin name args closure =>
    rw [Node.encode, decode.eq_def]
    simp [show Kind.ofTag? "builtin" = some .builtin from rfl, requiredAttribute,
      decodeArguments_encode h.1 hn fun c hc => h.2 c (by simpa using hc)]
  case compare op lhs rhs =>
    have hop : taggedAttribute "compare" (Attributes.empty.set "op" op.tag) CompareOp.all
        CompareOp.tag "op" = .ok op := taggedAttribute_eq_ok (by simp) (by cases op <;> rfl)
    simp [Node.encode, decode, show Kind.ofTag? "compare" = some .compare from rfl, hop, h]
  case binary op lhs rhs =>
    have hop : taggedAttribute "yebinary" (Attributes.empty.set "op" op.tag) BinaryOp.all
        BinaryOp.tag "op" = .ok op := taggedAttribute_eq_ok (by simp) (by cases op <;> rfl)
    simp [Node.encode, decode, show Kind.ofTag? "yebinary" = some .binary from rfl, hop, h]
  case unary op operand =>
    have hop : taggedAttribute "yeunary" (Attributes.empty.set "op" op.tag) UnaryOp.all
        UnaryOp.tag "op" = .ok op := taggedAttribute_eq_ok (by simp) (by cases op <;> rfl)
    simp [Node.encode, decode, show Kind.ofTag? "yeunary" = some .unary from rfl, hop, h]
  case ternary condition thenValue elseValue =>
    simp [Node.encode, decode, show Kind.ofTag? "yetriple" = some .ternary from rfl, h]
  case isType type operand =>
    simp [Node.encode, decode, show Kind.ofTag? "yeis" = some .isType from rfl,
      requiredAttribute, h]
  case propagate source target operand =>
    simp [Node.encode, decode, show Kind.ofTag? "yepropagate" = some .propagate from rfl,
      requiredAttribute, h]
  case reference target =>
    have htarget : decodeVariable (target.encode "entry") = .ok target :=
      decodeVariable_encode hn (Or.inr rfl)
    simp [Node.encode, decode, show Kind.ofTag? "yereference" = some .reference from rfl, htarget]
  case returnExpr params value => exact decode_encodeReturnExpr params h.1
  case term name args =>
    rw [Node.encode, decode.eq_def]
    simp [show Kind.ofTag? "yeterm" = some .term from rfl, requiredAttribute,
      decodeExcept_encodeAll (show [] ⊆ groupings by decide) h]
  case block block => exact decode_encode_block (List.forall_mem_map.mp h)
  case ifElse condition thenBody elseBody =>
    obtain ⟨hthen, helse⟩ := decodePart?_encode thenBody elseBody condition.encode
      (fun s hs => h.2.1 s (by simpa using hs)) (fun s hs => h.2.2 s (by simpa using hs))
    rw [Node.encode, decode.eq_def]
    simp [show Kind.ofTag? "if" = some .ifElse from rfl, decodePart_grouping h.1, hthen, helse]
  case loop kind condition body =>
    have hbody : decodePart kind.kind.tag "body"
        [grouping "cond" condition.encode, grouping "body" body.encode] = .ok body := by
      rw [decodePart_other (by decide), decodePart_grouping h.2.1]
    rw [Node.encode, decode.eq_def]
    simp only [Kind.ofTag?_tag, decodePart_grouping h.1, hbody]
    cases kind <;> rfl
  case ret value =>
    cases value with
    | none => rfl
    | some value =>
      have hvalue := h value (by simp)
      simp [Node.encode, encodeResult, decode, show Kind.ofTag? "return" = some .ret from rfl,
        hvalue]
  case switch condition cases default =>
    obtain ⟨hcondition, hcases, hdefault⟩ := h
    have hvalues : ∀ c ∈ cases, decode c.1.encode = .ok c.1 := fun c hc =>
      hcases c hc _ List.mem_cons_self
    have hbodies : ∀ c ∈ cases, ∀ s ∈ c.2.statements, decode s.encode = .ok s := fun c hc =>
      forall_statements_of_clauseParts fun part hpart =>
        hcases c hc part (List.mem_cons_of_mem _ hpart)
    have hother : ∀ block ∈ default, ∀ s ∈ block.statements, decode s.encode = .ok s :=
      fun block hblock =>
        forall_statements_of_clauseParts (hdefault block (Option.mem_toList.mpr hblock))
    have hclauses := decodeClauses_encode hvalues hn.1 hbodies
      (decodeClauses_encodeDefault hn.2 hother)
    rw [Node.encode, decode.eq_def]
    simp [show Kind.ofTag? "switch" = some .switch from rfl, decodePart_grouping hcondition,
      decodeClauses_cond, hclauses]
  case funDef name params body =>
    obtain ⟨info, statements⟩ := body
    have hbody := decodeBody_encode "fun_def" params info statements h
    have hparams : symbolsUnder "params" (encodeSymbols "params" params ++
        [(Block.mk info statements).encode]) = .ok params :=
      symbolsUnder_encodeSymbols (by simp [kind_encode_block])
    have hkind : (Block.mk info statements).info.kind = .function := hn
    rw [Node.encode, decode.eq_def]
    simp [show Kind.ofTag? "fun_def" = some .funDef from rfl, requiredAttribute, hbody, hparams,
      hkind]

/-- Decoding gives every well-formed program back from its tree. -/
theorem Node.decode_encode {n : Node} (h : n.WellFormed) : decode n.encode = .ok n := by
  induction n using Node.induction_parts with
  | step n ih =>
    obtain ⟨hn, hparts⟩ := wellFormed_iff.mp h
    exact decode_encode_of_parts hn fun part hpart => ih part hpart (hparts part hpart)

end Ycp

end YcpToRuby
