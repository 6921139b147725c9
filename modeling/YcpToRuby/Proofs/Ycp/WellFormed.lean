import Mathlib.Data.List.Basic
import YcpToRuby.Proofs.Steps
import YcpToRuby.Proofs.Text.Separator
import YcpToRuby.Proofs.Ycp.Parts
import YcpToRuby.Ycp.Decode

/-!
# Well-formed programs

What the type of programs leaves open and the rest of the library relies on: constants have their
text, names are divided, and every block has the kind that its place asks for. Decoding gives
well-formed programs only, because each node of a decoded program is decoded from a node of the tree
and meets its conditions there.
-/

set_option autoImplicit false

namespace YcpToRuby

namespace Ycp

def QualifiedName.IsDivided (name : QualifiedName) : Prop :=
  match name.ns with
  | some ns => ns ≠ ""
  | none => ¬ [':', ':'] <:+: name.name.toList

def Node.IsSound : Node → Prop
  | .const type value => type ≠ .void → value.isSome
  | .var target | .bracket target _ _ | .reference target => target.name.IsDivided
  | .assign target _ | .call target _ _ _ => target.IsDivided
  | .builtin _ _ closure => ∀ block, closure = some (.block block) → block.info.kind = .unspec
  | .switch _ cases default =>
    (∀ c ∈ cases, c.2.info.kind = .stmt) ∧ ∀ block ∈ default, block.info.kind = .stmt
  | .funDef _ _ body => body.info.kind = .function
  | _ => True

def Node.WellFormed (n : Node) : Prop :=
  ∀ m path, Occurs m path n → m.IsSound

theorem Node.wellFormed_iff {n : Node} :
    n.WellFormed ↔ n.IsSound ∧ ∀ part ∈ n.parts, part.2.WellFormed :=
  forall_occurs_iff

def Position.IsSound : Position → Prop
  | .clauseBody _ info | .clauseEnd _ info => info.kind = .stmt
  | _ => True

theorem isSound_of_mem_clauseParts {clause : Scope.Clause} {block : Block}
    (hkind : block.info.kind = .stmt) {part : Position × Node}
    (h : part ∈ clauseParts clause block) : part.1.IsSound := by
  simp only [clauseParts, List.mem_append, List.mem_map] at h
  rcases h with ⟨s, -, rfl⟩ | ⟨s, -, rfl⟩
  · exact hkind
  · exact hkind

theorem Node.IsSound.position {n : Node} (hn : n.IsSound) {part : Position × Node}
    (h : part ∈ n.parts) : part.1.IsSound := by
  cases n <;> simp only [parts, List.not_mem_nil] at h
  case switch condition cases default =>
    simp only [List.mem_cons, List.mem_append, List.mem_flatMap, Option.mem_toList] at h
    rcases h with rfl | ⟨c, hc, h⟩ | ⟨block, hblock, h⟩
    · trivial
    · rcases List.mem_cons.mp h with rfl | h
      · trivial
      · exact isSound_of_mem_clauseParts (hn.1 c hc) h
    · exact isSound_of_mem_clauseParts (hn.2 block hblock) h
  case builtin name args closure =>
    simp only [List.mem_append, List.mem_map, List.mem_flatMap, Option.mem_toList] at h
    rcases h with ⟨e, -, rfl⟩ | ⟨c, -, h⟩
    · trivial
    · cases c with
      | block block =>
        obtain ⟨s, -, rfl⟩ := List.mem_map.mp h
        trivial
      | value params value =>
        obtain rfl := List.mem_singleton.mp h
        trivial
  all_goals
    simp only [List.mem_cons, List.mem_map, List.mem_flatMap, List.not_mem_nil, or_false,
      Block.parts] at h
    grind [Position.IsSound]

theorem Node.WellFormed.position {m n : Node} {path : List Position} (hn : n.WellFormed)
    (hm : Occurs m path n) : ∀ pos ∈ path, pos.IsSound := by
  induction hm with
  | here => simp
  | inside hpart _ ih =>
    obtain ⟨hsound, hparts⟩ := Node.wellFormed_iff.mp hn
    intro pos hpos
    rcases List.mem_append.mp hpos with hpos | hpos
    · exact ih (hparts _ hpart) pos hpos
    · obtain rfl := List.mem_singleton.mp hpos
      exact hsound.position hpart

/-! ## Names -/

def Node.names : Node → List QualifiedName
  | .var target | .bracket target _ _ | .reference target => [target.name]
  | .assign target _ | .call target _ _ _ => [target]
  | _ => []

section Names

variable {kind : String} {attrs : Attributes} {name : QualifiedName}

theorem isDivided_of_splitName {text : String} (h : splitName text = .ok name) :
    name.IsDivided := by
  unfold splitName at h
  split at h
  · rename_i hcut
    obtain rfl : QualifiedName.mk none text = name := by simpa using h
    exact (Text.cutFirst_eq_none_iff _).mp hcut
  · split at h
    · cases h
    · rename_i ns rest _ hparts
      obtain rfl : QualifiedName.mk (some (String.ofList ns)) (String.ofList rest) = name := by
        simpa using h
      intro hempty
      simp_all

theorem isDivided_of_qualifiedName (h : qualifiedName kind attrs = .ok name) :
    name.IsDivided := by
  simp only [qualifiedName, bind_eq_ok] at h
  obtain ⟨text, -, h⟩ := h
  split at h
  · rename_i ns _
    split at h
    · exact isDivided_of_splitName h
    · rename_i hns
      obtain rfl : QualifiedName.mk (some ns) text = name := by simpa using h
      simpa [QualifiedName.IsDivided] using hns
  · exact isDivided_of_splitName h

theorem qualifiedName_of_decodeVariable {tree : Tree} {v : Variable}
    (h : decodeVariable tree = .ok v) : qualifiedName tree.kind tree.attrs = .ok v.name := by
  obtain ⟨kind, attrs, children⟩ := tree
  rw [decodeVariable] at h
  split at h
  · simp at h
  · simp only [bind_eq_ok] at h
    obtain ⟨name, hname, h⟩ := h
    suffices v.name = name from this ▸ hname
    split at h <;>
    · simp only [bind_eq_ok, pure_eq_ok] at h
      obtain ⟨_, -, rfl⟩ := h
      rfl

end Names

/-! ## Parts -/

end Ycp

inductive Tree.Within (d : Tree) : Tree → Prop
  | self : Within d d
  | child {tree child : Tree} (hchild : child ∈ tree.children) (h : Within d child) : Within d tree

theorem Tree.Within.trans {d e tree : Tree} (h : d.Within e) (he : e.Within tree) :
    d.Within tree := by
  induction he with
  | self => exact h
  | child hchild _ ih => exact .child hchild ih

theorem Tree.Within.sizeOf_le {d tree : Tree} (h : d.Within tree) : sizeOf d ≤ sizeOf tree := by
  induction h with
  | self => exact Nat.le_refl _
  | @child tree child hchild _ ih =>
    obtain ⟨kind, attrs, children⟩ := tree
    have hlt := List.sizeOf_lt_of_mem hchild
    simp only [Tree.children, Tree.node.sizeOf_spec] at hlt ⊢
    omega

namespace Ycp

def DecodedIn (trees : List Tree) (n : Node) : Prop :=
  ∃ tree ∈ trees, ∃ d : Tree, d.Within tree ∧ decode d = .ok n

section DecodedIn

variable {trees : List Tree} {tree : Tree} {n : Node}

theorem DecodedIn.of_decode (hmem : tree ∈ trees) (h : decode tree = .ok n) : DecodedIn trees n :=
  ⟨tree, hmem, tree, .self, h⟩

theorem DecodedIn.mono {others : List Tree} (h : DecodedIn trees n) (hsub : trees ⊆ others) :
    DecodedIn others n := by
  obtain ⟨tree, hmem, d, hd, hn⟩ := h
  exact ⟨tree, hsub hmem, d, hd, hn⟩

theorem DecodedIn.tail (h : DecodedIn trees n) : DecodedIn (tree :: trees) n :=
  h.mono (List.subset_cons_self tree trees)

/-- What is decoded under a tree is decoded in a list with the tree. -/
theorem DecodedIn.under {kind : String} {attrs : Attributes} {inner : List Tree}
    (h : DecodedIn inner n) (hmem : Tree.node kind attrs inner ∈ trees) : DecodedIn trees n := by
  obtain ⟨child, hchild, d, hd, hn⟩ := h
  exact ⟨_, hmem, d, .child hchild hd, hn⟩

theorem decodedIn_of_decodeExcept {skipped : List String} {nodes : List Node}
    (h : decodeExcept skipped trees = .ok nodes) : ∀ n ∈ nodes, DecodedIn trees n := by
  induction trees generalizing nodes with
  | nil =>
    obtain rfl : [] = nodes := by simpa [decodeExcept] using h
    simp
  | cons tree rest ih =>
    rw [decodeExcept] at h
    split at h
    · exact fun n hn => (ih h n hn).tail
    · simp only [bind_eq_ok, pure_eq_ok] at h
      obtain ⟨n, hn, others, hothers, rfl⟩ := h
      refine List.forall_mem_cons.mpr ⟨.of_decode List.mem_cons_self hn, ?_⟩
      exact fun m hm => (ih hothers m hm).tail

theorem decodedIn_of_decodeFirstExcept {cause : Malformed} {skipped : String}
    (h : decodeFirstExcept cause skipped trees = .ok n) : DecodedIn trees n := by
  induction trees with
  | nil => simp [decodeFirstExcept] at h
  | cons tree rest ih =>
    rw [decodeFirstExcept] at h
    split at h
    · exact (ih h).tail
    · exact .of_decode List.mem_cons_self h

theorem decodedIn_of_decodeOnly {kind : String} (h : decodeOnly kind trees = .ok n) :
    DecodedIn trees n := by
  unfold decodeOnly at h
  split at h
  · exact .of_decode List.mem_cons_self h
  · cases h

theorem decodedIn_of_decodePart? {part : String} {result : Option Node}
    (h : decodePart? part trees = .ok result) : ∀ n ∈ result, DecodedIn trees n := by
  induction trees with
  | nil =>
    obtain rfl : none = result := by simpa [decodePart?] using h
    simp
  | cons tree rest ih =>
    obtain ⟨kind, attrs, inner⟩ := tree
    rw [decodePart?] at h
    split at h
    · obtain ⟨n, hn, rfl⟩ := map_eq_ok.mp h
      rintro m ⟨⟩
      exact (decodedIn_of_decodeOnly hn).under List.mem_cons_self
    · exact fun n hn => (ih h n hn).tail

theorem decodedIn_of_decodePart {kind part : String} (h : decodePart kind part trees = .ok n) :
    DecodedIn trees n := by
  induction trees with
  | nil => simp [decodePart] at h
  | cons tree rest ih =>
    obtain ⟨child, attrs, inner⟩ := tree
    rw [decodePart] at h
    split at h
    · exact (decodedIn_of_decodeOnly h).under List.mem_cons_self
    · exact (ih h).tail

theorem decodedIn_of_decodeEntries {entries : List (Node × Node)}
    (h : decodeEntries trees = .ok entries) :
    ∀ entry ∈ entries, DecodedIn trees entry.1 ∧ DecodedIn trees entry.2 := by
  induction trees generalizing entries with
  | nil =>
    obtain rfl : [] = entries := by simpa [decodeEntries] using h
    simp
  | cons tree rest ih =>
    obtain ⟨kind, attrs, inner⟩ := tree
    rw [decodeEntries] at h
    split at h
    · simp at h
    · simp only [bind_eq_ok, pure_eq_ok] at h
      obtain ⟨key, hkey, value, hvalue, others, hothers, rfl⟩ := h
      refine List.forall_mem_cons.mpr ⟨⟨?_, ?_⟩, fun entry hentry => ?_⟩
      · exact (decodedIn_of_decodePart hkey).under List.mem_cons_self
      · exact (decodedIn_of_decodePart hvalue).under List.mem_cons_self
      · exact ⟨(ih hothers entry hentry).1.tail, (ih hothers entry hentry).2.tail⟩

theorem decodedIn_of_blockOf {kind : String} {attrs : Attributes} {block : Block}
    (h : blockOf kind attrs trees (decodeExcept declarations trees) = .ok block) :
    ∀ s ∈ block.statements, DecodedIn trees s := by
  simp only [blockOf, bind_eq_ok, pure_eq_ok] at h
  obtain ⟨_, -, body, hbody, _, -, _, -, rfl⟩ := h
  exact decodedIn_of_decodeExcept hbody

theorem decodedIn_of_decodeBody {kind : String} {block : Block}
    (h : decodeBody kind trees = .ok block) : ∀ s ∈ block.statements, DecodedIn trees s := by
  induction trees with
  | nil => simp [decodeBody] at h
  | cons tree rest ih =>
    obtain ⟨child, attrs, inner⟩ := tree
    rw [decodeBody] at h
    split at h
    · have hstatements := decodedIn_of_blockOf h
      exact fun s hs => (hstatements s hs).under List.mem_cons_self
    · exact fun s hs => (ih h s hs).tail

end DecodedIn

/-! ## Closures and clauses -/

def PartsBelow (bound : Nat) : Prop :=
  ∀ tree n, sizeOf tree < bound → decode tree = .ok n →
    ∀ part ∈ n.parts, DecodedIn tree.children part.2

def Closure.StandsIn (trees : List Tree) (closure : Closure) : Prop :=
  (∀ block, closure = .block block → block.info.kind = .unspec) ∧
    ∀ part ∈ closure.parts, DecodedIn trees part.2

def Block.StandsIn (trees : List Tree) (block : Block) : Prop :=
  block.info.kind = .stmt ∧ ∀ s ∈ block.statements, DecodedIn trees s

theorem Closure.StandsIn.mono {trees others : List Tree} {closure : Closure}
    (h : closure.StandsIn trees) (hsub : trees ⊆ others) : closure.StandsIn others :=
  ⟨h.1, fun part hpart => (h.2 part hpart).mono hsub⟩

theorem Block.StandsIn.mono {trees others : List Tree} {block : Block}
    (h : block.StandsIn trees) (hsub : trees ⊆ others) : block.StandsIn others :=
  ⟨h.1, fun s hs => (h.2 s hs).mono hsub⟩

section Bounded

variable {bound : Nat} {trees : List Tree}

theorem DecodedIn.part (ih : PartsBelow bound) (hsize : sizeOf trees ≤ bound) {n : Node}
    (h : DecodedIn trees n) {part : Position × Node} (hpart : part ∈ n.parts) :
    DecodedIn trees part.2 := by
  obtain ⟨tree, hmem, d, hd, hn⟩ := h
  have hlt := List.sizeOf_lt_of_mem hmem
  have hle := hd.sizeOf_le
  obtain ⟨child, hchild, e, he, hpart⟩ := ih d n (by omega) hn part hpart
  exact ⟨tree, hmem, e, Tree.Within.trans (.child hchild he) hd, hpart⟩

theorem standsIn_of_closureOf (ih : PartsBelow bound) (hsize : sizeOf trees ≤ bound) {n : Node}
    {closure : Closure} (hn : DecodedIn trees n) (h : closureOf n = .ok closure) :
    closure.StandsIn trees := by
  unfold closureOf at h
  split at h
  · split at h
    · rename_i hkind
      obtain rfl := Except.ok.inj h
      refine ⟨?_, fun part hpart => hn.part ih hsize hpart⟩
      rintro _ ⟨⟩
      exact hkind
    · cases h
  · obtain rfl := Except.ok.inj h
    refine ⟨?_, fun part hpart => hn.part ih hsize hpart⟩
    rintro _ ⟨⟩
  · cases h

theorem standsIn_of_decodeArguments (ih : PartsBelow bound) {kind : String} {attrs : Attributes}
    {met : Bool} {args : List Node} {closure : Option Closure} (hsize : sizeOf trees ≤ bound)
    (h : decodeArguments kind attrs met trees = .ok (args, closure)) :
    (∀ n ∈ args, DecodedIn trees n) ∧ ∀ c ∈ closure, c.StandsIn trees := by
  induction trees generalizing met args closure with
  | nil =>
    obtain ⟨rfl, rfl⟩ : [] = args ∧ none = closure := by simpa [decodeArguments] using h
    simp
  | cons tree rest ihrest =>
    have hsub := List.subset_cons_self tree rest
    simp only [List.cons.sizeOf_spec] at hsize
    rw [decodeArguments] at h
    split at h
    · simp only [bind_eq_ok, pure_eq_ok] at h
      obtain ⟨arg, harg, ⟨others, c⟩, hothers, heq⟩ := h
      obtain ⟨rfl, rfl⟩ := Prod.mk.inj heq
      obtain ⟨hargs, hclosure⟩ := ihrest (by omega) hothers
      refine ⟨List.forall_mem_cons.mpr ⟨.of_decode List.mem_cons_self harg, ?_⟩, ?_⟩
      · exact fun n hn => (hargs n hn).mono hsub
      · exact fun c hc => (hclosure c hc).mono hsub
    · split at h
      · simp at h
      · simp only [bind_eq_ok, pure_eq_ok] at h
        obtain ⟨c, hc, ⟨others, c'⟩, hothers, heq⟩ := h
        obtain ⟨rfl, rfl⟩ := Prod.mk.inj heq
        refine ⟨fun n hn => ((ihrest (by omega) hothers).1 n hn).mono hsub, ?_⟩
        rintro c ⟨⟩
        obtain ⟨child, childAttrs, inner⟩ := tree
        simp only [Tree.node.sizeOf_spec] at hsize
        simp only [decodeClosure, bind_eq_ok] at hc
        obtain ⟨n, hn, hc⟩ := hc
        have hinner := standsIn_of_closureOf ih (by omega) (decodedIn_of_decodeOnly hn) hc
        exact ⟨hinner.1, fun part hpart => (hinner.2 part hpart).under List.mem_cons_self⟩

theorem standsIn_clauseBlock (ih : PartsBelow bound) (hsize : sizeOf trees ≤ bound)
    {body : List Node} (h : ∀ s ∈ body, DecodedIn trees s) : (clauseBlock body).StandsIn trees := by
  unfold clauseBlock
  split
  · rename_i block
    split
    · rename_i hkind
      refine ⟨hkind, fun s hs => ?_⟩
      have hblock := h _ (List.mem_singleton.mpr rfl)
      have hpart : (Position.blockBody block.info, s) ∈ (Node.block block).parts :=
        List.mem_map_of_mem hs
      exact hblock.part ih hsize hpart
    · exact ⟨rfl, h⟩
  · exact ⟨rfl, h⟩

theorem standsIn_of_decodeClauses (ih : PartsBelow bound) {met : Bool}
    {cases : List (Node × Block)} {default : Option Block} (hsize : sizeOf trees ≤ bound)
    (h : decodeClauses met trees = .ok (cases, default)) :
    (∀ c ∈ cases, DecodedIn trees c.1 ∧ c.2.StandsIn trees) ∧
      ∀ block ∈ default, block.StandsIn trees := by
  induction trees generalizing met cases default with
  | nil =>
    obtain ⟨rfl, rfl⟩ : [] = cases ∧ none = default := by simpa [decodeClauses] using h
    simp
  | cons tree rest ihrest =>
    have hsub := List.subset_cons_self tree rest
    have hrest {met cases default} (h : decodeClauses met rest = .ok (cases, default)) :
        (∀ c ∈ cases, DecodedIn (tree :: rest) c.1 ∧ c.2.StandsIn (tree :: rest)) ∧
          ∀ block ∈ default, block.StandsIn (tree :: rest) := by
      simp only [List.cons.sizeOf_spec] at hsize
      obtain ⟨hcases, hdefault⟩ := ihrest (by omega) h
      exact ⟨fun c hc => ⟨(hcases c hc).1.mono hsub, (hcases c hc).2.mono hsub⟩,
        fun block hblock => (hdefault block hblock).mono hsub⟩
    obtain ⟨kind, attrs, inner⟩ := tree
    simp only [List.cons.sizeOf_spec, Tree.node.sizeOf_spec] at hsize
    have hclause {skipped body} (h : decodeExcept skipped inner = .ok body) :
        (clauseBlock body).StandsIn (.node kind attrs inner :: rest) := by
      obtain ⟨hkind, hstatements⟩ :=
        standsIn_clauseBlock ih (by omega) (decodedIn_of_decodeExcept h)
      exact ⟨hkind, fun s hs => (hstatements s hs).under List.mem_cons_self⟩
    rw [decodeClauses] at h
    split at h
    · exact hrest h
    · split at h
      · simp only [bind_eq_ok, pure_eq_ok] at h
        obtain ⟨value, hvalue, body, hbody, ⟨others, d⟩, hothers, heq⟩ := h
        obtain ⟨rfl, rfl⟩ := Prod.mk.inj heq
        obtain ⟨hcases, hdefault⟩ := hrest hothers
        refine ⟨List.forall_mem_cons.mpr ⟨⟨?_, hclause hbody⟩, hcases⟩, hdefault⟩
        exact (decodedIn_of_decodePart hvalue).under List.mem_cons_self
      · split at h
        · split at h
          · simp at h
          · simp only [bind_eq_ok, pure_eq_ok] at h
            obtain ⟨body, hbody, ⟨others, d⟩, hothers, heq⟩ := h
            obtain ⟨rfl, rfl⟩ := Prod.mk.inj heq
            refine ⟨(hrest hothers).1, ?_⟩
            rintro block ⟨⟩
            exact hclause hbody
        · simp at h

end Bounded

/-! ## Nodes -/

structure Node.ComesFrom (n : Node) (tree : Tree) : Prop where
  sound : n.IsSound
  names : ∀ name ∈ n.names, ∃ d : Tree, d.Within tree ∧ qualifiedName d.kind d.attrs = .ok name
  parts : ∀ part ∈ n.parts, DecodedIn tree.children part.2

theorem comesFrom_of_decodeConstant {kind : String} {attrs : Attributes} {children : List Tree}
    {n : Node} (h : decodeConstant kind attrs = .ok n) :
    n.ComesFrom (.node kind attrs children) := by
  simp only [decodeConstant, bind_eq_ok] at h
  obtain ⟨type, -, h⟩ := h
  split at h
  · obtain rfl := Except.ok.inj h
    exact ⟨fun hne => absurd rfl hne, by simp [Node.names], by simp [Node.parts]⟩
  · obtain rfl := Except.ok.inj h
    exact ⟨fun _ => rfl, by simp [Node.names], by simp [Node.parts]⟩
  · cases h

section Nodes

variable {kind : String} {attrs : Attributes} {children : List Tree} {n : Node}

/-- A node without names of its own. -/
theorem Node.ComesFrom.plain (hsound : n.IsSound) (hnames : n.names = [])
    (hparts : ∀ part ∈ n.parts, DecodedIn children part.2) :
    n.ComesFrom (.node kind attrs children) :=
  ⟨hsound, by simp [hnames], hparts⟩

/-- A node with the name that the tree has. -/
theorem Node.ComesFrom.named {name : QualifiedName} (hname : qualifiedName kind attrs = .ok name)
    (hsound : name.IsDivided → n.IsSound) (hnames : n.names = [name])
    (hparts : ∀ part ∈ n.parts, DecodedIn children part.2) :
    n.ComesFrom (.node kind attrs children) := by
  refine ⟨hsound (isDivided_of_qualifiedName hname), ?_, hparts⟩
  rw [hnames, List.forall_mem_singleton]
  exact ⟨_, .self, hname⟩

/-- A node with the name of a variable under the tree. -/
theorem Node.ComesFrom.targeted {target : Tree} {v : Variable} (hmem : target ∈ children)
    (htarget : decodeVariable target = .ok v) (hsound : v.name.IsDivided → n.IsSound)
    (hnames : n.names = [v.name]) (hparts : ∀ part ∈ n.parts, DecodedIn children part.2) :
    n.ComesFrom (.node kind attrs children) := by
  have hname := qualifiedName_of_decodeVariable htarget
  refine ⟨hsound (isDivided_of_qualifiedName hname), ?_, hparts⟩
  rw [hnames, List.forall_mem_singleton]
  exact ⟨target, .child hmem .self, hname⟩

end Nodes

theorem comesFrom_of_decode_of_partsBelow {kind : String} {attrs : Attributes}
    {children : List Tree} {n : Node} (ih : PartsBelow (sizeOf children))
    (h : decode (.node kind attrs children) = .ok n) : n.ComesFrom (.node kind attrs children) := by
  have hsize := Nat.le_refl (sizeOf children)
  rw [decode.eq_def] at h
  rcases hkind : Kind.ofTag? kind with _ | found
  · simp [hkind] at h
  cases found <;> simp only [hkind, bind_eq_ok, pure_eq_ok] at h
  case const => exact comesFrom_of_decodeConstant h
  case locale | importModule | textdomain | filename =>
    obtain ⟨_, -, rfl⟩ := map_eq_ok.mp h
    exact .plain trivial rfl (by simp [Node.parts])
  case breakLoop | continueLoop | typedef =>
    obtain rfl := Except.ok.inj h
    exact .plain trivial rfl (by simp [Node.parts])
  case includeFile =>
    obtain ⟨_, -, _, -, rfl⟩ := h
    exact .plain trivial rfl (by simp [Node.parts])
  case list =>
    obtain ⟨nodes, hnodes, rfl⟩ := map_eq_ok.mp h
    exact .plain trivial rfl (List.forall_mem_map.mpr (decodedIn_of_decodeExcept hnodes))
  case map =>
    obtain ⟨entries, hentries, rfl⟩ := map_eq_ok.mp h
    refine .plain trivial rfl (List.forall_mem_flatMap.mpr fun entry hentry => ?_)
    simpa using decodedIn_of_decodeEntries hentries entry hentry
  case var | entry =>
    obtain ⟨v, hv, rfl⟩ := map_eq_ok.mp h
    exact .named (qualifiedName_of_decodeVariable hv) id rfl (by simp [Node.parts])
  case assign =>
    obtain ⟨name, hname, h⟩ := h
    split at h
    · simp only [bind_eq_ok, pure_eq_ok] at h
      obtain ⟨value, hvalue, rfl⟩ := h
      refine .named hname id rfl ?_
      simpa [Node.parts] using DecodedIn.of_decode List.mem_cons_self hvalue
    · cases h
  case bracket =>
    split at h
    · simp only [bind_eq_ok, pure_eq_ok] at h
      obtain ⟨target, htarget, key, hkey, value, hvalue, rfl⟩ := h
      refine .targeted List.mem_cons_self htarget id rfl ?_
      simpa [Node.parts] using
        ⟨DecodedIn.of_decode (by simp) hkey, DecodedIn.of_decode (by simp) hvalue⟩
    · cases h
  case index | ternary =>
    split at h
    · simp only [bind_eq_ok, pure_eq_ok] at h
      obtain ⟨a, ha, b, hb, c, hc, rfl⟩ := h
      refine .plain trivial rfl ?_
      simpa [Node.parts] using ⟨DecodedIn.of_decode (by simp) ha,
        DecodedIn.of_decode (by simp) hb, DecodedIn.of_decode (by simp) hc⟩
    · cases h
  case call =>
    obtain ⟨name, hname, _, -, args, hargs, rfl⟩ := h
    exact .named hname id rfl (List.forall_mem_map.mpr (decodedIn_of_decodeExcept hargs))
  case builtin =>
    obtain ⟨⟨args, closure⟩, hargs, _, -, rfl⟩ := h
    obtain ⟨hargs, hclosure⟩ := standsIn_of_decodeArguments ih hsize hargs
    refine .plain ?_ rfl (List.forall_mem_append.mpr ⟨?_, ?_⟩)
    · rintro block rfl
      exact (hclosure _ rfl).1 block rfl
    · exact List.forall_mem_map.mpr hargs
    · exact List.forall_mem_flatMap.mpr fun c hc => (hclosure c (Option.mem_toList.mp hc)).2
  case compare | binary =>
    split at h
    · simp only [bind_eq_ok, pure_eq_ok] at h
      obtain ⟨_, -, a, ha, b, hb, rfl⟩ := h
      refine .plain trivial rfl ?_
      simpa [Node.parts] using
        ⟨DecodedIn.of_decode (by simp) ha, DecodedIn.of_decode (by simp) hb⟩
    · cases h
  case unary | isType =>
    split at h
    · simp only [bind_eq_ok, pure_eq_ok] at h
      obtain ⟨_, -, a, ha, rfl⟩ := h
      refine .plain trivial rfl ?_
      simpa [Node.parts] using DecodedIn.of_decode List.mem_cons_self ha
    · cases h
  case propagate =>
    split at h
    · simp only [bind_eq_ok, pure_eq_ok] at h
      obtain ⟨_, -, _, -, a, ha, rfl⟩ := h
      refine .plain trivial rfl ?_
      simpa [Node.parts] using DecodedIn.of_decode List.mem_cons_self ha
    · cases h
  case reference =>
    split at h
    · obtain ⟨target, htarget, rfl⟩ := map_eq_ok.mp h
      exact .targeted List.mem_cons_self htarget id rfl (by simp [Node.parts])
    · cases h
  case returnExpr =>
    obtain ⟨params, -, h⟩ := h
    split at h
    · simp at h
    · simp only [bind_eq_ok, pure_eq_ok] at h
      obtain ⟨value, hvalue, rfl⟩ := h
      refine .plain trivial rfl ?_
      simpa [Node.parts] using decodedIn_of_decodeFirstExcept hvalue
  case term =>
    obtain ⟨_, -, args, hargs, rfl⟩ := h
    exact .plain trivial rfl (List.forall_mem_map.mpr (decodedIn_of_decodeExcept hargs))
  case block =>
    obtain ⟨block, hblock, rfl⟩ := map_eq_ok.mp h
    exact .plain trivial rfl (List.forall_mem_map.mpr (decodedIn_of_blockOf hblock))
  case ifElse =>
    obtain ⟨condition, hcondition, thenBody, hthen, elseBody, helse, rfl⟩ := h
    have hthen := decodedIn_of_decodePart? hthen
    have helse := decodedIn_of_decodePart? helse
    refine .plain trivial rfl (List.forall_mem_cons.mpr
      ⟨decodedIn_of_decodePart hcondition, List.forall_mem_map.mpr ?_⟩)
    simpa [or_imp, forall_and] using ⟨hthen, helse⟩
  case whileLoop | doLoop | repeatLoop =>
    obtain ⟨condition, hcondition, body, hbody, rfl⟩ := h
    refine .plain trivial rfl ?_
    simpa [Node.parts] using ⟨decodedIn_of_decodePart hcondition, decodedIn_of_decodePart hbody⟩
  case ret =>
    split at h
    · obtain rfl := Except.ok.inj h
      exact .plain trivial rfl (by simp [Node.parts])
    · simp only [bind_eq_ok, pure_eq_ok] at h
      obtain ⟨value, hvalue, rfl⟩ := h
      refine .plain trivial rfl ?_
      simpa [Node.parts] using DecodedIn.of_decode List.mem_cons_self hvalue
    · cases h
  case switch =>
    obtain ⟨⟨cases, default⟩, hclauses, condition, hcondition, rfl⟩ := h
    obtain ⟨hcases, hdefault⟩ := standsIn_of_decodeClauses ih hsize hclauses
    refine .plain ⟨fun c hc => (hcases c hc).2.1, fun block hblock => (hdefault block hblock).1⟩
      rfl (List.forall_mem_cons.mpr
        ⟨decodedIn_of_decodePart hcondition, List.forall_mem_append.mpr ⟨?_, ?_⟩⟩)
    · refine List.forall_mem_flatMap.mpr fun c hc => List.forall_mem_cons.mpr
        ⟨(hcases c hc).1, fun part hpart => ?_⟩
      exact (hcases c hc).2.2 _ (mem_statements_of_mem_clauseParts hpart)
    · refine List.forall_mem_flatMap.mpr fun block hblock part hpart => ?_
      exact (hdefault block (Option.mem_toList.mp hblock)).2 _
        (mem_statements_of_mem_clauseParts hpart)
  case funDef =>
    obtain ⟨name, -, body, hbody, h⟩ := h
    split at h
    · simp at h
    · rename_i hfunction
      simp only [bind_eq_ok, pure_eq_ok] at h
      obtain ⟨params, -, rfl⟩ := h
      exact .plain (not_not.mp hfunction) rfl
        (List.forall_mem_map.mpr (decodedIn_of_decodeBody hbody))

theorem partsBelow (bound : Nat) : PartsBelow bound := by
  induction bound with
  | zero => exact fun tree n hsize => absurd hsize (by omega)
  | succ bound ih =>
    rintro ⟨kind, attrs, children⟩ n hsize h
    simp only [Tree.node.sizeOf_spec] at hsize
    have hsmall : PartsBelow (sizeOf children) :=
      fun tree m hm => ih tree m (by omega)
    exact (comesFrom_of_decode_of_partsBelow hsmall h).parts

theorem comesFrom_of_decode {tree : Tree} {n : Node} (h : decode tree = .ok n) :
    n.ComesFrom tree := by
  obtain ⟨kind, attrs, children⟩ := tree
  exact comesFrom_of_decode_of_partsBelow (partsBelow _) h

/-- Every node of a decoded program is decoded from a node of the tree. -/
theorem Occurs.exists_decode {tree : Tree} {m n : Node} {path : List Position}
    (hm : Occurs m path n) (h : decode tree = .ok n) :
    ∃ d : Tree, d.Within tree ∧ decode d = .ok m := by
  induction hm generalizing tree with
  | here => exact ⟨tree, .self, h⟩
  | inside hpart _ ih =>
    obtain ⟨child, hchild, d, hd, hdecode⟩ := (comesFrom_of_decode h).parts _ hpart
    obtain ⟨e, he, hm⟩ := ih hdecode
    exact ⟨e, he.trans (.child hchild hd), hm⟩

/-- Decoding gives well-formed programs only. -/
theorem Node.wellFormed_of_decode {tree : Tree} {n : Node} (h : decode tree = .ok n) :
    n.WellFormed := by
  intro m path hm
  obtain ⟨d, -, hd⟩ := hm.exists_decode h
  exact (comesFrom_of_decode hd).sound

end Ycp

end YcpToRuby
