import YcpToRuby.Proofs.Generate.Alike
import YcpToRuby.Proofs.Generate.Grammar
import YcpToRuby.Proofs.Generate.Sections

/-!
# The members of a generated class

A file becomes one class. Its methods are the functions of the file and `main`, which holds the
other statements; a module without such statements has no `main`. Nothing keeps a function from
being called `main` too, so it is characterized when the methods have different names. What is
exported concerns the exports at the end of a module's class and nothing else.
-/

set_option autoImplicit false

namespace YcpToRuby

namespace Ruby.Node

def entryNodes : Node → List Node
  | sequence entries => entries.filterMap id
  | _ => []

def membersInModule : Node → List Node
  | moduleDef _ body => body.entryNodes.flatMap fun
    | classDef _ _ body => body.entryNodes
    | _ => []
  | _ => []

def classMembers : Node → List Node
  | program body => body.entryNodes.flatMap membersInModule
  | _ => []

def methodName? : Node → Option String
  | methodDef name _ _ => some name
  | _ => none

def methodNames (r : Node) : List String :=
  r.classMembers.filterMap methodName?

def mapEntries (change : Node → Node) : Node → Node
  | sequence entries => sequence (entries.map (Option.map change))
  | node => node

def keepEntries (test : Node → Bool) : Node → Node
  | sequence entries => sequence (entries.filter fun entry => entry.all test)
  | node => node

def keepInClass (test : Node → Bool) : Node → Node
  | classDef name superclass body => classDef name superclass (body.keepEntries test)
  | node => node

def keepInModule (test : Node → Bool) : Node → Node
  | moduleDef name body => moduleDef name (body.mapEntries (keepInClass test))
  | node => node

def keepMembers (test : Node → Bool) : Node → Node
  | program body => program (body.mapEntries (keepInModule test))
  | node => node

@[simp] theorem entryNodes_statements (nodes : List Node) :
    (statements nodes).entryNodes = nodes := by
  simp [statements, entryNodes]

@[simp] theorem mapEntries_statements (change : Node → Node) (nodes : List Node) :
    (statements nodes).mapEntries change = statements (nodes.map change) := by
  simp [statements, mapEntries]

@[simp] theorem keepEntries_statements (test : Node → Bool) (nodes : List Node) :
    (statements nodes).keepEntries test = statements (nodes.filter test) := by
  simp [statements, keepEntries, List.filter_map, Function.comp_def]

def hasKey (key : String) : Node → Bool
  | hash entries => entries.any fun entry =>
    match entry.1 with
    | literal value => value == .symbol key
    | _ => false
  | _ => false

def isPrivateExport : Node → Bool
  | call none name args none false => name == "publish" && args.any (hasKey "private")
  | _ => false

def withoutPrivateExports (r : Node) : Node :=
  r.keepMembers fun member => !member.isPrivateExport

end Ruby.Node

namespace Generate

open Scope (Context)
open Ycp (Block BlockInfo Node)

/-! ## What leaves code -/

mutual

def leavesCode : Node → Bool
  | .block (.mk info body) =>
    match info.kind with
    | .stmt | .function => anyLeavesCode body
    | .unspec | .module | .file => true
  | .includeFile _ skip => !skip
  | .typedef | .filename _ => false
  | _ => true

def anyLeavesCode : List Node → Bool
  | [] => false
  | n :: rest => leavesCode n || anyLeavesCode rest

end

def isBraces : Node → Bool
  | .block body => body.info.kind = .stmt ∨ body.info.kind = .function
  | _ => false

section Code

variable {ctx : Context}

theorem splice_of_isSequence_eq_false {r : Ruby.Node} (h : r.isSequence = false) :
    splice (some r) = [some r] := by
  cases r
  case sequence entries => cases h
  all_goals rfl

theorem isSequence_of_fits {own : Option String} {r : Ruby.Node} (h : Ruby.Fits own .entry r) :
    r.isSequence = false := by
  cases r
  case sequence entries => exact absurd rfl ((Ruby.fits_iff.mp h).1.sequence entries rfl)
  all_goals rfl

theorem exists_of_functionDef {name : String} {params : List Ycp.Symbol} {info : BlockInfo}
    {body : List Reading} {r : Ruby.Node} (h : functionDef name params info body ctx = .ok r) :
    ∃ names inner, r = .methodDef name names inner := by
  unfold functionDef at h
  split at h
  · cases h
  · split at h
    · cases h
    · obtain ⟨entries, -, hr⟩ := bind_eq_ok.mp h
      exact ⟨_, _, (Except.ok.inj hr).symm⟩

/-- A block that is neither a closure nor braces is a file, which nothing becomes of inside
another. -/
theorem innerFile_statement_ne_ok {block : Block} {entry : Option Ruby.Node}
    (hclosure : block.info.kind ≠ .unspec)
    (hbraces : ¬ (block.info.kind = .stmt ∨ block.info.kind = .function)) :
    (reading (.block block)).statement ctx ≠ .ok entry := by
  obtain ⟨info, body⟩ := block
  intro h
  exact hbraces ((nonclosure_statement_eq_ok hclosure).mp h).1

/-- Only braces become a sequence. -/
theorem isSequence_of_statement {n : Node} {r : Ruby.Node} (hn : isBraces n = false)
    (h : (reading n).statement ctx = .ok (some r)) : r.isSequence = false := by
  cases hvalue : n.isValue with
  | true =>
    rw [statement_eq_value hvalue, map_eq_ok] at h
    obtain ⟨v, hv, hr⟩ := h
    cases hr
    exact isSequence_of_fits ((grammatical none n).value hv).entry
  | false =>
    cases n <;> simp only [Node.isValue, Bool.true_eq_false] at hvalue
    case block block =>
      exact absurd h (innerFile_statement_ne_ok (of_decide_eq_false hvalue) (of_decide_eq_false hn))
    case ifElse condition thenBody elseBody =>
      have hconditional := isConditional_of_conditional (solid_statement_eq_some.mp h)
      cases r
      case sequence entries => cases hconditional
      all_goals rfl
    case loop kind condition body =>
      obtain ⟨test, -, inner, -, rfl⟩ := loop_eq_ok.mp (solid_statement_eq_some.mp h)
      cases kind <;> rfl
    case breakLoop =>
      have hfits : Ruby.Fits none .entry r := fits_of_breakNode (solid_statement_eq_some.mp h)
      exact isSequence_of_fits hfits
    case ret value =>
      exact isSequence_of_fits
        (fits_of_returnStatement (fun v _ => grammatical none v) (solid_statement_eq_some.mp h))
    case switch condition cases default =>
      obtain ⟨subject, -, clauses, -, elseBody, -, rfl⟩ :=
        switch_eq_ok.mp (solid_statement_eq_some.mp h)
      rfl
    case funDef name params body =>
      obtain ⟨info, body⟩ := body
      obtain ⟨names, inner, rfl⟩ := exists_of_functionDef (solid_statement_eq_some.mp h)
      rfl
    case includeFile name skip =>
      cases skip <;> cases h
      rfl
    case continueLoop | importModule name | textdomain name =>
      cases h
      rfl
    case typedef | filename name => cases h

theorem exists_of_isBraces {n : Node} (h : isBraces n = true) :
    ∃ info body, n = .block (.mk info body) ∧ (info.kind = .stmt ∨ info.kind = .function) := by
  cases n <;> simp only [isBraces, Bool.false_eq_true] at h
  case block block =>
    obtain ⟨info, body⟩ := block
    exact ⟨info, body, rfl, of_decide_eq_true h⟩

theorem leavesCode_braces {info : BlockInfo} (hkind : info.kind = .stmt ∨ info.kind = .function)
    (body : List Node) : leavesCode (.block (.mk info body)) = anyLeavesCode body := by
  rcases hkind with hkind | hkind <;> simp [leavesCode, hkind]

theorem any_statements {nodes : List Node} {entries : List (Option Ruby.Node)}
    (hnodes : ∀ n ∈ nodes, ∀ entry, (reading n).statement ctx = .ok entry →
      (splice entry).any Option.isSome = leavesCode n)
    (h : statements (nodes.map reading) ctx = .ok entries) :
    entries.any Option.isSome = anyLeavesCode nodes := by
  induction nodes generalizing entries with
  | nil =>
    obtain rfl := statements_nil_eq_ok.mp h
    rfl
  | cons n rest ih =>
    obtain ⟨hn, hrest⟩ := List.forall_mem_cons.mp hnodes
    obtain ⟨entry, hentry, others, hothers, rfl⟩ := statements_cons_eq_ok.mp h
    rw [List.any_append, hn entry hentry, ih hrest hothers, anyLeavesCode]

/-- Type definitions, file names and skipped includes leave nothing. -/
theorem isSome_of_statement {n : Node} {entry : Option Ruby.Node} (hn : isBraces n = false)
    (h : (reading n).statement ctx = .ok entry) : entry.isSome = leavesCode n := by
  cases hvalue : n.isValue with
  | true =>
    rw [statement_eq_value hvalue, map_eq_ok] at h
    obtain ⟨v, -, rfl⟩ := h
    cases n <;> simp only [Node.isValue, Bool.false_eq_true] at hvalue
    case block block =>
      obtain ⟨info, body⟩ := block
      have hkind : info.kind = .unspec := of_decide_eq_true hvalue
      simp [leavesCode, hkind]
    all_goals rfl
  | false =>
    cases n <;> simp only [Node.isValue, Bool.true_eq_false] at hvalue
    case block block =>
      exact absurd h (innerFile_statement_ne_ok (of_decide_eq_false hvalue) (of_decide_eq_false hn))
    case includeFile name skip => cases skip <;> cases h <;> rfl
    case typedef | filename name =>
      cases h
      rfl
    case funDef name params body =>
      obtain ⟨info, body⟩ := body
      obtain ⟨r, -, rfl⟩ := solid_statement_eq_ok.mp h
      rfl
    all_goals
      obtain ⟨r, -, rfl⟩ := solid_statement_eq_ok.mp h
      rfl

/-- A statement leaves an entry exactly if something becomes of it. -/
theorem any_splice_eq_leavesCode {n : Node} {entry : Option Ruby.Node}
    (h : (reading n).statement ctx = .ok entry) :
    (splice entry).any Option.isSome = leavesCode n := by
  induction n using Node.induction_parts generalizing ctx entry with
  | step n ih =>
    cases hbraces : isBraces n with
    | true =>
      obtain ⟨info, body, rfl, hkind⟩ := exists_of_isBraces hbraces
      have hclosure : info.kind ≠ .unspec := by
        rcases hkind with hkind | hkind <;> simp [hkind]
      obtain ⟨-, entries, hentries, rfl⟩ := (nonclosure_statement_eq_ok hclosure).mp h
      rw [leavesCode_braces hkind]
      apply any_statements _ hentries
      intro s hs inner hinner
      apply ih (.blockBody info, s) _ hinner
      simpa [Node.parts, Block.parts, Block.statements, Block.info] using hs
    | false =>
      rw [← isSome_of_statement hbraces h]
      cases entry with
      | none => rfl
      | some r =>
        rw [splice_of_isSequence_eq_false (isSequence_of_statement hbraces h)]
        rfl

end Code

/-! ## What a statement adds to a class -/

def functionName? : Node → Option String
  | .funDef name _ _ => some name
  | _ => none

def functionNames (body : List Node) : List String :=
  body.filterMap functionName?

def addsCode (n : Node) : Bool :=
  sectionOf? n = some .main && leavesCode n

inductive Adds : Node → Part → Prop
  | textdomain (name : String) : Adds (.textdomain name) (.textdomain (textdomainNode name))
  | function {name : String} {params : List Ycp.Symbol} {body : Block} (names : List String)
      (inner : Ruby.Node) :
      Adds (.funDef name params body) (.function (.methodDef name names inner))
  | main {n : Node} {entries : List (Option Ruby.Node)} (hname : functionName? n = none)
      (hcode : entries.any Option.isSome = addsCode n) : Adds n (.main entries)

section Members

variable {ctx : Context}

theorem adds_of_part {n : Node} {p : Part} (h : part ctx n = .ok p) : Adds n p := by
  rw [part_eq, map_eq_ok] at h
  obtain ⟨entry, hentry, rfl⟩ := h
  cases n
  case textdomain name =>
    obtain rfl := Except.ok.inj hentry
    exact .textdomain name
  case funDef name params body =>
    obtain ⟨info, body⟩ := body
    obtain ⟨r, hr, rfl⟩ := solid_statement_eq_ok.mp hentry
    obtain ⟨names, inner, rfl⟩ := exists_of_functionDef hr
    exact .function names inner
  case typedef | filename name => exact .main rfl rfl
  all_goals exact .main rfl (any_splice_eq_leavesCode hentry)

theorem exists_parts_of_sections {body : List Node} {made : Sections}
    (h : sections ctx body = .ok made) :
    ∃ parts, List.Forall₂ Adds body parts ∧ made = .ofParts parts := by
  obtain ⟨parts, hparts, rfl⟩ := map_eq_ok.mp h
  exact ⟨parts, (mapM_eq_ok.mp hparts).imp fun _ _ => adds_of_part, rfl⟩

end Members

section Parts

variable {body : List Node} {parts : List Part} (h : List.Forall₂ Adds body parts)
include h

theorem exists_textdomain :
    ∀ t ∈ parts.filterMap Part.textdomain?, ∃ name, t = textdomainNode name := by
  induction h with
  | nil => simp
  | cons hadds _ ih => cases hadds <;> simpa [Part.textdomain?] using ih

theorem exists_methodDef :
    ∀ f ∈ parts.filterMap Part.function?, ∃ name names inner, f = .methodDef name names inner := by
  induction h with
  | nil => simp
  | cons hadds _ ih => cases hadds <;> simpa [Part.function?] using ih

/-- The functions become methods under their own names. -/
theorem methodNames_functions :
    (parts.filterMap Part.function?).filterMap Ruby.Node.methodName? = functionNames body := by
  induction h with
  | nil => rfl
  | cons hadds _ ih =>
    cases hadds with
    | textdomain name => exact ih
    | function names inner => exact congrArg (_ :: ·) ih
    | main hname hcode =>
      rw [functionNames, List.filterMap_cons_none hname]
      exact ih

theorem any_mainEntries :
    (parts.flatMap Part.mainEntries).any Option.isSome = body.any addsCode := by
  induction h with
  | nil => rfl
  | cons hadds _ ih =>
    rw [List.flatMap_cons, List.any_append, ih, List.any_cons]
    cases hadds with
    | textdomain name => rfl
    | function names inner => rfl
    | main hname hcode => rw [Part.mainEntries, hcode]

end Parts

/-! ## The class around the members -/

def moduleFile (name : String) (hasMain : Bool) (members : List Ruby.Node) : Ruby.Node :=
  .program (.statements [
    .command none "require" [.string "yast"],
    .moduleDef "Yast" (.statements (
      [.classDef (name ++ "Class") none (.statements members),
        .assign (.constant name) (.command (some (.constant (name ++ "Class"))) "new" [])] ++
      if hasMain then [.command (some (.constant name)) "main" []] else []))])

def moduleMembers (info : BlockInfo) (exportPrivate : Bool) (made : Sections) : List Ruby.Node :=
  [.command none "include" [.constant "Yast"], .command none "extend" [.constant "Exportable"]] ++
    made.textdomains ++
    (if made.main.any Option.isSome then [mainMethod made.main] else []) ++
    made.functions ++
    info.symbols.filterMap (publishCall exportPrivate)

theorem moduleProgram_eq (name : String) (info : BlockInfo) (exportPrivate : Bool)
    (made : Sections) :
    moduleProgram name info exportPrivate made =
      moduleFile name (made.main.any Option.isSome) (moduleMembers info exportPrivate made) := rfl

theorem classMembers_moduleFile (name : String) (hasMain : Bool) (members : List Ruby.Node) :
    (moduleFile name hasMain members).classMembers = members := by
  cases hasMain <;>
    simp [moduleFile, Ruby.Node.classMembers, Ruby.Node.membersInModule, Ruby.Node.command]

theorem keepMembers_moduleFile (test : Ruby.Node → Bool) (name : String) (hasMain : Bool)
    (members : List Ruby.Node) :
    (moduleFile name hasMain members).keepMembers test =
      moduleFile name hasMain (members.filter test) := by
  cases hasMain <;>
    simp [moduleFile, Ruby.Node.keepMembers, Ruby.Node.keepInModule, Ruby.Node.keepInClass,
      Ruby.Node.command]

def clientMembers (made : Sections) : List Ruby.Node :=
  made.textdomains ++ [mainMethod (withResult made.main)] ++ made.functions

theorem classMembers_clientProgram (className : String) (made : Sections) :
    (clientProgram className made).classMembers = clientMembers made := by
  simp [clientProgram, Ruby.Node.classMembers, Ruby.Node.membersInModule, Ruby.Node.command,
    clientMembers]

/-! ## Methods -/

section Methods

variable {body : List Node} {parts : List Part} (h : List.Forall₂ Adds body parts)
include h

theorem methodNames_textdomains :
    (parts.filterMap Part.textdomain?).filterMap Ruby.Node.methodName? = [] := by
  rw [List.filterMap_eq_nil_iff]
  intro t ht
  obtain ⟨name, rfl⟩ := exists_textdomain h t ht
  rfl

/-- The methods of a module: `main` if there is code for it, and the functions. -/
theorem methodNames_moduleProgram (name : String) (info : BlockInfo) (exportPrivate : Bool) :
    (moduleProgram name info exportPrivate (.ofParts parts)).methodNames =
      (if body.any addsCode then ["main"] else []) ++ functionNames body := by
  have hexports : (info.symbols.filterMap (publishCall exportPrivate)).filterMap
      Ruby.Node.methodName? = [] := by
    rw [List.filterMap_eq_nil_iff]
    intro r hr
    obtain ⟨symbol, -, hsymbol⟩ := List.mem_filterMap.mp hr
    unfold publishCall at hsymbol
    split at hsymbol
    · obtain ⟨kind, -, rfl⟩ := Option.map_eq_some_iff.mp hsymbol
      rfl
    · cases hsymbol
  rw [Ruby.Node.methodNames, moduleProgram_eq, classMembers_moduleFile, moduleMembers]
  simp only [Sections.ofParts, List.filterMap_append, methodNames_textdomains h,
    methodNames_functions h, any_mainEntries h, hexports]
  cases body.any addsCode <;> simp [Ruby.Node.methodName?, Ruby.Node.command, mainMethod]

/-- The methods of a client: `main` and the functions. -/
theorem methodNames_clientProgram (className : String) :
    (clientProgram className (.ofParts parts)).methodNames = "main" :: functionNames body := by
  rw [Ruby.Node.methodNames, classMembers_clientProgram, clientMembers]
  simp only [Sections.ofParts, List.filterMap_append, methodNames_textdomains h,
    methodNames_functions h]
  rfl

end Methods

def hasMain (info : BlockInfo) (body : List Node) : Bool :=
  info.kind = .file || body.any addsCode

theorem methodNames_of_unit {settings : Settings} {info : BlockInfo} {body : List Node}
    {r : Ruby.Node} (hkind : info.kind = .module ∨ info.kind = .file)
    (h : unit settings (.block (.mk info body)) = .ok r) :
    r.methodNames = (if hasMain info body then ["main"] else []) ++ functionNames body := by
  rcases hkind with hkind | hkind
  · simp only [unit, hkind, moduleUnit] at h
    split at h
    · cases h
    · obtain ⟨made, hmade, rfl⟩ := map_eq_ok.mp h
      obtain ⟨parts, hparts, rfl⟩ := exists_parts_of_sections hmade
      rw [methodNames_moduleProgram hparts]
      simp [hasMain, hkind]
  · simp only [unit, hkind, clientUnit] at h
    split at h
    · cases h
    · simp only [bind_eq_ok, pure_eq_ok] at h
      obtain ⟨className, -, made, hmade, rfl⟩ := h
      obtain ⟨parts, hparts, rfl⟩ := exists_parts_of_sections hmade
      rw [methodNames_clientProgram hparts]
      simp [hasMain, hkind]

/-- The methods of a generated class have different names exactly if no function is called `main`,
or nothing else makes a `main`: the file is a module in which no other statement leaves code. -/
theorem methodNames_nodup_iff {settings : Settings} {info : BlockInfo} {body : List Node}
    {r : Ruby.Node} (hkind : info.kind = .module ∨ info.kind = .file)
    (hfunctions : (functionNames body).Nodup)
    (h : unit settings (.block (.mk info body)) = .ok r) :
    r.methodNames.Nodup ↔
      ("main" ∈ functionNames body →
        info.kind = .module ∧ ∀ s ∈ body, sectionOf? s = some .main → leavesCode s = false) := by
  have hmain : hasMain info body = false ↔
      info.kind = .module ∧ ∀ s ∈ body, sectionOf? s = some .main → leavesCode s = false := by
    rcases hkind with hkind | hkind <;> simp [hasMain, hkind, addsCode]
  rw [methodNames_of_unit hkind h, ← hmain]
  cases hasMain info body with
  | true => simp [hfunctions]
  | false => simpa using hfunctions

def mainFunction : Node :=
  .funDef "main" [] (.mk { kind := .function } [.ret none])

def quietModule : List Node :=
  [.includeFile "quiet.ycp" true, .block (.mk { kind := .stmt } [.typedef]), mainFunction]

theorem quietModule_methodNames_nodup :
    (functionNames quietModule).Nodup ∧
      ∃ r, unit {} (.block (.mk { kind := .module, name := some "Quiet" } quietModule)) = .ok r ∧
        r.methodNames.Nodup := by
  have hfunctions : (functionNames quietModule).Nodup := by decide
  have hunit : ∃ r, unit {} (.block (.mk { kind := .module, name := some "Quiet" } quietModule)) =
      .ok r := ⟨_, rfl⟩
  have hquiet : ∀ s ∈ quietModule, sectionOf? s = some .main → leavesCode s = false := by
    simp [quietModule, mainFunction, sectionOf?, leavesCode, anyLeavesCode]
  obtain ⟨r, hr⟩ := hunit
  exact ⟨hfunctions, r, hr,
    (methodNames_nodup_iff (Or.inl rfl) hfunctions hr).mpr fun _ => ⟨rfl, hquiet⟩⟩

def busyClient : List Node :=
  [.importModule "Popup", mainFunction]

/-- The class has two methods `main`, and in Ruby the second one replaces the first, which holds the
statements of the client. -/
theorem busyClient_defines_main_twice :
    (functionNames busyClient).Nodup ∧
      ∃ r, unit {} (.block (.mk { kind := .file, filename := some "busy.ycp" } busyClient)) =
        .ok r ∧ r.methodNames = ["main", "main"] ∧ ¬ r.methodNames.Nodup := by
  have hfunctions : (functionNames busyClient).Nodup := by decide
  refine ⟨hfunctions, _, rfl, ?_⟩
  decide

/-! ## Exports -/

theorem filter_exports (symbols : List Ycp.Symbol) :
    (symbols.filterMap (publishCall true)).filter (fun member => !member.isPrivateExport) =
      symbols.filterMap (publishCall false) := by
  rw [List.filter_filterMap]
  apply List.filterMap_congr
  intro symbol _
  cases hglobal : symbol.isGlobal <;> cases hcategory : symbol.category <;>
    simp [publishCall, hglobal, hcategory, publishedKind?] <;> rfl

theorem filter_moduleMembers {made : Sections}
    (htextdomains : ∀ t ∈ made.textdomains, t.isPrivateExport = false)
    (hfunctions : ∀ f ∈ made.functions, f.isPrivateExport = false) (info : BlockInfo) :
    (moduleMembers info true made).filter (fun member => !member.isPrivateExport) =
      moduleMembers info false made := by
  have hkept {members : List Ruby.Node} (h : ∀ m ∈ members, m.isPrivateExport = false) :
      members.filter (fun member => !member.isPrivateExport) = members := by
    rw [List.filter_eq_self]
    intro m hm
    rw [h m hm]
    rfl
  simp only [moduleMembers, List.filter_append, hkept htextdomains, hkept hfunctions,
    filter_exports]
  cases made.main.any Option.isSome <;> rfl

/-- Only the exports of a module are affected by what is exported. -/
theorem moduleProgram_without_exportPrivate {ctx : Context} {body : List Node} {made : Sections}
    (h : sections ctx body = .ok made) (name : String) (info : BlockInfo) :
    moduleProgram name info false made =
      (moduleProgram name info true made).withoutPrivateExports := by
  obtain ⟨parts, hparts, rfl⟩ := exists_parts_of_sections h
  rw [moduleProgram_eq, moduleProgram_eq, Ruby.Node.withoutPrivateExports, keepMembers_moduleFile,
    filter_moduleMembers]
  · intro t ht
    obtain ⟨text, rfl⟩ := exists_textdomain hparts t ht
    rfl
  · intro f hf
    obtain ⟨_, _, _, rfl⟩ := exists_methodDef hparts f hf
    rfl

section Settings

variable {a b : Context} (h : a.frames = b.frames)
include h

theorem sameIn_of_frames_eq (n : Node) : (reading n).SameIn a b :=
  indifferent (fun _ _ _ _ _ => trivial) a b (Context.alike_of_frames_eq h fun _ => True)

theorem sections_inside_congr (frame : Scope.Frame) (body : List Node) :
    sections (a.inside frame) body = sections (b.inside frame) body := by
  have hinside : (a.inside frame).frames = (b.inside frame).frames := by
    rw [Context.inside, Context.inside, h]
  have hparts : body.mapM (part (a.inside frame)) = body.mapM (part (b.inside frame)) := by
    apply mapM_congr
    intro n _
    rw [part_eq, part_eq, (sameIn_of_frames_eq hinside n).statement]
  rw [sections, sections, hparts]

theorem clientUnit_congr (info : BlockInfo) (body : List Node) :
    clientUnit info body a = clientUnit info body b := by
  simp only [clientUnit, sections_inside_congr h]

theorem moduleUnit_without_exportPrivate (ha : a.exportPrivate = false)
    (hb : b.exportPrivate = true) (info : BlockInfo) (body : List Node) :
    moduleUnit info body a = Ruby.Node.withoutPrivateExports <$> moduleUnit info body b := by
  simp only [moduleUnit, sections_inside_congr h, ha, hb]
  cases info.name with
  | none => rfl
  | some name =>
    cases hmade : sections (b.inside (.block info)) body with
    | error failure => rfl
    | ok made => exact congrArg Except.ok (moduleProgram_without_exportPrivate hmade name info)

end Settings

def isModule : Node → Bool
  | .block body => body.info.kind = .module
  | _ => false

/-- Private exports are all that the setting adds: without it the same file fails with the same
cause or becomes the same program, less the private exports in the class of a module. -/
theorem unit_without_exportPrivate (n : Node) :
    unit { exportPrivate := false } n =
      if isModule n then
        Ruby.Node.withoutPrivateExports <$> unit { exportPrivate := true } n
      else unit { exportPrivate := true } n := by
  have hframes : ({ exportPrivate := false } : Context).frames =
      ({ exportPrivate := true } : Context).frames := rfl
  have hfragment := (sameIn_of_frames_eq hframes n).statement
  cases n
  case block block =>
    obtain ⟨info, body⟩ := block
    cases hkind : info.kind
    case module =>
      simp only [unit, isModule, Block.info, hkind]
      exact moduleUnit_without_exportPrivate hframes rfl rfl info body
    case file =>
      simp only [unit, isModule, Block.info, hkind]
      exact clientUnit_congr hframes info body
    all_goals
      simp only [unit, isModule, Block.info, hkind, hfragment]
      rfl
  all_goals
    simp only [unit, isModule, hfragment]
    rfl

end Generate

end YcpToRuby
