import YcpToRuby.Conversion
import YcpToRuby.Proofs.Generate.ClientName
import YcpToRuby.Proofs.Generate.Faults
import YcpToRuby.Proofs.Number.Decimal
import YcpToRuby.Proofs.Text.Separator
import YcpToRuby.Proofs.Ycp.Encode

/-!
# The programs that have a translation

Generation succeeds exactly on the programs that meet its static conditions. The conditions are read
off the program alone: each is about one kind of node, and where it depends on the surroundings it
speaks of the path to the node.
-/

set_option autoImplicit false

namespace YcpToRuby.Generate

open Scope (Clause)
open Ycp (Block BlockInfo Node Occurs Position decode occurs_nil)

/-! ## Texts of constants and names -/

def KnownBuiltin (name : String) : Prop :=
  ¬ [':', ':'] <:+: name.toList ∨
    ∃ ns ∈ ["SCR", "WFM", "float", "list", "multiset"], ∃ after,
      name.toList = ns.toList ++ ':' :: ':' :: after ∧ ¬ [':', ':'] <:+: ':' :: after

theorem lookup_builtinNamespaces_isSome_iff (ns : String) :
    (builtinNamespaces.lookup ns).isSome ↔ ns ∈ ["SCR", "WFM", "float", "list", "multiset"] := by
  rw [← not_iff_not, Option.not_isSome_iff_eq_none, List.lookup_eq_none_iff]
  simp [builtinNamespaces]

theorem builtinReceiver_eq_error_iff (name : String) :
    (∃ f, builtinReceiver name = .error f) ↔ ¬ KnownBuiltin name := by
  unfold builtinReceiver KnownBuiltin
  split
  · rename_i hcut
    simp [(Text.cutLast_eq_none_iff _).mp hcut]
  · rename_i before after hcut
    obtain ⟨hname, hlast⟩ := Text.of_cutLast_eq_some hcut
    have hknown := lookup_builtinNamespaces_isSome_iff (String.ofList before)
    have hseparated : [':', ':'] <:+: name.toList := ⟨before, after, by simp [hname]⟩
    simp only [hseparated, not_true_eq_false, false_or]
    split
    · rename_i hfound
      rw [hfound] at hknown
      simp only [reduceCtorEq, exists_false, false_iff, not_not]
      exact ⟨_, hknown.mp rfl, after, by simpa using hname, (Text.cutLast_eq_none_iff _).mp hlast⟩
    · rename_i hfound
      rw [hfound] at hknown
      simp only [invalid, Except.error.injEq, exists_eq', true_iff]
      rintro ⟨ns, hns, rest, hrest, hnone⟩
      rw [hrest, Text.cutLast_append _ ((Text.cutLast_eq_none_iff _).mpr hnone)] at hcut
      cases hcut
      rw [String.ofList_toList] at hknown
      exact absurd (hknown.mpr hns) (by simp)

theorem booleanNode_eq_error_iff (text : String) :
    (∃ f, booleanNode text = .error f) ↔ ¬ (text = "true" ∨ text = "false") := by
  unfold booleanNode
  split
  · simp_all
  · split <;> simp_all [invalid]

theorem integerNode_eq_error_iff (text : String) :
    (∃ f, integerNode text = .error f) ↔ ¬ Number.IsSigned64 text := by
  rw [← Number.signed64?_isSome_iff]
  unfold integerNode
  split <;> simp_all [invalid]

theorem floatNode_eq_error_iff (text : String) :
    (∃ f, floatNode text = .error f) ↔
      ¬ ∃ value, Number.binary64? text = some value ∧ value.isFinite := by
  unfold floatNode
  split
  · split <;> simp_all [invalid]
  · simp_all [invalid]

/-! ## The static conditions -/

structure Translatable (n : Node) : Prop where
  moduleName : ∀ block, n = .block block → block.info.kind = .module → block.info.name.isSome
  clientFile : ∀ block, n = .block block → block.info.kind = .file →
    ∃ filename, block.info.filename = some filename ∧ NamesClass filename
  innerBlock : ∀ block path, Occurs (.block block) path n → path ≠ [] →
    block.info.kind ≠ .module ∧ block.info.kind ≠ .file
  boolean : ∀ text path, Occurs (.const .bool (some text)) path n → text = "true" ∨ text = "false"
  integer : ∀ text path, Occurs (.const .int (some text)) path n → Number.IsSigned64 text
  float : ∀ text path, Occurs (.const .float (some text)) path n →
    ∃ value, Number.binary64? text = some value ∧ value.isFinite
  builtin : ∀ name args closure path, Occurs (.builtin name args closure) path n →
    KnownBuiltin name
  functionType : ∀ target path, Occurs (.var target) path n ∨
    (∃ index value, Occurs (.bracket target index value) path n) →
      target.category = .function → target.type.isSome
  reference : ∀ target path, Occurs (.reference target) path n → path.head? = some .argument
  value : ∀ m pos path, Occurs m (pos :: path) n → pos.isValue → m.isValue
  function : ∀ name params body path, Occurs (.funDef name params body) path n →
    ¬ InsideFunction path
  clauseEnd : ∀ condition cases default path, Occurs (.switch condition cases default) path n →
    ∀ c ∈ cases, EndsClause c.2.statements
  clauseBreak : ∀ path, Occurs .breakLoop path n →
    (∃ clause info, path.head? = some (.clauseEnd clause info)) ∨
      ∀ clause, path.findSome? Position.capture? ≠ some (.clause clause)

theorem Translatable.constant_ne_error {n : Node} (h : Translatable n) {type : Ycp.ConstType}
    {value : Option String} {path : List Position} (hm : Occurs (.const type value) path n)
    (hvalue : type ≠ .void → value.isSome) (f : Failure) : constant type value ≠ .error f := by
  intro hfault
  cases type
  case void => cases hfault
  case bool =>
    obtain ⟨text, rfl⟩ := Option.isSome_iff_exists.mp (hvalue (by simp))
    exact (booleanNode_eq_error_iff text).mp ⟨f, hfault⟩ (h.boolean text path hm)
  case int =>
    obtain ⟨text, rfl⟩ := Option.isSome_iff_exists.mp (hvalue (by simp))
    exact (integerNode_eq_error_iff text).mp ⟨f, hfault⟩ (h.integer text path hm)
  case float =>
    obtain ⟨text, rfl⟩ := Option.isSome_iff_exists.mp (hvalue (by simp))
    exact (floatNode_eq_error_iff text).mp ⟨f, hfault⟩ (h.float text path hm)
  case symbol | string | path =>
    obtain ⟨text, rfl⟩ := Option.isSome_iff_exists.mp (hvalue (by simp))
    cases hfault

/-- A file of its own has no fault exactly when it is named: a module by its name, and a client by
its file. -/
theorem forall_not_unitFault_iff (info : BlockInfo) :
    (∀ f, ¬ UnitFault info f) ↔
      (info.kind = .module → info.name.isSome) ∧
        (info.kind = .file →
          ∃ filename, info.filename = some filename ∧ NamesClass filename) := by
  unfold UnitFault
  cases info.kind with
  | module => simp [Option.isSome_iff_ne_none]
  | file =>
    cases info.filename with
    | none => simp
    | some filename => simpa using not_iff_comm.mp (clientClass_eq_error_iff filename).symm
  | function | stmt | unspec => simp

theorem Translatable.not_ownFault {n : Node} (h : Translatable n) (hn : n.WellFormed) {m : Node}
    {path : List Position} (hm : Occurs m path n) (f : Failure) : ¬ OwnFault path m f := by
  intro hfault
  cases m <;> simp only [OwnFault] at hfault
  case const type value => exact h.constant_ne_error hm (hn _ _ hm) f hfault
  case var target =>
    obtain ⟨hcategory, htype, -⟩ := hfault
    simpa [htype] using h.functionType target path (Or.inl hm) hcategory
  case bracket target index value =>
    obtain ⟨hcategory, htype, -⟩ := hfault
    simpa [htype] using h.functionType target path (Or.inr ⟨index, value, hm⟩) hcategory
  case builtin name args closure =>
    exact (builtinReceiver_eq_error_iff name).mp ⟨f, hfault⟩ (h.builtin _ _ _ _ hm)
  case reference target => exact hfault.1 (h.reference target path hm)
  case block block =>
    split at hfault
    · rename_i hroot
      subst hroot
      obtain rfl := occurs_nil.mp hm
      have hnamed := (forall_not_unitFault_iff block.info).mpr
        ⟨h.moduleName block rfl, h.clientFile block rfl⟩
      exact hnamed f hfault
    · rename_i hpath
      obtain ⟨hmodule, hclient⟩ := h.innerBlock block path hm hpath
      simp [isFile, hmodule, hclient] at hfault
  case breakLoop =>
    obtain ⟨hend, clause, hclause, -⟩ := hfault
    rcases h.clauseBreak path hm with ⟨clause', info, hhead⟩ | hnone
    · exact hend clause' info hhead
    · exact hnone clause hclause
  case switch condition cases default =>
    obtain ⟨c, hc, hend, -⟩ := hfault
    exact hend (h.clauseEnd _ _ _ _ hm c hc)
  case funDef name params body =>
    rcases hfault with ⟨hinside, -⟩ | ⟨hkind, -⟩
    · exact h.function _ _ _ _ hm hinside
    · exact hkind (hn _ _ hm)

theorem Translatable.not_fault {n : Node} (h : Translatable n) (hn : n.WellFormed) {m : Node}
    {path : List Position} (hm : Occurs m path n) (f : Failure) : ¬ Fault path m f := by
  rintro (⟨hpos, hvalue, -⟩ | hfault)
  · cases path with
    | nil => simp at hpos
    | cons pos path =>
      rw [h.value m pos path hm (by simpa using hpos)] at hvalue
      cases hvalue
  · exact h.not_ownFault hn hm f hfault

theorem translatable_of_not_fault {n : Node}
    (h : ∀ m path, Occurs m path n → ∀ f, ¬ Fault path m f) : Translatable n := by
  have hown {m : Node} {path : List Position} (hm : Occurs m path n) :
      ¬ ∃ f, OwnFault path m f := by
    rintro ⟨f, hfault⟩
    exact h m path hm f (Or.inr hfault)
  have hnamed (block : Block) (hn : n = .block block) : ∀ f, ¬ UnitFault block.info f := by
    subst hn
    exact fun f hfault => hown .here ⟨f, hfault⟩
  exact
    { moduleName := fun block hn => ((forall_not_unitFault_iff _).mp (hnamed block hn)).1
      clientFile := fun block hn => ((forall_not_unitFault_iff _).mp (hnamed block hn)).2
      innerBlock := by
        intro block path hm hpath
        have hfile : isFile block.info ≠ true := by
          intro hfile
          refine hown hm ⟨.invalid (.innerFileBlock block.info.kind), ?_⟩
          simp [OwnFault, hpath, hfile]
        simpa [isFile] using hfile
      boolean := by
        intro text path hm
        by_contra htext
        exact hown hm ((booleanNode_eq_error_iff text).mpr htext)
      integer := by
        intro text path hm
        by_contra htext
        exact hown hm ((integerNode_eq_error_iff text).mpr htext)
      float := by
        intro text path hm
        by_contra htext
        exact hown hm ((floatNode_eq_error_iff text).mpr htext)
      builtin := by
        intro name args closure path hm
        by_contra hname
        exact hown hm ((builtinReceiver_eq_error_iff name).mpr hname)
      functionType := by
        intro target path hm hcategory
        by_contra hnone
        have htype : target.type = none := by simpa using hnone
        rcases hm with hm | ⟨index, value, hm⟩
        · exact hown hm ⟨_, hcategory, htype, rfl⟩
        · exact hown hm ⟨_, hcategory, htype, rfl⟩
      reference := by
        intro target path hm
        by_contra hhead
        exact hown hm ⟨_, hhead, rfl⟩
      value := by
        intro m pos path hm hpos
        by_contra hvalue
        exact h m _ hm _ (Or.inl ⟨by simpa using hpos, by simpa using hvalue, rfl⟩)
      function := by
        intro name params body path hm hinside
        exact hown hm ⟨_, Or.inl ⟨hinside, rfl⟩⟩
      clauseEnd := by
        intro condition cases default path hm c hc
        by_contra hend
        exact hown hm ⟨_, c, hc, hend, rfl⟩
      clauseBreak := by
        intro path hm
        by_contra hbreak
        simp only [not_or, not_exists, not_forall, not_not] at hbreak
        obtain ⟨hend, clause, hclause⟩ := hbreak
        exact hown hm ⟨_, hend, clause, hclause, rfl⟩ }

/-- The conditions hold exactly when no node has a fault. -/
theorem translatable_iff {n : Node} (hn : n.WellFormed) :
    Translatable n ↔ ∀ m path, Occurs m path n → ∀ f, ¬ Fault path m f :=
  ⟨fun h _ _ hm f => h.not_fault hn hm f, translatable_of_not_fault⟩

theorem exists_unit_iff {n : Node} (hn : n.WellFormed) (settings : Settings) :
    (∃ r, unit settings n = .ok r) ↔ Translatable n := by
  rw [(unit_failsBy settings hn).exists_ok_iff, translatable_iff hn]
  constructor
  · intro hnone m path hm f hfault
    exact hnone f ⟨m, path, hm, hfault⟩
  · rintro hnone f ⟨m, path, hm, hfault⟩
    exact hnone m path hm f hfault

/-- Generation succeeds exactly on the programs that meet the static conditions. -/
theorem exists_unit_iff_translatable {tree : Tree} {n : Node} (h : decode tree = .ok n)
    (settings : Settings) : (∃ r, unit settings n = .ok r) ↔ Translatable n :=
  exists_unit_iff (Node.wellFormed_of_decode h) settings

def loopWithSwitch : Node :=
  .loop .whileTrue (.const .bool (some "true"))
    (.block (.mk { kind := .stmt } [
      .switch (.const .int (some "1"))
        [(.const .int (some "-1"), .mk { kind := .stmt } [.breakLoop])]
        (some (.mk { kind := .stmt } [.ret (some (.const .float (some "1.5")))])),
      .builtin "list::reduce" [] (some (.block (.mk { kind := .unspec } [.breakLoop]))),
      .breakLoop]))

theorem translatable_loopWithSwitch :
    decode loopWithSwitch.encode = .ok loopWithSwitch ∧ Translatable loopWithSwitch := by
  have hdecode : decode loopWithSwitch.encode = .ok loopWithSwitch := rfl
  exact ⟨hdecode, (exists_unit_iff_translatable hdecode {}).mp ⟨_, rfl⟩⟩

/-! ## Failures that no text leads to -/

def Failure.isOfIllFormed : Failure → Bool
  | .invalid (.constantWithoutValue _) | .invalid (.functionBody _) => true
  | _ => false

theorem isOfIllFormed_of_constant {type : Ycp.ConstType} {text : String} {f : Failure}
    (h : constant type (some text) = .error f) : f.isOfIllFormed = false := by
  cases type <;> simp only [constant, reduceCtorEq] at h
  case bool =>
    unfold booleanNode at h
    split at h
    · cases h
    · split at h <;> cases h
      rfl
  case int =>
    unfold integerNode at h
    split at h <;> cases h
    rfl
  case float =>
    unfold floatNode at h
    split at h
    · split at h <;> cases h
      rfl
    · cases h
      rfl

theorem isOfIllFormed_of_unitFault {info : Ycp.BlockInfo} {f : Failure} (h : UnitFault info f) :
    f.isOfIllFormed = false := by
  unfold UnitFault at h
  split at h
  · obtain ⟨-, rfl⟩ := h
    rfl
  · split at h
    · subst h
      rfl
    · unfold clientClass at h
      split at h
      · cases h
        rfl
      · split at h <;> cases h
        rfl
  · exact absurd h id

theorem isOfIllFormed_of_fault {path : List Position} {m : Node} {f : Failure} (hm : m.IsSound)
    (h : Fault path m f) : f.isOfIllFormed = false := by
  rcases h with ⟨-, -, rfl⟩ | h
  · rfl
  · cases m <;> simp only [OwnFault] at h
    case const type value =>
      cases value with
      | some text => exact isOfIllFormed_of_constant h
      | none =>
        obtain rfl : type = .void := by
          by_contra hvoid
          simpa using hm hvoid
        cases h
    case var target | bracket target index value =>
      obtain ⟨-, -, rfl⟩ := h
      rfl
    case builtin name args closure =>
      unfold builtinReceiver at h
      split at h
      · cases h
      · simp only at h
        split at h <;> cases h
        rfl
    case reference target =>
      obtain ⟨-, rfl⟩ := h
      rfl
    case block block =>
      split at h
      · exact isOfIllFormed_of_unitFault h
      · obtain ⟨-, rfl⟩ := h
        rfl
    case breakLoop =>
      obtain ⟨-, clause, -, rfl⟩ := h
      rfl
    case switch condition cases default =>
      obtain ⟨c, -, -, rfl⟩ := h
      rfl
    case funDef name params body =>
      rcases h with ⟨-, rfl⟩ | ⟨hkind, -⟩
      · rfl
      · exact absurd hm hkind

theorem exists_unit_of_convert {settings : Settings} {format : Format} {text : String}
    {f : Failure} (h : convert settings format text = .error (.generate f)) :
    ∃ tree n, decode tree = .ok n ∧ unit settings n = .error f := by
  rw [convert, map_eq_error, convertTree, bind_eq_error] at h
  rcases h with h | ⟨n, hread, hunit⟩
  · rw [mapError_eq_error] at h
    obtain ⟨cause, -, hcause⟩ := h
    cases hcause
  · obtain ⟨cause, hunit, hcause⟩ := mapError_eq_error.mp hunit
    cases hcause
    have hread := mapError_eq_ok.mp hread
    simp only [Format.readProgram, bind_eq_ok, mapError_eq_ok] at hread
    obtain ⟨tree, -, hdecode⟩ := hread
    exact ⟨tree, n, hdecode, hunit⟩

/-- Decoding gives exactly the well-formed programs: no other ones, and each of them from its own
tree. So no text leads to the failures that only an ill-formed program could have. -/
theorem decode_gives_exactly_wellFormed :
    (∀ tree n, decode tree = .ok n → n.WellFormed) ∧
      (∀ n : Node, n.WellFormed → decode n.encode = .ok n) ∧
      ∀ settings format text,
        (∀ type, convert settings format text ≠
          .error (.generate (.invalid (.constantWithoutValue type)))) ∧
        ∀ name, convert settings format text ≠
          .error (.generate (.invalid (.functionBody name))) := by
  have hfailure {settings : Settings} {format : Format} {text : String} {f : Failure}
      (h : convert settings format text = .error (.generate f)) : f.isOfIllFormed = false := by
    obtain ⟨tree, n, hdecode, hunit⟩ := exists_unit_of_convert h
    have hn := Node.wellFormed_of_decode hdecode
    obtain ⟨m, path, hm, hfault⟩ := (unit_failsBy settings hn).fault_of_error f hunit
    exact isOfIllFormed_of_fault (hn m path hm) hfault
  refine ⟨fun _ _ => Node.wellFormed_of_decode, fun _ => Node.decode_encode,
    fun settings format text => ⟨fun type h => ?_, fun name h => ?_⟩⟩
  · cases hfailure h
  · cases hfailure h

def moduleWithFunction : Node :=
  .block (.mk { kind := .module, name := some "Greeter" } [
    .importModule "Popup",
    .funDef "greet" [] (.mk { kind := .function } [
      .ret (some (.call { ns := some "Popup", name := "Message" } .function none [
        .const .string (some "Hello")]))])])

theorem wellFormed_moduleWithFunction :
    decode moduleWithFunction.encode = .ok moduleWithFunction ∧ moduleWithFunction.WellFormed := by
  have hdecode : decode moduleWithFunction.encode = .ok moduleWithFunction := rfl
  exact ⟨hdecode, decode_gives_exactly_wellFormed.1 _ _ hdecode⟩

end YcpToRuby.Generate
