import YcpToRuby.Proofs.Generate.Success
import YcpToRuby.Proofs.Scope.Nesting

/-!
# The variables of a call by reference

A call with reference arguments keeps a holder for each of them and its own result in variables that
the program did not declare. Their names are made from the bare names of the targets and of the
function. So two targets that differ in the namespace alone share a holder, and a declared variable
can have the name of a holder or of the result. Both are characterized exactly, and with them the
case in which the call writes nothing of the program but its targets.
-/

set_option autoImplicit false

namespace YcpToRuby.Scope

/-! ## Names of instance variables -/

theorem needsEscape_at (name : String) : needsEscape ("@" ++ name) = false := by
  have hwords : ∀ word ∈ Ruby.reservedWords, word.toList.head? ≠ some '@' := by decide
  have hfree : Ruby.isReserved ("@" ++ name) = false := by
    rw [Ruby.isReserved, List.contains_eq_mem, decide_eq_false_iff_not]
    intro hmem
    exact hwords _ hmem (by simp)
  have hupper : Text.isUppercase '@' = false := by decide +kernel
  simp [needsEscape, hfree, hupper]

/-- Escaping puts no `@` in front. -/
theorem escape_eq_at_iff {base name : String} : escape base = "@" ++ name ↔ base = "@" ++ name := by
  have hat : escape ("@" ++ name) = "@" ++ name := by simp [escape, needsEscape_at]
  constructor
  · intro h
    exact escape_injective (h.trans hat.symm)
  · rintro rfl
    exact hat

namespace Context

def Declares (ctx : Context) (name : String) : Prop :=
  name ∈ ctx.locals ∨ name ∈ ctx.globals

def Takes (ctx : Context) (base : String) : Prop :=
  ctx.locals.count base = 1 ∨
    ∃ name, base = "@" ++ name ∧ ctx.isGlobal name = true ∧ ctx.globals.count name = 1

theorem resolve_eq_of_isGlobal {ctx : Context} {name : String} (h : ctx.isGlobal name = true) :
    ctx.resolve name = "@" ++ suffixed name ctx.globals := by
  simp [resolve, h, globalName]

theorem resolve_eq_of_isLocal {ctx : Context} {name : String} (h : name ∈ ctx.locals) :
    ctx.resolve name = escape (suffixed name ctx.locals) := by
  have hlocal : ctx.isLocal name = true := isLocal_eq_true_iff.mpr h
  simp [resolve, isGlobal, hlocal, localName]

theorem Declares.cases {ctx : Context} {name : String} (h : ctx.Declares name) :
    name ∈ ctx.locals ∨ ctx.isGlobal name = true := by
  by_cases hlocal : name ∈ ctx.locals
  · exact Or.inl hlocal
  · have hglobal := h.resolve_left hlocal
    exact Or.inr (isGlobal_eq_true_iff.mpr ⟨hlocal, hglobal⟩)

theorem mem_globals_of_isGlobal {ctx : Context} {name : String} (h : ctx.isGlobal name = true) :
    name ∈ ctx.globals :=
  (isGlobal_eq_true_iff.mp h).2

theorem exists_resolve_eq_iff (ctx : Context) {base : String} (h : EndsPlain base) :
    (∃ name, ctx.Declares name ∧ escape base = ctx.resolve name) ↔ ctx.Takes base := by
  constructor
  · rintro ⟨name, hname, heq⟩
    rcases hname.cases with hlocal | hglobal
    · rw [resolve_eq_of_isLocal hlocal, escape_injective.eq_iff] at heq
      rcases suffixed_cases hlocal with ⟨hone, hsuffixed⟩ | ⟨-, n, hsuffixed⟩
      · obtain rfl := heq.trans hsuffixed
        exact Or.inl hone
      · exact absurd (heq.trans hsuffixed).symm (numbered_ne_of_endsPlain h name n)
    · rw [resolve_eq_of_isGlobal hglobal, escape_eq_at_iff] at heq
      rcases suffixed_cases (mem_globals_of_isGlobal hglobal) with ⟨hone, hsuffixed⟩ |
        ⟨-, n, hsuffixed⟩
      · rw [hsuffixed] at heq
        exact Or.inr ⟨name, heq, hglobal, hone⟩
      · rw [hsuffixed, numbered, ← String.append_assoc] at heq
        exact absurd heq.symm (numbered_ne_of_endsPlain h ("@" ++ name) n)
  · rintro (hone | ⟨name, rfl, hglobal, hone⟩)
    · have hmem : base ∈ ctx.locals := List.count_pos_iff.mp (by omega)
      refine ⟨base, Or.inl hmem, ?_⟩
      rw [resolve_eq_of_isLocal hmem, suffixed_of_count_le_one (by omega)]
    · refine ⟨name, Or.inr (mem_globals_of_isGlobal hglobal), ?_⟩
      rw [resolve_eq_of_isGlobal hglobal, suffixed_of_count_le_one (by omega), escape_eq_at_iff]

end Context

end YcpToRuby.Scope

namespace YcpToRuby.Generate

open Ruby (Node)
open Scope (Context EndsPlain endsPlain_append)
open Ycp (CallCategory QualifiedName Variable)

/-! ## Temporaries -/

def referenceTarget? : Ycp.Node → Option Variable
  | .reference target => some target
  | _ => none

def referenceTargets (args : List Ycp.Node) : List Variable :=
  args.filterMap referenceTarget?

def temporaryBases (callee : QualifiedName) (targets : List Variable) : List String :=
  targets.map (fun target => target.name.name ++ "_ref") ++ [callee.name ++ "_result"]

def temporaries (callee : QualifiedName) (targets : List Variable) : List String :=
  targets.map holderName ++ [resultName callee]

theorem temporaries_eq_map (callee : QualifiedName) (targets : List Variable) :
    temporaries callee targets = (temporaryBases callee targets).map Scope.escape := by
  rw [temporaryBases, List.map_append, List.map_map]
  rfl

theorem endsPlain_of_mem_temporaryBases {callee : QualifiedName} {targets : List Variable}
    {base : String} (h : base ∈ temporaryBases callee targets) : EndsPlain base := by
  have href : EndsPlain "_ref" := by simp [EndsPlain]
  have hresult : EndsPlain "_result" := by simp [EndsPlain]
  simp only [temporaryBases, List.mem_append, List.mem_map, List.mem_singleton] at h
  rcases h with ⟨target, -, rfl⟩ | rfl
  · exact endsPlain_append href (by decide) _
  · exact endsPlain_append hresult (by decide) _

structure Hygienic (ctx : Context) (callee : QualifiedName) (targets : List Variable) : Prop where
  holders : ∀ s ∈ targets, ∀ t ∈ targets, s.name ≠ t.name → holderName s ≠ holderName t
  fresh : ∀ temporary ∈ temporaries callee targets, ∀ name, ctx.Declares name →
    temporary ≠ ctx.resolve name

theorem holderName_eq_iff {s t : Variable} :
    holderName s = holderName t ↔ s.name.name = t.name.name := by
  rw [holderName, holderName, Scope.escape_injective.eq_iff]
  simp

theorem holders_distinct_iff {targets : List Variable} :
    (∀ s ∈ targets, ∀ t ∈ targets, s.name ≠ t.name → holderName s ≠ holderName t) ↔
      ∀ s ∈ targets, ∀ t ∈ targets, s.name.name = t.name.name → s.name.ns = t.name.ns := by
  have hname (s t : Variable) :
      s.name = t.name ↔ s.name.ns = t.name.ns ∧ s.name.name = t.name.name := by
    rcases s with ⟨⟨_, _⟩, _, _⟩
    rcases t with ⟨⟨_, _⟩, _, _⟩
    simp
  simp only [ne_eq, holderName_eq_iff, hname]
  grind

theorem temporaries_fresh_iff {ctx : Context} {callee : QualifiedName} {targets : List Variable} :
    (∀ temporary ∈ temporaries callee targets, ∀ name, ctx.Declares name →
        temporary ≠ ctx.resolve name) ↔
      ∀ base ∈ temporaryBases callee targets, ¬ ctx.Takes base := by
  rw [temporaries_eq_map, List.forall_mem_map]
  refine forall₂_congr fun base hbase => ?_
  rw [← ctx.exists_resolve_eq_iff (endsPlain_of_mem_temporaryBases hbase)]
  simp

/-! ## What a call writes -/

def assigned? : Node → Option Node
  | .assign target _ => some target
  | _ => none

def assignedIn : Node → List Node
  | .group items => items.filterMap assigned?
  | _ => []

def Argument.target? : Argument → Option Variable
  | .value _ => none
  | .reference target => some target

theorem assigned?_copyIn (ctx : Context) (arg : Argument) :
    (copyIn ctx arg).bind assigned? = arg.target?.map fun t => .var (holderName t) := by
  cases arg <;> rfl

theorem assigned?_copyOut (ctx : Context) (arg : Argument) :
    (copyOut ctx arg).bind assigned? = arg.target?.map fun t => assignmentTarget ctx t.name := by
  cases arg <;> rfl

theorem assignedIn_referenceCall (ctx : Context) (callee : QualifiedName)
    (category : CallCategory) (args : List Argument) :
    assignedIn (referenceCall ctx callee category args) =
      (temporaries callee (args.filterMap Argument.target?)).map Node.var ++
        (args.filterMap Argument.target?).map fun t => assignmentTarget ctx t.name := by
  have hresult : assigned? (.var (resultName callee)) = none := rfl
  have hcall (call : Node) : assigned? (.assign (.var (resultName callee)) call) =
      some (.var (resultName callee)) := rfl
  simp only [assignedIn, referenceCall, temporaries, List.filterMap_append,
    List.filterMap_filterMap, assigned?_copyIn, assigned?_copyOut, List.filterMap_cons,
    List.filterMap_nil, hcall, hresult, List.map_append, List.map_filterMap, List.map_cons,
    List.map_nil, List.append_nil, Option.map_map]
  rfl

theorem target?_of_argument {ctx : Context} {n : Ycp.Node} {arg : Argument}
    (h : argument ctx (reading n) = .ok arg) : arg.target? = referenceTarget? n := by
  unfold argument at h
  rw [node_reading] at h
  split at h
  · cases h
    rfl
  · rename_i hnot
    obtain ⟨v, -, rfl⟩ := map_eq_ok.mp h
    unfold referenceTarget?
    split
    · exact absurd rfl (hnot _)
    · rfl

theorem targets_of_arguments {ctx : Context} {nodes : List Ycp.Node} {args : List Argument}
    (h : (readings nodes).mapM (argument ctx) = .ok args) :
    args.filterMap Argument.target? = referenceTargets nodes := by
  rw [readings_eq_map, mapM_eq_ok, List.forall₂_map_left_iff] at h
  induction h with
  | nil => rfl
  | cons hfirst _ ih =>
    simp only [referenceTargets, List.filterMap_cons, target?_of_argument hfirst] at ih ⊢
    rw [ih]

theorem any_isReference (args : List Argument) :
    args.any Argument.isReference = !(args.filterMap Argument.target?).isEmpty := by
  induction args with
  | nil => rfl
  | cons arg args ih =>
    cases arg <;> simp [Argument.isReference, Argument.target?, List.filterMap_cons, ih]

/-- A call by reference writes its temporaries and its targets. -/
theorem assignedIn_of_call {ctx : Context} {callee : QualifiedName} {category : CallCategory}
    {type : Option String} {args : List Ycp.Node} {r : Node}
    (h : (reading (.call callee category type args)).value ctx = .ok r)
    (href : referenceTargets args ≠ []) :
    assignedIn r = (temporaries callee (referenceTargets args)).map Node.var ++
      (referenceTargets args).map fun t => assignmentTarget ctx t.name := by
  simp only [reading, Reading.expression, map_eq_ok] at h
  obtain ⟨arguments, harguments, rfl⟩ := h
  have htargets := targets_of_arguments harguments
  have hany : arguments.any Argument.isReference = true := by
    simpa [any_isReference, htargets] using href
  rw [callWith, if_pos hany, assignedIn_referenceCall, htargets]

/-- The temporaries of a call by reference are its own exactly when targets of one name have one
namespace and no variable of the program has the name of a temporary. Then the call writes no
variable of the program but its targets. -/
theorem temporaries_hygienic_iff {ctx : Context} {callee : QualifiedName}
    {category : CallCategory} {type : Option String} {args : List Ycp.Node} {r : Node}
    (h : (reading (.call callee category type args)).value ctx = .ok r)
    (href : referenceTargets args ≠ []) :
    (Hygienic ctx callee (referenceTargets args) ↔
      (∀ s ∈ referenceTargets args, ∀ t ∈ referenceTargets args,
          s.name.name = t.name.name → s.name.ns = t.name.ns) ∧
        ∀ base ∈ temporaryBases callee (referenceTargets args), ¬ ctx.Takes base) ∧
    (Hygienic ctx callee (referenceTargets args) →
      ∀ name, ctx.Declares name → .var (ctx.resolve name) ∈ assignedIn r →
        ∃ t ∈ referenceTargets args, assignmentTarget ctx t.name = .var (ctx.resolve name)) := by
  refine ⟨⟨fun hygienic => ?_, fun hstatic => ?_⟩, fun hygienic name hname hwritten => ?_⟩
  · exact ⟨holders_distinct_iff.mp hygienic.holders, temporaries_fresh_iff.mp hygienic.fresh⟩
  · exact ⟨holders_distinct_iff.mpr hstatic.1, temporaries_fresh_iff.mpr hstatic.2⟩
  · rw [assignedIn_of_call h href, List.mem_append] at hwritten
    rcases hwritten with htemporary | htarget
    · obtain ⟨temporary, hmem, heq⟩ := List.mem_map.mp htemporary
      exact absurd (Node.var.inj heq) (hygienic.fresh temporary hmem name hname)
    · exact List.mem_map.mp htarget

def referring : Context :=
  { frames := [.function "g" [⟨false, .reference, "integer &", "n"⟩]
      { kind := .function, symbols := [⟨false, .var, "integer", "x"⟩] }] }

def swapCall : List Ycp.Node :=
  [.reference ⟨⟨none, "x"⟩, .var, none⟩, .const .int (some "1"),
    .reference ⟨⟨none, "n"⟩, .reference, none⟩, .reference ⟨⟨some "M", "y"⟩, .var, none⟩]

theorem swapCall_writes_targets_only :
    ∃ r, (reading (.call ⟨none, "f"⟩ .function none swapCall)).value referring = .ok r ∧
      Hygienic referring ⟨none, "f"⟩ (referenceTargets swapCall) ∧
      ∀ name, referring.Declares name → .var (referring.resolve name) ∈ assignedIn r →
        ∃ t ∈ referenceTargets swapCall,
          assignmentTarget referring t.name = .var (referring.resolve name) := by
  have hvalue : ∃ r, (reading (.call ⟨none, "f"⟩ .function none swapCall)).value referring =
      .ok r := ⟨_, rfl⟩
  obtain ⟨r, hr⟩ := hvalue
  have hresult := temporaries_hygienic_iff hr (by decide)
  have hygienic : Hygienic referring ⟨none, "f"⟩ (referenceTargets swapCall) := by
    refine hresult.1.mpr ⟨by decide, ?_⟩
    have hnone : ∀ base ∈ temporaryBases ⟨none, "f"⟩ (referenceTargets swapCall),
        referring.locals.count base ≠ 1 := by decide
    have hglobals : referring.globals = [] := by decide
    rintro base hbase (hone | ⟨name, -, -, hone⟩)
    · exact hnone base hbase hone
    · simp [hglobals] at hone
  exact ⟨r, hr, hygienic, hresult.2 hygienic⟩

def holding : Context :=
  { frames := [Scope.Context.variableFunction ["x", "x_ref"]] }

def doubleCall : List Ycp.Node :=
  [.reference ⟨⟨none, "x"⟩, .var, none⟩, .reference ⟨⟨some "M", "x"⟩, .var, none⟩]

/-- Both arguments get the holder `x_ref`, and that is a variable of the function. -/
theorem doubleCall_holder_shared_and_taken :
    ∃ r, (reading (.call ⟨none, "f"⟩ .function none doubleCall)).value holding = .ok r ∧
      (∃ s ∈ referenceTargets doubleCall, ∃ t ∈ referenceTargets doubleCall,
        s.name ≠ t.name ∧ holderName s = holderName t) ∧
      (∃ temporary ∈ temporaries ⟨none, "f"⟩ (referenceTargets doubleCall),
        holding.Declares "x_ref" ∧ temporary = holding.resolve "x_ref") := by
  refine ⟨_, rfl, ⟨⟨⟨none, "x"⟩, .var, none⟩, by decide, ⟨⟨some "M", "x"⟩, .var, none⟩,
    by decide, by decide, rfl⟩, "x_ref", by decide +kernel, Or.inl (by decide), by decide +kernel⟩

end YcpToRuby.Generate
