import YcpToRuby.Generate.Unit
import YcpToRuby.Proofs.Steps

/-!
# The sections of a class

Each statement of a file belongs to one section of the class, or leaves nothing. A section is made
from its own statements in their order, and from nothing else. So files with the same statements in
every section become the same program, however the sections are interleaved.
-/

set_option autoImplicit false

namespace YcpToRuby.Generate

open Scope (Context)
open Ycp (BlockInfo Node)

inductive Section where
  | textdomains
  | main
  | functions
  deriving DecidableEq, Repr

def sectionOf? : Node → Option Section
  | .textdomain _ => some .textdomains
  | .funDef .. => some .functions
  | .typedef | .filename _ => none
  | _ => some .main

def inSection (s : Section) (body : List Node) : List Node :=
  body.filter fun n => sectionOf? n = some s

def SameSections (xs ys : List Node) : Prop :=
  ∀ s, inSection s xs = inSection s ys

def partOf : Option Section → Option Ruby.Node → Part
  | some .textdomains, some r => .textdomain r
  | some .functions, some r => .function r
  | some .main, entry => .main (splice entry)
  | _, _ => .main []

def Sections.ofEntries (entries : Section → List (Option Ruby.Node)) : Sections where
  textdomains := (entries .textdomains).filterMap id
  main := (entries .main).flatMap splice
  functions := (entries .functions).filterMap id

section Making

variable {ctx : Context}

/-- Every statement is generated like any other one and then put into its section. -/
theorem part_eq (n : Node) : part ctx n = partOf (sectionOf? n) <$> (reading n).statement ctx := by
  cases n
  case funDef name params body =>
    obtain ⟨info, body⟩ := body
    simp only [part, sectionOf?, reading, Reading.solid, Reading.statementOnly]
    cases functionDef name params info (readings body) ctx <;> rfl
  all_goals rfl

def sectionEntries (ctx : Context) (s : Section) (body : List Node) :
    Generated (List (Option Ruby.Node)) :=
  (inSection s body).mapM fun n => (reading n).statement ctx

def addEntry (place : Option Section) (entry : Option Ruby.Node)
    (entries : Section → List (Option Ruby.Node)) (s : Section) : List (Option Ruby.Node) :=
  if place = some s then entry :: entries s else entries s

theorem statement_of_sectionOf?_eq_none {n : Node} (h : sectionOf? n = none) :
    (reading n).statement ctx = .ok none := by
  cases n <;> simp only [sectionOf?, reduceCtorEq] at h <;> rfl

theorem sectionEntries_cons {s : Section} {n : Node} {body : List Node} :
    sectionEntries ctx s (n :: body) =
      if sectionOf? n = some s then do
        return (← (reading n).statement ctx) :: (← sectionEntries ctx s body)
      else sectionEntries ctx s body := by
  by_cases h : sectionOf? n = some s <;> simp [sectionEntries, inSection, h]

theorem sectionEntries_cons_eq_ok {n : Node} {body : List Node}
    {entries : Section → List (Option Ruby.Node)} :
    (∀ s, sectionEntries ctx s (n :: body) = .ok (entries s)) ↔
      ∃ entry, (reading n).statement ctx = .ok entry ∧
        ∃ rest : Section → List (Option Ruby.Node),
          (∀ s, sectionEntries ctx s body = .ok (rest s)) ∧
            entries = addEntry (sectionOf? n) entry rest := by
  constructor
  · intro h
    cases hplace : sectionOf? n with
    | none =>
      refine ⟨none, statement_of_sectionOf?_eq_none hplace, entries, ?_, ?_⟩
      · intro s
        simpa [sectionEntries_cons, hplace] using h s
      · funext s
        simp [addEntry]
    | some place =>
      have hplaced := h place
      simp only [sectionEntries_cons, hplace, if_true, bind_eq_ok, pure_eq_ok] at hplaced
      obtain ⟨entry, hentry, others, hothers, hcons⟩ := hplaced
      refine ⟨entry, hentry, Function.update entries place others, ?_, ?_⟩
      · intro s
        by_cases hs : s = place
        · rw [hs, Function.update_self, hothers]
        · have hne : place ≠ s := fun heq => hs heq.symm
          rw [Function.update_of_ne hs]
          simpa [sectionEntries_cons, hplace, hne] using h s
      · funext s
        by_cases hs : s = place
        · rw [hs, addEntry, if_pos rfl, Function.update_self, hcons]
        · have hne : some place ≠ some s := fun heq => hs (Option.some.inj heq).symm
          rw [addEntry, if_neg hne, Function.update_of_ne hs]
  · rintro ⟨entry, hentry, rest, hrest, rfl⟩ s
    rw [sectionEntries_cons, addEntry]
    by_cases hs : sectionOf? n = some s
    · simp [hs, hentry, hrest]
    · simp [hs, hrest]

theorem ofEntries_addEntry (place : Option Section) (entry : Option Ruby.Node)
    (entries : Section → List (Option Ruby.Node)) :
    Sections.ofEntries (addEntry place entry entries) = {
      textdomains := (partOf place entry).textdomain?.toList ++ (entries .textdomains).filterMap id
      main := (partOf place entry).mainEntries ++ (entries .main).flatMap splice
      functions := (partOf place entry).function?.toList ++
        (entries .functions).filterMap id } := by
  cases place with
  | none => rfl
  | some s => cases s <;> cases entry <;> rfl

theorem sections_cons_eq_ok {n : Node} {body : List Node} {made : Sections} :
    sections ctx (n :: body) = .ok made ↔
      ∃ entry, (reading n).statement ctx = .ok entry ∧
        ∃ rest, sections ctx body = .ok rest ∧ made = {
          textdomains := (partOf (sectionOf? n) entry).textdomain?.toList ++ rest.textdomains
          main := (partOf (sectionOf? n) entry).mainEntries ++ rest.main
          functions := (partOf (sectionOf? n) entry).function?.toList ++ rest.functions } := by
  have hcons (p : Part) (parts : List Part) : Sections.ofParts (p :: parts) = {
      textdomains := p.textdomain?.toList ++ parts.filterMap Part.textdomain?
      main := p.mainEntries ++ parts.flatMap Part.mainEntries
      functions := p.function?.toList ++ parts.filterMap Part.function? } := by
    cases p <;> rfl
  simp only [sections, List.mapM_cons, part_eq, map_eq_ok, bind_eq_ok, pure_eq_ok]
  constructor
  · rintro ⟨_, ⟨_, ⟨entry, hentry, rfl⟩, parts, hparts, rfl⟩, rfl⟩
    exact ⟨entry, hentry, _, ⟨parts, hparts, rfl⟩, hcons _ _⟩
  · rintro ⟨entry, hentry, _, ⟨parts, hparts, rfl⟩, rfl⟩
    exact ⟨_, ⟨_, ⟨entry, hentry, rfl⟩, parts, hparts, rfl⟩, hcons _ _⟩

/-- The sections of a class are made one by one, each from its own statements. -/
theorem sections_eq_ok_iff {body : List Node} {made : Sections} :
    sections ctx body = .ok made ↔
      ∃ entries : Section → List (Option Ruby.Node),
        (∀ s, sectionEntries ctx s body = .ok (entries s)) ∧ made = .ofEntries entries := by
  induction body generalizing made with
  | nil =>
    constructor
    · intro h
      exact ⟨fun _ => [], fun _ => rfl, (Except.ok.inj h).symm⟩
    · rintro ⟨entries, hentries, rfl⟩
      have hnil : entries = fun _ => [] := by
        funext s
        exact (Except.ok.inj (hentries s)).symm
      rw [hnil]
      rfl
  | cons n body ih =>
    rw [sections_cons_eq_ok]
    constructor
    · rintro ⟨entry, hentry, rest, hrest, rfl⟩
      obtain ⟨others, hothers, rfl⟩ := ih.mp hrest
      exact ⟨_, sectionEntries_cons_eq_ok.mpr ⟨entry, hentry, others, hothers, rfl⟩,
        (ofEntries_addEntry _ _ _).symm⟩
    · rintro ⟨entries, hentries, rfl⟩
      obtain ⟨entry, hentry, others, hothers, rfl⟩ := sectionEntries_cons_eq_ok.mp hentries
      exact ⟨entry, hentry, _, ih.mpr ⟨others, hothers, rfl⟩, ofEntries_addEntry _ _ _⟩

end Making

/-! ## Interleaving -/

theorem SameSections.sections_eq_ok_iff {xs ys : List Node} (h : SameSections xs ys)
    {ctx : Context} {made : Sections} :
    sections ctx xs = .ok made ↔ sections ctx ys = .ok made := by
  rw [Generate.sections_eq_ok_iff, Generate.sections_eq_ok_iff]
  simp only [sectionEntries, h _]

theorem SameSections.unit_eq_ok_iff {xs ys : List Node} (h : SameSections xs ys)
    {info : BlockInfo} (hkind : info.kind = .module ∨ info.kind = .file) {settings : Settings}
    {r : Ruby.Node} :
    unit settings (.block (.mk info xs)) = .ok r ↔
      unit settings (.block (.mk info ys)) = .ok r := by
  rcases hkind with hkind | hkind
  · simp only [unit, hkind, moduleUnit]
    cases info.name with
    | none => exact Iff.rfl
    | some name => simp only [map_eq_ok, h.sections_eq_ok_iff]
  · simp only [unit, hkind, clientUnit]
    cases info.filename with
    | none => exact Iff.rfl
    | some filename => simp only [bind_eq_ok, pure_eq_ok, h.sections_eq_ok_iff]

/-- The program depends only on the order within each section: files with one header and the same
statements in every section become the same program, and one of them fails exactly if the other
does. -/
theorem unit_eq_of_sameSections {xs ys : List Node} (h : SameSections xs ys) {info : BlockInfo}
    (hkind : info.kind = .module ∨ info.kind = .file) (settings : Settings) :
    (∀ r r', unit settings (.block (.mk info xs)) = .ok r →
        unit settings (.block (.mk info ys)) = .ok r' → r = r') ∧
      ((∃ e, unit settings (.block (.mk info xs)) = .error e) ↔
        ∃ e, unit settings (.block (.mk info ys)) = .error e) := by
  have hiff (r : Ruby.Node) : unit settings (.block (.mk info xs)) = .ok r ↔
      unit settings (.block (.mk info ys)) = .ok r :=
    h.unit_eq_ok_iff hkind
  constructor
  · intro r r' hr hr'
    rw [(hiff r).mp hr] at hr'
    exact Except.ok.inj hr'
  · rw [exists_error_iff, exists_error_iff]
    exact not_congr (exists_congr hiff)

def greetFunction : Node :=
  .funDef "greet" [] (.mk { kind := .function } [.ret none])

def greetCall : Node :=
  .call ⟨none, "greet"⟩ .function none []

def greeterFile (body : List Node) : Node :=
  .block (.mk { kind := .module, name := some "Greeter" } body)

def sortedGreeter : List Node :=
  [.textdomain "greet", .importModule "Popup", greetCall, greetFunction]

def mixedGreeter : List Node :=
  [.typedef, greetFunction, .importModule "Popup", .filename "Greeter.ycp", greetCall,
    .textdomain "greet"]

theorem greeterFile_eq_of_mixed :
    SameSections sortedGreeter mixedGreeter ∧
      (∀ r r', unit {} (greeterFile sortedGreeter) = .ok r →
        unit {} (greeterFile mixedGreeter) = .ok r' → r = r') ∧
      ((∃ e, unit {} (greeterFile sortedGreeter) = .error e) ↔
        ∃ e, unit {} (greeterFile mixedGreeter) = .error e) := by
  have hsame : SameSections sortedGreeter mixedGreeter := by
    intro s
    cases s <;> rfl
  exact ⟨hsame, unit_eq_of_sameSections hsame (Or.inl rfl) {}⟩

end YcpToRuby.Generate
