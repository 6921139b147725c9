import Mathlib
import YcpToRuby.Generate.Unit

/-!
# The class of a client

A client is named after its file. What stands in front of the last slash has no part in the name,
and neither has the last dot with what follows it. Of the rest the letters and digits stay, in their
order, and some letters are raised, among them the first one. A constant of Ruby has to begin with a
capital, so there is a class exactly when a letter comes before every digit. The lemmas on the case
of ASCII letters come with the whole of the imported library and with no part of it.
-/

set_option autoImplicit false

namespace YcpToRuby

/-! ## Paths -/

namespace Text

theorem divideAt_eq_splitOnP (p : Char → Bool) (cs : List Char) :
    divideAt p cs = cs.splitOnP p := by
  induction cs with
  | nil => simp [divideAt]
  | cons c cs ih =>
    obtain ⟨first, others, hrest⟩ := List.exists_cons_of_ne_nil (List.splitOnP_ne_nil p cs)
    by_cases hc : p c = true
    · simp [divideAt, List.splitOnP_cons_eq_if_modifyHead, hc, ih]
    · simp [divideAt, List.splitOnP_cons_eq_if_modifyHead, hc, ih, hrest]

theorem pathSteps_append (front file : String) :
    pathSteps (front ++ "/" ++ file) = pathSteps front ++ pathSteps file := by
  have hlist : (front ++ "/" ++ file).toList = front.toList ++ '/' :: file.toList := by simp
  simp only [pathSteps, hlist, divideAt_eq_splitOnP]
  rw [List.splitOnP_append_cons _ _ (by simp), List.map_append, List.filter_append]

/-- The directories in front of a file do not change its name. -/
theorem fileName?_append (front : String) {file name : String} (h : fileName? file = some name) :
    fileName? (front ++ "/" ++ file) = some name := by
  have hsteps : pathSteps file ≠ [] := by
    intro hnil
    simp [fileName?, hnil] at h
  rw [fileName?, pathSteps_append, List.getLast?_append_of_ne_nil _ hsteps]
  exact h

theorem fileStem?_append (front : String) {file name : String} (h : fileName? file = some name) :
    fileStem? (front ++ "/" ++ file) = fileStem? file := by
  rw [fileStem?, fileStem?, fileName?_append front h, h]

end Text

/-! ## Words -/

namespace Generate

theorem isAlphanum_toUpper {c : Char} (h : c.isAlphanum = true) : c.toUpper.isAlphanum = true := by
  by_cases hlower : c.isLower = true
  · have halpha : c.isAlpha = true := by simp [Char.isAlpha, hlower]
    have hupper := c.isAlpha_toUpper_eq_isAlpha.trans halpha
    simp [Char.isAlphanum, hupper]
  · rwa [Char.toUpper_eq_of_not_isLower hlower]

theorem isAlphanum_of_mem_joinWords {atStart : Bool} {cs : List Char} {c : Char}
    (h : c ∈ joinWords atStart cs) : c.isAlphanum = true := by
  induction cs generalizing atStart with
  | nil => simp [joinWords] at h
  | cons d cs ih =>
    unfold joinWords at h
    split at h
    · rename_i hd
      rcases List.mem_cons.mp h with rfl | h
      · split
        · exact isAlphanum_toUpper hd
        · exact hd
      · exact ih h
    · exact ih h

theorem head?_joinWords (cs : List Char) :
    (joinWords true cs).head? = (cs.find? Char.isAlphanum).map Char.toUpper := by
  induction cs with
  | nil => rfl
  | cons c rest ih =>
    cases hc : c.isAlphanum
    · simpa [joinWords, hc] using ih
    · simp [joinWords, hc]

/-- Nothing but the case of letters changes. -/
theorem toLower_joinWords (atStart : Bool) (cs : List Char) :
    (joinWords atStart cs).map Char.toLower =
      (cs.filter Char.isAlphanum).map Char.toLower := by
  induction cs generalizing atStart with
  | nil => rfl
  | cons c cs ih =>
    by_cases hc : c.isAlphanum = true
    · cases atStart <;> simp [joinWords, hc, ih]
    · simp [joinWords, hc, ih]

/-! ## Classes -/

def stem (filename : String) : List Char :=
  ((Text.fileStem? filename).getD "").toList

def NamesClass (filename : String) : Prop :=
  ∃ c, ((Text.fileStem? filename).getD "").toList.find? Char.isAlphanum = some c ∧ c.isAlpha

theorem namesClass_iff (filename : String) :
    NamesClass filename ↔ ∃ c, (stem filename).find? Char.isAlphanum = some c ∧ c.isAlpha :=
  Iff.rfl

theorem clientClass_eq_ok_iff (filename name : String) :
    clientClass filename = .ok name ↔
      NamesClass filename ∧ name = String.ofList (joinWords true (stem filename)) ++ "Client" := by
  simp only [clientClass, NamesClass, stem]
  generalize ((Text.fileStem? filename).getD "").toList = cs
  have hhead := head?_joinWords cs
  cases hwords : joinWords true cs with
  | nil =>
    rw [hwords, List.head?_nil, eq_comm, Option.map_eq_none_iff] at hhead
    simp [hhead, invalid]
  | cons c rest =>
    rw [hwords, List.head?_cons, eq_comm, Option.map_eq_some_iff] at hhead
    obtain ⟨first, hfirst, rfl⟩ := hhead
    by_cases hletter : first.isAlpha = true
    · simpa [hfirst, hletter] using eq_comm
    · simp [hfirst, hletter, invalid]

theorem clientClass_eq_error_iff (filename : String) :
    (∃ f, clientClass filename = .error f) ↔ ¬ NamesClass filename := by
  cases hclass : clientClass filename with
  | ok name => simp [((clientClass_eq_ok_iff filename name).mp hclass).1]
  | error f =>
    simp only [Except.error.injEq, exists_eq', true_iff]
    intro hnames
    have hok := (clientClass_eq_ok_iff filename _).mpr ⟨hnames, rfl⟩
    rw [hclass] at hok
    contradiction

theorem stem_append (front : String) {file : String} (h : (Text.fileName? file).isSome) :
    stem (front ++ "/" ++ file) = stem file := by
  obtain ⟨name, hname⟩ := Option.isSome_iff_exists.mp h
  rw [stem, stem, Text.fileStem?_append front hname]

/-- A class name is a constant of Ruby. -/
theorem joinWords_of_namesClass {filename : String} (h : NamesClass filename) :
    ∃ c rest, joinWords true (stem filename) = c :: rest ∧ c.isUpper = true := by
  obtain ⟨first, hfirst, hletter⟩ := (namesClass_iff filename).mp h
  have hhead := head?_joinWords (stem filename)
  rw [hfirst, Option.map_some] at hhead
  obtain ⟨rest, hwords⟩ := List.head?_eq_some_iff.mp hhead
  exact ⟨first.toUpper, rest, hwords, by rw [Char.isUpper_toUpper_eq_isAlpha, hletter]⟩

/-- A file gives a class exactly when the first letter or digit of its stem is a letter. The class
is a constant that ends in `Client`; what comes before is the stem without its other characters, up
to the case of letters; and the directories in front of the file do not matter. -/
theorem clientClass_names_stem (filename : String) :
    ((∃ name, clientClass filename = .ok name) ↔
      ∃ c, (stem filename).find? Char.isAlphanum = some c ∧ c.isAlpha) ∧
    (∀ name, clientClass filename = .ok name →
      ∃ c rest, name = String.ofList (c :: rest) ++ "Client" ∧ c.isUpper ∧
        (∀ d ∈ rest, d.isAlphanum) ∧
        (c :: rest).map Char.toLower =
          ((stem filename).filter Char.isAlphanum).map Char.toLower) ∧
    ∀ directory : String, directory.toList.getLast? = some '/' →
      (Text.fileName? filename).isSome →
      ∀ name, clientClass (directory ++ filename) = .ok name ↔ clientClass filename = .ok name := by
  refine ⟨?_, fun name hname => ?_, fun directory hslash hfile name => ?_⟩
  · simp [clientClass_eq_ok_iff, namesClass_iff]
  · obtain ⟨hclass, rfl⟩ := (clientClass_eq_ok_iff filename name).mp hname
    obtain ⟨c, rest, hwords, hupper⟩ := joinWords_of_namesClass hclass
    refine ⟨c, rest, by rw [hwords], hupper, fun d hd => ?_, ?_⟩
    · have hmem : d ∈ joinWords true (stem filename) := hwords ▸ List.mem_cons_of_mem c hd
      exact isAlphanum_of_mem_joinWords hmem
    · rw [← hwords]
      exact toLower_joinWords true (stem filename)
  · obtain ⟨front, hfront⟩ := List.getLast?_eq_some_iff.mp hslash
    have hdirectory : directory = String.ofList front ++ "/" :=
      String.toList_inj.mp (by simpa using hfront)
    have hstem := stem_append (String.ofList front) hfile
    rw [← hdirectory] at hstem
    simp only [clientClass_eq_ok_iff, namesClass_iff, hstem]

/-- A stem with a mark in front and a second dot, in a directory. -/
theorem clientClass_lanAuto_names_stem :
    clientClass "/usr/share/clients/_lan-auto.v2.ycp" = .ok "LanAutoV2Client" ∧
      (∃ c rest, "LanAutoV2Client" = String.ofList (c :: rest) ++ "Client" ∧ c.isUpper ∧
        (∀ d ∈ rest, d.isAlphanum) ∧ (c :: rest).map Char.toLower = "lanautov2".toList) := by
  obtain ⟨-, hresult, hdirectory⟩ := clientClass_names_stem "_lan-auto.v2.ycp"
  have hname : clientClass "_lan-auto.v2.ycp" = .ok "LanAutoV2Client" := by rfl
  have hplace := hdirectory "/usr/share/clients/" (by decide) (by decide)
  refine ⟨(hplace _).mpr hname, ?_⟩
  obtain ⟨c, rest, heq, hupper, hrest, hlower⟩ := hresult _ hname
  exact ⟨c, rest, heq, hupper, hrest, hlower.trans (by decide)⟩

end Generate

end YcpToRuby
