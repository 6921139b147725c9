import YcpToRuby.Xml.Piece
import YcpToRuby.Xml.Qualified

/-!
# Written tags read back

A tag is written with one blank before each attribute and with its values in double quotes. What
would end a value, start a tag or a reference, or turn into a space is written as a reference, so
that the scanners find the pieces, the names and the values as they were.
-/

set_option autoImplicit false

namespace YcpToRuby.Xml

def escapedChar (c : Char) : List Char :=
  match c with
  | '&' => "&amp;".toList
  | '<' => "&lt;".toList
  | '\x22' => "&quot;".toList
  | '\t' => "&#9;".toList
  | '\n' => "&#10;".toList
  | '\r' => "&#13;".toList
  | c => [c]

def escaped (value : String) : List Char :=
  value.toList.flatMap escapedChar

def writtenAttribute (entry : String × String) : List Char × List Char :=
  (entry.1.toList, escaped entry.2)

def attributeText (entry : String × String) : List Char :=
  [' '] ++ entry.1.toList ++ ['=', '\x22'] ++ escaped entry.2 ++ ['\x22']

def tagText (kind : String) (attrs : List (String × String)) : List Char :=
  kind.toList ++ attrs.flatMap attributeText

/-! ## Characters -/

/-- Characters that no name and no escaped value holds. -/
theorem isNameChar_ne {c d : Char} (h : isNameChar c = true) (hd : isNameChar d = false) :
    c ≠ d := by
  rintro rfl
  rw [h] at hd
  cases hd

theorem isNameChar_of_mem {cs : List Char} (h : isName cs = true) :
    ∀ c ∈ cs, isNameChar c = true := by
  cases cs with
  | nil => simp
  | cons c rest =>
    simp only [isName, Bool.and_eq_true, List.all_eq_true] at h
    simp only [List.forall_mem_cons]
    exact ⟨by simp [isNameChar, h.1], h.2⟩

theorem isChar_of_isNameChar {c : Char} (h : isNameChar c = true) : isChar c = true := by
  simp only [isNameChar, isNameStart, nameStartRanges, nameExtraRanges, inRanges, List.any_cons,
    List.any_nil, Bool.or_eq_true, Bool.and_eq_true, decide_eq_true_eq, Bool.false_eq_true,
    or_false] at h
  simp only [isChar, inRanges, List.any_cons, List.any_nil, Bool.or_eq_true, Bool.and_eq_true,
    decide_eq_true_eq, Bool.false_eq_true, or_false]
  omega

/-- What an escaped value does not hold. -/
theorem mem_escapedChar {c d : Char} (h : d ∈ escapedChar c) :
    d ≠ '\x22' ∧ d ≠ '<' ∧ d ≠ '\r' ∧ (isChar c = true → isChar d = true) := by
  have hreference : ∀ text ∈ ["&amp;", "&lt;", "&quot;", "&#9;", "&#10;", "&#13;"],
      text.toList.all (fun d => d != '\x22' && d != '<' && d != '\r' && isChar d) = true := by
    decide +kernel
  unfold escapedChar at h
  split at h
  case h_7 _ _ hless hquote _ _ hreturn =>
    obtain rfl := List.mem_singleton.mp h
    exact ⟨hquote, hless, hreturn, id⟩
  all_goals
    have hd := List.all_eq_true.mp (hreference _ (by simp)) d h
    simp only [Bool.and_eq_true, bne_iff_ne] at hd
    exact ⟨hd.1.1.1, hd.1.1.2, hd.1.2, fun _ => hd.2⟩

theorem mem_escaped {value : String} {d : Char} (h : d ∈ escaped value) :
    d ≠ '\x22' ∧ d ≠ '<' ∧ d ≠ '\r' ∧
      ((∀ c ∈ value.toList, isChar c = true) → isChar d = true) := by
  obtain ⟨c, hc, hd⟩ := List.mem_flatMap.mp h
  obtain ⟨hquote, hless, hreturn, hchar⟩ := mem_escapedChar hd
  exact ⟨hquote, hless, hreturn, fun hvalue => hchar (hvalue c hc)⟩

def IsKeptChar (c : Char) : Prop :=
  isChar c = true ∧ c ≠ '\r'

instance (c : Char) : Decidable (IsKeptChar c) :=
  inferInstanceAs (Decidable (_ ∧ _))

theorem isKeptChar_of_isNameChar {c : Char} (h : isNameChar c = true) : IsKeptChar c :=
  ⟨isChar_of_isNameChar h, isNameChar_ne h (by decide)⟩

theorem isKeptChar_of_mem_tagText {kind : String} {attrs : List (String × String)}
    (hkind : isName kind.toList = true) (hnames : ∀ entry ∈ attrs, isName entry.1.toList = true)
    (hvalues : ∀ entry ∈ attrs, ∀ c ∈ entry.2.toList, isChar c = true) :
    ∀ c ∈ tagText kind attrs, IsKeptChar c := by
  have hname {name : List Char} (h : isName name = true) : ∀ c ∈ name, IsKeptChar c := fun c hc =>
    isKeptChar_of_isNameChar (isNameChar_of_mem h c hc)
  have hmarks : ∀ c ∈ [' ', '=', '\x22'], IsKeptChar c := by
    rw [List.forall_mem_cons, List.forall_mem_cons, List.forall_mem_singleton]
    decide
  rw [tagText, List.forall_mem_append, List.forall_mem_flatMap]
  refine ⟨hname hkind, fun entry hentry => ?_⟩
  have hvalue : ∀ c ∈ escaped entry.2, IsKeptChar c := fun c hc =>
    ⟨(mem_escaped hc).2.2.2 (hvalues entry hentry), (mem_escaped hc).2.2.1⟩
  simp only [attributeText, List.forall_mem_append, List.forall_mem_cons, List.not_mem_nil,
    false_imp_iff, implies_true, and_true] at hmarks ⊢
  exact ⟨⟨⟨⟨hmarks.1, hname (hnames entry hentry)⟩, hmarks.2⟩, hvalue⟩, hmarks.2.2⟩

/-! ## Values -/

def plainChar (c : Char) : Char :=
  if isBlank c then ' ' else c

theorem plainChar_eq {c : Char} (htab : c ≠ '\t') (hfeed : c ≠ '\n') (hreturn : c ≠ '\r') :
    plainChar c = c := by
  by_cases hblank : isBlank c = true
  · have hspace : c = ' ' := by simpa [isBlank, htab, hfeed, hreturn] using hblank
    rw [plainChar, if_pos hblank, hspace]
  · rw [plainChar, if_neg hblank]

theorem expandFrom_pending {name : List Char} (hname : ';' ∉ name) (read rest : List Char) :
    expandFrom plainChar (some read) (name ++ ';' :: rest) =
      (referent? (read.reverse ++ name)).bind fun c =>
        (expandFrom plainChar none rest).map (c :: ·) := by
  induction name generalizing read with
  | nil =>
    rw [List.nil_append, List.append_nil, expandFrom, if_pos rfl]
    simp only [Option.map_eq_bind]
    rfl
  | cons c name ih =>
    obtain ⟨hc, hname⟩ : c ≠ ';' ∧ ';' ∉ name := by
      simpa [eq_comm, not_or] using hname
    rw [List.cons_append, expandFrom, if_neg hc, ih hname]
    simp

theorem expandFrom_reference {name : List Char} {c : Char} (hname : ';' ∉ name)
    (hc : referent? name = some c) (rest : List Char) :
    expandFrom plainChar none ('&' :: (name ++ ';' :: rest)) =
      (expandFrom plainChar none rest).map (c :: ·) := by
  rw [expandFrom, if_pos rfl, expandFrom_pending hname]
  simp [hc]

theorem expandFrom_escapedChar (c : Char) (rest : List Char) :
    expandFrom plainChar none (escapedChar c ++ rest) =
      (expandFrom plainChar none rest).map (c :: ·) := by
  unfold escapedChar
  split
  case h_7 _ hamp _ _ htab hfeed hreturn =>
    rw [List.singleton_append, expandFrom, if_neg hamp, plainChar_eq htab hfeed hreturn]
    rfl
  · exact @expandFrom_reference "amp".toList _ (by decide) (by decide) rest
  · exact @expandFrom_reference "lt".toList _ (by decide) (by decide) rest
  · exact @expandFrom_reference "quot".toList _ (by decide) (by decide) rest
  · exact @expandFrom_reference "#9".toList _ (by decide) (by decide) rest
  · exact @expandFrom_reference "#10".toList _ (by decide) (by decide) rest
  · exact @expandFrom_reference "#13".toList _ (by decide) (by decide) rest

theorem attributeValue?_escaped (value : String) :
    attributeValue? (escaped value) = some value := by
  have hexpand (cs : List Char) : expandFrom plainChar none (cs.flatMap escapedChar) = some cs := by
    induction cs with
    | nil => rfl
    | cons c cs ih => rw [List.flatMap_cons, expandFrom_escapedChar, ih, Option.map_some]
  have hless : (escaped value).contains '<' = false := by
    rw [Bool.eq_false_iff]
    intro h
    exact (mem_escaped (List.contains_iff_mem.mp h)).2.1 rfl
  have hvalue : expandFrom plainChar none (escaped value) = some value.toList := hexpand _
  rw [attributeValue?, hless, if_neg Bool.false_ne_true]
  change (expandFrom plainChar none (escaped value)).map String.ofList = some value
  rw [hvalue, Option.map_some, String.ofList_toList]

/-! ## Pieces -/

def KeptInTag (text : List Char) : Prop :=
  ∀ read pieces, text.foldlM Piece.step ⟨.tag none read, pieces⟩ =
    some ⟨.tag none (text.reverse ++ read), pieces⟩

theorem KeptInTag.append {text more : List Char} (h : KeptInTag text) (hmore : KeptInTag more) :
    KeptInTag (text ++ more) := by
  intro read pieces
  rw [List.foldlM_append, h, List.reverse_append, List.append_assoc]
  exact hmore _ pieces

theorem keptInTag_nil : KeptInTag [] := fun _ _ => rfl

theorem keptInTag_of_forall {text : List Char}
    (h : ∀ c ∈ text, c ≠ '>' ∧ c ≠ '<' ∧ c ≠ '\x22' ∧ c ≠ '\'') : KeptInTag text := by
  induction text with
  | nil => exact keptInTag_nil
  | cons c text ih =>
    obtain ⟨⟨hgreater, hless, hquote, happos⟩, htext⟩ := List.forall_mem_cons.mp h
    have hc : KeptInTag [c] := fun read pieces => by
      simp [Piece.step, Piece.Scan.goTo, hgreater, hless, hquote, happos]
    exact hc.append (ih htext)

theorem keptInTag_of_nameChars {text : List Char} (h : ∀ c ∈ text, isNameChar c = true) :
    KeptInTag text :=
  keptInTag_of_forall fun c hc =>
    ⟨isNameChar_ne (h c hc) (by decide), isNameChar_ne (h c hc) (by decide),
      isNameChar_ne (h c hc) (by decide), isNameChar_ne (h c hc) (by decide)⟩

theorem keptInTag_name {name : List Char} (h : isName name = true) : KeptInTag name :=
  keptInTag_of_nameChars (isNameChar_of_mem h)

theorem keptInTag_quoted {text : List Char} (h : '\x22' ∉ text) :
    KeptInTag ('\x22' :: (text ++ ['\x22'])) := by
  have hinside : ∀ read pieces, text.foldlM Piece.step ⟨.tag (some '\x22') read, pieces⟩ =
      some ⟨.tag (some '\x22') (text.reverse ++ read), pieces⟩ := by
    induction text with
    | nil => exact fun _ _ => rfl
    | cons c text ih =>
      obtain ⟨hc, htext⟩ : c ≠ '\x22' ∧ '\x22' ∉ text := by
        simpa [eq_comm, not_or] using h
      intro read pieces
      rw [List.foldlM_cons, List.reverse_cons, List.append_assoc]
      simpa [Piece.step, Piece.Scan.goTo, hc] using ih htext (c :: read) pieces
  intro read pieces
  rw [List.foldlM_cons]
  change (text ++ ['\x22']).foldlM Piece.step ⟨.tag (some '\x22') ('\x22' :: read), pieces⟩ = _
  rw [List.foldlM_append, hinside]
  simp [Piece.step, Piece.Scan.goTo]

theorem keptInTag_attributeText {entry : String × String} (h : isName entry.1.toList = true) :
    KeptInTag (attributeText entry) := by
  have hquoted := @keptInTag_quoted (escaped entry.2) fun hmem => (mem_escaped hmem).1 rfl
  have hspace : KeptInTag [' '] :=
    keptInTag_of_forall (List.forall_mem_singleton.mpr (by decide))
  have hequals : KeptInTag ['='] :=
    keptInTag_of_forall (List.forall_mem_singleton.mpr (by decide))
  have htext : attributeText entry =
      [' '] ++ (entry.1.toList ++ (['='] ++ '\x22' :: (escaped entry.2 ++ ['\x22']))) := by
    simp [attributeText]
  rw [htext]
  exact hspace.append ((keptInTag_name h).append (hequals.append hquoted))

theorem keptInTag_attributes {attrs : List (String × String)}
    (h : ∀ entry ∈ attrs, isName entry.1.toList = true) :
    KeptInTag (attrs.flatMap attributeText) := by
  induction attrs with
  | nil => exact keptInTag_nil
  | cons entry attrs ih =>
    obtain ⟨hentry, hattrs⟩ := List.forall_mem_cons.mp h
    rw [List.flatMap_cons]
    exact (keptInTag_attributeText hentry).append (ih hattrs)

def Scans (text : List Char) (ps : List Piece) : Prop :=
  ∀ before, text.foldlM Piece.step ⟨.text [], before⟩ = some ⟨.text [], ps.reverse ++ before⟩

theorem Scans.append {text more : List Char} {ps others : List Piece} (h : Scans text ps)
    (hmore : Scans more others) : Scans (text ++ more) (ps ++ others) := by
  intro before
  rw [List.foldlM_append, h, List.reverse_append, List.append_assoc]
  exact hmore _

theorem Scans.pieces? {text : List Char} {ps : List Piece} (h : Scans text ps) :
    Piece.pieces? text = some (ps ++ [.text []]) := by
  have h := h []
  rw [List.append_nil] at h
  simp [Piece.pieces?, h]

theorem scans_nil : Scans [] [] := fun _ => rfl

theorem scans_tag {c : Char} {content : List Char}
    (hc : c ≠ '!' ∧ c ≠ '?' ∧ c ≠ '<' ∧ c ≠ '>') (h : KeptInTag content) :
    Scans ('<' :: (c :: content ++ ['>'])) [.text [], .tag (c :: content)] := by
  obtain ⟨hbang, hquestion, hless, hgreater⟩ := hc
  intro before
  rw [List.foldlM_cons]
  change (c :: content ++ ['>']).foldlM Piece.step ⟨.start, .text [] :: before⟩ = _
  have hstart : Piece.step ⟨.start, .text [] :: before⟩ c =
      some ⟨.tag none [c], .text [] :: before⟩ := by
    simp [Piece.step, Piece.Scan.goTo, hbang, hquestion, hless, hgreater]
  rw [List.cons_append, List.foldlM_cons, hstart]
  change (content ++ ['>']).foldlM Piece.step ⟨.tag none [c], .text [] :: before⟩ = _
  rw [List.foldlM_append, h]
  simp [Piece.step, Piece.Scan.finish]

/-! ## Names and attributes of a tag -/

theorem isBlank_of_isNameChar {c : Char} (h : isNameChar c = true) : isBlank c = false := by
  simp only [isBlank, Bool.or_eq_false_iff, beq_eq_false_iff_ne]
  exact ⟨⟨⟨isNameChar_ne h (by decide), isNameChar_ne h (by decide)⟩,
    isNameChar_ne h (by decide)⟩, isNameChar_ne h (by decide)⟩

namespace RawTag

theorem foldlM_name {name : List Char} (h : ∀ c ∈ name, isNameChar c = true) (read : List Char)
    (tag : RawTag) :
    name.foldlM step ⟨.name read, tag⟩ = some ⟨.name (name.reverse ++ read), tag⟩ := by
  induction name generalizing read with
  | nil => rfl
  | cons c name ih =>
    obtain ⟨hc, hname⟩ := List.forall_mem_cons.mp h
    have hslash : c ≠ '/' := isNameChar_ne hc (by decide)
    rw [List.foldlM_cons, List.reverse_cons, List.append_assoc]
    simpa [step, Scan.goTo, isBlank_of_isNameChar hc, hslash] using ih hname (c :: read)

theorem foldlM_attrName {name : List Char} (h : ∀ c ∈ name, isNameChar c = true)
    (read : List Char) (tag : RawTag) :
    name.foldlM step ⟨.attrName read, tag⟩ = some ⟨.attrName (name.reverse ++ read), tag⟩ := by
  induction name generalizing read with
  | nil => rfl
  | cons c name ih =>
    obtain ⟨hc, hname⟩ := List.forall_mem_cons.mp h
    have hequals : c ≠ '=' := isNameChar_ne hc (by decide)
    rw [List.foldlM_cons, List.reverse_cons, List.append_assoc]
    simpa [step, Scan.goTo, isBlank_of_isNameChar hc, hequals] using ih hname (c :: read)

theorem foldlM_value {text : List Char} (h : '\x22' ∉ text) (name read : List Char)
    (tag : RawTag) :
    text.foldlM step ⟨.value name '\x22' read, tag⟩ =
      some ⟨.value name '\x22' (text.reverse ++ read), tag⟩ := by
  induction text generalizing read with
  | nil => rfl
  | cons c text ih =>
    obtain ⟨hc, htext⟩ : c ≠ '\x22' ∧ '\x22' ∉ text := by
      simpa [eq_comm, not_or] using h
    rw [List.foldlM_cons, List.reverse_cons, List.append_assoc]
    simpa [step, Scan.goTo, hc] using ih htext (c :: read)

/-- An attribute behind a blank. -/
theorem foldlM_attribute {name text : List Char} (hname : isName name = true)
    (htext : '\x22' ∉ text) (tag : RawTag) :
    (name ++ (['=', '\x22'] ++ (text ++ ['\x22']))).foldlM step ⟨.gap, tag⟩ =
      some ⟨.closed, { tag with attrs := (name, text) :: tag.attrs }⟩ := by
  cases name with
  | nil => cases hname
  | cons c name =>
    obtain ⟨hc, hrest⟩ := List.forall_mem_cons.mp (isNameChar_of_mem hname)
    have hslash : c ≠ '/' := isNameChar_ne hc (by decide)
    have hstart : step ⟨.gap, tag⟩ c = some ⟨.attrName [c], tag⟩ := by
      simp [step, Scan.goTo, isBlank_of_isNameChar hc, hslash]
    rw [List.cons_append, List.foldlM_cons, hstart]
    change (name ++ (['=', '\x22'] ++ (text ++ ['\x22']))).foldlM step ⟨.attrName [c], tag⟩ = _
    rw [List.foldlM_append, foldlM_attrName hrest]
    change (text ++ ['\x22']).foldlM step
      ⟨.value (name.reverse ++ [c]).reverse '\x22' [], tag⟩ = _
    rw [List.foldlM_append, foldlM_value htext]
    simp [step]

theorem attributeText_eq (entry : String × String) :
    attributeText entry =
      ' ' :: (entry.1.toList ++ (['=', '\x22'] ++ (escaped entry.2 ++ ['\x22']))) := by
  simp [attributeText]

theorem foldlM_attributes {attrs : List (String × String)}
    (h : ∀ entry ∈ attrs, isName entry.1.toList = true) (tag : RawTag) :
    (attrs.flatMap attributeText).foldlM step ⟨.closed, tag⟩ =
      some ⟨.closed, { tag with attrs := (attrs.map writtenAttribute).reverse ++ tag.attrs }⟩ := by
  induction attrs generalizing tag with
  | nil => rfl
  | cons entry attrs ih =>
    obtain ⟨hentry, hattrs⟩ := List.forall_mem_cons.mp h
    have hquote : '\x22' ∉ escaped entry.2 := fun hmem => (mem_escaped hmem).1 rfl
    rw [List.flatMap_cons, List.foldlM_append, attributeText_eq, List.foldlM_cons]
    change ((entry.1.toList ++ (['=', '\x22'] ++ (escaped entry.2 ++ ['\x22']))).foldlM step
      ⟨.gap, tag⟩ >>= _) = _
    rw [foldlM_attribute hentry hquote]
    simpa [writtenAttribute] using ih hattrs _

/-- The place behind the name and the attributes of a tag: the name has no end of its own. -/
theorem exists_place_tagText {kind : String} {attrs : List (String × String)}
    (hkind : isName kind.toList = true) (h : ∀ entry ∈ attrs, isName entry.1.toList = true) :
    ∃ scan, (tagText kind attrs).foldlM step {} = some scan ∧
      (scan = ⟨.name kind.toList.reverse, { name := [] }⟩ ∧ attrs = [] ∨
        scan =
          ⟨.closed, { name := kind.toList, attrs := (attrs.map writtenAttribute).reverse }⟩) := by
  have hname := foldlM_name (isNameChar_of_mem hkind) [] { name := [] }
  rw [List.append_nil] at hname
  rw [tagText, List.foldlM_append]
  change ∃ scan, (kind.toList.foldlM step ⟨.name [], { name := [] }⟩ >>= _) = some scan ∧ _
  rw [hname]
  cases attrs with
  | nil => exact ⟨_, rfl, Or.inl ⟨rfl, rfl⟩⟩
  | cons entry attrs =>
    obtain ⟨hentry, hattrs⟩ := List.forall_mem_cons.mp h
    have hquote : '\x22' ∉ escaped entry.2 := fun hmem => (mem_escaped hmem).1 rfl
    refine ⟨_, ?_, Or.inr rfl⟩
    rw [List.flatMap_cons, attributeText_eq]
    change ((entry.1.toList ++ (['=', '\x22'] ++ (escaped entry.2 ++ ['\x22']))) ++
      attrs.flatMap attributeText).foldlM step ⟨.gap, { name := kind.toList.reverse.reverse }⟩ = _
    rw [List.foldlM_append, foldlM_attribute hentry hquote]
    simpa [writtenAttribute] using foldlM_attributes hattrs _

/-- The tag that is read from what is written, with a slash at the end or without one. -/
theorem read?_tagText {kind : String} {attrs : List (String × String)}
    (hkind : isName kind.toList = true) (h : ∀ entry ∈ attrs, isName entry.1.toList = true)
    (isEmpty : Bool) :
    read? (tagText kind attrs ++ if isEmpty then ['/'] else []) =
      some ⟨kind.toList, attrs.map writtenAttribute, isEmpty⟩ := by
  obtain ⟨scan, hscan, hcases⟩ := exists_place_tagText hkind h
  rw [read?, List.foldlM_append, hscan]
  rcases hcases with ⟨rfl, rfl⟩ | rfl
  · cases isEmpty
    · simp
    · simp [step, isBlank, Scan.goTo]
  · cases isEmpty
    · simp
    · simp [step, isBlank, Scan.goTo]

end RawTag

/-! ## Resolved tags -/

theorem divideAt_of_forall {p : Char → Bool} {cs : List Char} (h : ∀ c ∈ cs, p c = false) :
    Text.divideAt p cs = [cs] := by
  induction cs with
  | nil => rfl
  | cons c cs ih =>
    obtain ⟨hc, hcs⟩ := List.forall_mem_cons.mp h
    simp [Text.divideAt, hc, ih hcs]

/-- A name without a colon has no label. -/
theorem QName.read?_name {name : String} (h : isName name.toList = true) :
    QName.read? name.toList = some ⟨none, name⟩ := by
  have hcolon : ∀ c ∈ name.toList, (c == ':') = false := fun c hc =>
    beq_false_of_ne (isNameChar_ne (isNameChar_of_mem h c hc) (by decide))
  simp [QName.read?, divideAt_of_forall hcolon, h]

theorem QName.declares?_eq_none {name : String} (h : name ≠ "xmlns") :
    QName.declares? ⟨none, name⟩ = none := by
  unfold QName.declares?
  split
  · rename_i heq
    cases heq
  · rename_i heq
    cases heq
    exact absurd rfl h
  · rfl

def PlainNames (attrs : List (String × String)) : Prop :=
  ∀ entry ∈ attrs, isName entry.1.toList = true ∧ entry.1 ≠ "xmlns"

def unlabelled (entry : String × String) : QName × String :=
  (⟨none, entry.1⟩, entry.2)

theorem mapM_eq_some_map {α β : Type} {f : α → Option β} {g : α → β} {xs : List α}
    (h : ∀ x ∈ xs, f x = some (g x)) : xs.mapM f = some (xs.map g) := by
  induction xs with
  | nil => rfl
  | cons x xs ih =>
    obtain ⟨hx, hxs⟩ := List.forall_mem_cons.mp h
    simp [List.mapM_cons, hx, ih hxs]

theorem nodup_map_of_nodup_fst {β : Type} {f : String × String → β} {attrs : List (String × String)}
    (hf : ∀ a b, f a = f b → a.1 = b.1) (h : (attrs.map Prod.fst).Nodup) :
    (attrs.map f).Nodup := by
  rw [List.Nodup, List.pairwise_map] at h ⊢
  exact h.imp fun hne heq => hne (hf _ _ heq)

theorem attributes?_written {attrs : List (String × String)} (h : PlainNames attrs)
    (name : List Char) (isEmpty : Bool) :
    RawTag.attributes? ⟨name, attrs.map writtenAttribute, isEmpty⟩ =
      some (attrs.map unlabelled) := by
  rw [RawTag.attributes?, List.mapM_map]
  refine mapM_eq_some_map fun entry hentry => ?_
  simp [writtenAttribute, QName.read?_name (h entry hentry).1, attributeValue?_escaped, unlabelled]

/-- Nothing is declared, so the bindings stay as they are and the names as they are written. -/
theorem resolve?_written {kind : String} {attrs : List (String × String)}
    (hkind : isName kind.toList = true) (h : PlainNames attrs)
    (hnodup : (attrs.map Prod.fst).Nodup) (around : Bindings) (isEmpty : Bool) :
    RawTag.resolve? ⟨kind.toList, attrs.map writtenAttribute, isEmpty⟩ around =
      some ⟨kind.toList, kind, attrs, around, isEmpty⟩ := by
  have hnone : ∀ entry ∈ attrs.map unlabelled, entry.1.declares? = none :=
    List.forall_mem_map.mpr fun entry hentry => QName.declares?_eq_none (h entry hentry).2
  have hdeclared : ((attrs.map unlabelled).filterMap fun entry =>
      entry.1.declares?.map fun label => (label, entry.2)) = [] :=
    List.filterMap_eq_nil_iff.mpr fun entry hentry => by rw [hnone entry hentry]; rfl
  have hplain : ((attrs.map unlabelled).filter fun entry => entry.1.declares?.isNone) =
      attrs.map unlabelled :=
    List.filter_eq_self.mpr fun entry hentry => by rw [hnone entry hentry]; rfl
  have hexpanded : ((attrs.map unlabelled).mapM fun entry => do
      return (← Bindings.ofAttribute? around entry.1.label, entry.1.base)) =
        some (attrs.map fun entry => ((none : Option String), entry.1)) := by
    rw [List.mapM_map]
    exact mapM_eq_some_map fun _ _ => rfl
  have hnames : ((attrs.map unlabelled).map Prod.fst).Nodup := by
    rw [List.map_map]
    exact nodup_map_of_nodup_fst (fun a b hab => congrArg QName.base hab) hnodup
  have hbases : (attrs.map fun entry => ((none : Option String), entry.1)).Nodup :=
    nodup_map_of_nodup_fst (fun a b hab => congrArg Prod.snd hab) hnodup
  have hentries : ((attrs.map unlabelled).map fun entry => (entry.1.base, entry.2)) = attrs := by
    simp [unlabelled, Function.comp_def]
  rw [RawTag.resolve?, QName.read?_name hkind, Option.bind_eq_bind, Option.bind_some,
    attributes?_written h, Option.bind_eq_bind, Option.bind_some]
  simp only [hdeclared, hplain, hentries, List.nil_append]
  rw [hexpanded, Option.bind_eq_bind, Option.bind_some, if_pos]
  exact ⟨hnames, hbases, rfl, rfl⟩

end YcpToRuby.Xml
