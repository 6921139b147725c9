import YcpToRuby.Json.Printer
import YcpToRuby.Json.Reader

/-!
# Written JSON reads back

The compact text of a value is a run of tokens with nothing between them, and the tokens of a value
put that value where the next one is expected. Numbers are left out: the value keeps whatever
spelling it is given.
-/

set_option autoImplicit false

namespace YcpToRuby.Json

/-! ## Tokens of a text -/

def Lexes (text : List Char) (ts : List Token) : Prop :=
  ∀ tokens, text.foldlM Lexer.step ⟨.ready, tokens⟩ = some ⟨.ready, ts.reverse ++ tokens⟩

theorem Lexes.append {text more : List Char} {ts others : List Token} (h : Lexes text ts)
    (hmore : Lexes more others) : Lexes (text ++ more) (ts ++ others) := by
  intro tokens
  rw [List.foldlM_append, h, List.reverse_append, List.append_assoc]
  exact hmore _

theorem Lexes.tokens? {text : List Char} {ts : List Token} (h : Lexes text ts) :
    Json.tokens? text = some ts := by
  have h := h []
  rw [List.append_nil] at h
  simp [Json.tokens?, h, Lexer.finish?]

theorem lexes_openBrace : Lexes ['\x7b'] [.openBrace] := fun _ => rfl

theorem lexes_closeBrace : Lexes ['\x7d'] [.closeBrace] := fun _ => rfl

theorem lexes_openBracket : Lexes ['['] [.openBracket] := fun _ => rfl

theorem lexes_closeBracket : Lexes [']'] [.closeBracket] := fun _ => rfl

theorem lexes_comma : Lexes [','] [.comma] := fun _ => rfl

theorem lexes_colon : Lexes [':'] [.colon] := fun _ => rfl

theorem lexes_null : Lexes "null".toList [.atom .null] := fun _ => rfl

theorem lexes_word (value : Bool) : Lexes (word value).toList [.atom (.bool value)] := by
  cases value
  · exact fun _ => rfl
  · exact fun _ => rfl

/-! ## String literals -/

theorem hexDigits_of_lt : ∀ n < 0x20,
    hexDigits 4 n = ['0', '0', Nat.digitChar (n / 16), Nat.digitChar (n % 16)] ∧
      Number.hexValue? (Nat.digitChar (n / 16)) = some (n / 16) ∧
      Number.hexValue? (Nat.digitChar (n % 16)) = some (n % 16) := by
  decide +kernel

theorem fragmentText?_unit {n : Nat} (h : n < 0x20) (rest : List Fragment) :
    fragmentText? (.unit n :: rest) = (fragmentText? rest).map (Char.ofNat n :: ·) := by
  have hhigh : isHighSurrogate n = false := by simp [isHighSurrogate]; omega
  have hlow : isLowSurrogate n = false := by simp [isLowSurrogate]; omega
  rcases rest with - | ⟨c | low, rest⟩ <;> simp [fragmentText?, hhigh, hlow]

theorem unicode_hexDigits {n : Nat} (h : n < 0x20) (read : List Fragment) (tokens : List Token) :
    (hexDigits 4 n).foldlM Lexer.step ⟨.unicode read 0 0, tokens⟩ =
      some ⟨.literal (.unit n :: read), tokens⟩ := by
  obtain ⟨hdigits, hsixteens, hones⟩ := hexDigits_of_lt n h
  have hzero : Number.hexValue? '0' = some 0 := rfl
  have hn : 16 * (n / 16) + n % 16 = n := Nat.div_add_mod n 16
  simp [hdigits, Lexer.step, hzero, hsixteens, hones, hn]

/-- A character is written as itself, by a short escape, or by its number. -/
theorem literal_escapedChar (c : Char) :
    ∃ fragment : Fragment,
      (∀ rest, fragmentText? (fragment :: rest) = (fragmentText? rest).map (c :: ·)) ∧
      ∀ read tokens, (escapedChar c).foldlM Lexer.step ⟨.literal read, tokens⟩ =
        some ⟨.literal (fragment :: read), tokens⟩ := by
  unfold escapedChar
  split
  case h_8 _ hquote hbackslash _ _ _ _ _ =>
    split
    · rename_i hcontrol
      refine ⟨.unit c.toNat, fun rest => ?_, fun read tokens => ?_⟩
      · rw [fragmentText?_unit hcontrol, Char.ofNat_toNat]
      · rw [List.foldlM_append]
        exact unicode_hexDigits hcontrol read tokens
    · rename_i hcontrol
      refine ⟨.char c, fun _ => rfl, fun read tokens => ?_⟩
      have hquote : (c == '\x22') = false := beq_false_of_ne hquote
      have hbackslash : (c == '\\') = false := beq_false_of_ne hbackslash
      simp [Lexer.step, hcontrol, hquote, hbackslash]
  all_goals exact ⟨.char _, fun _ => rfl, fun _ _ => rfl⟩

theorem literal_escaped (cs : List Char) :
    ∃ fragments : List Fragment, fragmentText? fragments = some cs ∧
      ∀ read tokens, (cs.flatMap escapedChar).foldlM Lexer.step ⟨.literal read, tokens⟩ =
        some ⟨.literal (fragments.reverse ++ read), tokens⟩ := by
  induction cs with
  | nil => exact ⟨[], rfl, fun _ _ => rfl⟩
  | cons c cs ih =>
    obtain ⟨fragment, htext, hread⟩ := literal_escapedChar c
    obtain ⟨fragments, htexts, hreads⟩ := ih
    refine ⟨fragment :: fragments, by rw [htext, htexts]; rfl, fun read tokens => ?_⟩
    rw [List.flatMap_cons, List.foldlM_append, hread, List.reverse_cons, List.append_assoc]
    exact hreads _ tokens

theorem lexes_quoted (text : String) : Lexes (quoted text).toList [.atom (.text text)] := by
  obtain ⟨fragments, htext, hread⟩ := literal_escaped text.toList
  intro tokens
  have hopen : ['\x22'].foldlM Lexer.step ⟨.ready, tokens⟩ = some ⟨.literal [], tokens⟩ := rfl
  have hclose : ['\x22'].foldlM Lexer.step ⟨.literal (fragments.reverse ++ []), tokens⟩ =
      some ⟨.ready, .atom (.text text) :: tokens⟩ := by
    simp [Lexer.step, Lexer.emit, Lexer.literalToken, htext, Json.text]
  have hquoted : (quoted text).toList =
      ['\x22'] ++ (text.toList.flatMap escapedChar ++ ['\x22']) := by
    simp [quoted]
  rw [hquoted, List.foldlM_append, hopen]
  change (text.toList.flatMap escapedChar ++ ['\x22']).foldlM Lexer.step ⟨.literal [], tokens⟩ = _
  rw [List.foldlM_append, hread]
  exact hclose

/-! ## Values -/

inductive IsTextual : Json → Prop
  | null : IsTextual .null
  | bool (value : Bool) : IsTextual (.bool value)
  | text (s : String) : IsTextual (.text s)
  | array {items : List Json} (h : ∀ item ∈ items, IsTextual item) : IsTextual (.array items)
  | record {fields : List (String × Json)} (h : ∀ field ∈ fields, IsTextual field.2) :
      IsTextual (.record fields)

def Yields (ts : List Token) (value : Json) : Prop :=
  ∀ stack expected, expected = .value ∨ expected = .item →
    ts.foldlM Assembly.step ⟨stack, expected⟩ = some (.complete value stack)

def Writes (text : String) (value : Json) : Prop :=
  ∃ ts, Lexes text.toList ts ∧ Yields ts value

theorem Writes.parse? {text : String} {value : Json} (h : Writes text value) :
    Json.parse? text = some value := by
  obtain ⟨ts, hlexes, hyields⟩ := h
  simp only [Json.parse?, hlexes.tokens?, Option.bind_some]
  rw [hyields [] .value (Or.inl rfl)]
  rfl

/-- Where a value is expected, every token but the end of an array has to begin one. -/
theorem step_eq_begin? {expected : Expected} (h : expected = .value ∨ expected = .item)
    {token : Token} (htoken : token ≠ .closeBracket) (stack : List Open) :
    Assembly.step ⟨stack, expected⟩ token = Assembly.begin? stack token := by
  rcases h with rfl | rfl
  · rfl
  · cases token with
    | closeBracket => exact absurd rfl htoken
    | _ => rcases stack with - | ⟨items | ⟨fields, key⟩, stack⟩ <;> rfl

theorem yields_atom (value : Json) : Yields [.atom value] value := by
  intro stack expected hexpected
  rw [List.foldlM_cons, step_eq_begin? hexpected (by simp)]
  rfl

def commaTexts (texts : List String) : List Char :=
  texts.flatMap fun text => ',' :: text.toList

theorem toList_joined (text : String) (texts : List String) :
    (",".intercalate (text :: texts)).toList = text.toList ++ commaTexts texts := by
  induction texts generalizing text with
  | nil => simp [commaTexts]
  | cons next texts ih =>
    rw [String.intercalate_cons_cons, String.toList_append, ih]
    simp [commaTexts]

theorem compactItems_eq_map (items : List Json) : compactItems items = items.map compact := by
  induction items with
  | nil => simp [compactItems]
  | cons item items ih => simp [compactItems, ih]

/-- Behind an item of an array, the others and the closing bracket complete it. -/
theorem exists_tokens_items {items : List Json} (h : ∀ item ∈ items, Writes item.compact item) :
    ∃ ts, Lexes (commaTexts (items.map compact) ++ [']']) ts ∧
      ∀ before stack, ts.foldlM Assembly.step ⟨.array before :: stack, .separator⟩ =
        some (.complete (.array (before.reverse ++ items)) stack) := by
  induction items with
  | nil => exact ⟨[.closeBracket], lexes_closeBracket, fun before stack => by simp [Assembly.step]⟩
  | cons item items ih =>
    obtain ⟨⟨ts, hlexes, hyields⟩, hitems⟩ := List.forall_mem_cons.mp h
    obtain ⟨others, hlexes', hothers⟩ := ih hitems
    refine ⟨[.comma] ++ (ts ++ others), ?_, fun before stack => ?_⟩
    · simpa [commaTexts] using lexes_comma.append (hlexes.append hlexes')
    · rw [List.foldlM_append]
      change (ts ++ others).foldlM Assembly.step ⟨.array before :: stack, .value⟩ = _
      rw [List.foldlM_append, hyields _ _ (Or.inl rfl)]
      have hothers := hothers (item :: before) stack
      rw [List.reverse_cons, List.append_assoc] at hothers
      exact hothers

theorem writes_array {items : List Json} (h : ∀ item ∈ items, Writes item.compact item) :
    Writes (Json.array items).compact (.array items) := by
  cases items with
  | nil =>
    refine ⟨[.openBracket] ++ [.closeBracket], ?_, fun stack expected hexpected => ?_⟩
    · have htext : (Json.array []).compact.toList = ['['] ++ [']'] := by
        simp [compact, compactItems]
      exact htext ▸ lexes_openBracket.append lexes_closeBracket
    · rw [List.foldlM_append, List.foldlM_cons, step_eq_begin? hexpected (by simp)]
      rfl
  | cons item items =>
    obtain ⟨⟨ts, hlexes, hyields⟩, hitems⟩ := List.forall_mem_cons.mp h
    obtain ⟨others, hlexes', hothers⟩ := exists_tokens_items hitems
    refine ⟨[.openBracket] ++ (ts ++ others), ?_, fun stack expected hexpected => ?_⟩
    · have htext : (Json.array (item :: items)).compact.toList =
          ['['] ++ (item.compact.toList ++ (commaTexts (items.map compact) ++ [']'])) := by
        rw [compact, compactItems_eq_map, List.map_cons, String.toList_append,
          String.toList_append, toList_joined]
        simp
      rw [htext]
      exact lexes_openBracket.append (hlexes.append hlexes')
    · rw [List.foldlM_append, List.foldlM_cons, step_eq_begin? hexpected (by simp)]
      change (ts ++ others).foldlM Assembly.step ⟨.array [] :: stack, .item⟩ = _
      rw [List.foldlM_append, hyields _ _ (Or.inr rfl)]
      exact hothers [item] stack

theorem record_eq_object (fields : List (String × Json)) :
    record fields = .object (fields.map fun field => (some field.1, field.2)) := rfl

def fieldText (field : String × Json) : String :=
  quoted field.1 ++ ":" ++ field.2.compact

theorem compactFields_eq_map (fields : List (String × Json)) :
    compactFields (fields.map fun field => (some field.1, field.2)) = fields.map fieldText := by
  induction fields with
  | nil => simp [compactFields]
  | cons field fields ih => simp [compactFields, literal, fieldText, ih]

theorem exists_tokens_field {field : String × Json} (h : Writes field.2.compact field.2) :
    ∃ ts, Lexes (fieldText field).toList ts ∧
      ∀ before key stack expected, expected = .field ∨ expected = .key →
        ts.foldlM Assembly.step ⟨.object before key :: stack, expected⟩ =
          some ⟨.object ((some field.1, field.2) :: before) none :: stack, .separator⟩ := by
  obtain ⟨ts, hlexes, hyields⟩ := h
  refine ⟨[.atom (.text field.1)] ++ ([.colon] ++ ts), ?_, fun before key stack expected h => ?_⟩
  · have htext : (fieldText field).toList =
        (quoted field.1).toList ++ ([':'] ++ field.2.compact.toList) := by
      simp [fieldText]
    rw [htext]
    exact (lexes_quoted _).append (lexes_colon.append hlexes)
  · rw [List.foldlM_append]
    rcases h with rfl | rfl
    · exact hyields _ _ (Or.inl rfl)
    · exact hyields _ _ (Or.inl rfl)

/-- Behind a field of an object, the others and the closing brace complete it. -/
theorem exists_tokens_fields {fields : List (String × Json)}
    (h : ∀ field ∈ fields, Writes field.2.compact field.2) :
    ∃ ts, Lexes (commaTexts (fields.map fieldText) ++ ['\x7d']) ts ∧
      ∀ before key stack, ts.foldlM Assembly.step ⟨.object before key :: stack, .separator⟩ =
        some (.complete
          (.object (before.reverse ++ fields.map fun field => (some field.1, field.2))) stack) := by
  induction fields with
  | nil => exact ⟨[.closeBrace], lexes_closeBrace, fun before key stack => by simp [Assembly.step]⟩
  | cons field fields ih =>
    obtain ⟨hfield, hfields⟩ := List.forall_mem_cons.mp h
    obtain ⟨ts, hlexes, hyields⟩ := exists_tokens_field hfield
    obtain ⟨others, hlexes', hothers⟩ := ih hfields
    refine ⟨[.comma] ++ (ts ++ others), ?_, fun before key stack => ?_⟩
    · simpa [commaTexts] using lexes_comma.append (hlexes.append hlexes')
    · rw [List.foldlM_append]
      change (ts ++ others).foldlM Assembly.step ⟨.object before key :: stack, .key⟩ = _
      rw [List.foldlM_append, hyields _ _ _ _ (Or.inr rfl)]
      have hothers := hothers ((some field.1, field.2) :: before) none stack
      rw [List.reverse_cons, List.append_assoc] at hothers
      exact hothers

theorem writes_record {fields : List (String × Json)}
    (h : ∀ field ∈ fields, Writes field.2.compact field.2) :
    Writes (Json.record fields).compact (.record fields) := by
  rw [record_eq_object]
  cases fields with
  | nil =>
    refine ⟨[.openBrace] ++ [.closeBrace], ?_, fun stack expected hexpected => ?_⟩
    · have htext : (Json.object []).compact.toList = ['\x7b'] ++ ['\x7d'] := by
        simp [compact, compactFields]
      exact htext ▸ lexes_openBrace.append lexes_closeBrace
    · rw [List.foldlM_append, List.foldlM_cons, step_eq_begin? hexpected (by simp)]
      rfl
  | cons field fields =>
    obtain ⟨hfield, hfields⟩ := List.forall_mem_cons.mp h
    obtain ⟨ts, hlexes, hyields⟩ := exists_tokens_field hfield
    obtain ⟨others, hlexes', hothers⟩ := exists_tokens_fields hfields
    refine ⟨[.openBrace] ++ (ts ++ others), ?_, fun stack expected hexpected => ?_⟩
    · have htext :
          (object ((field :: fields).map fun field => (some field.1, field.2))).compact.toList =
            ['\x7b'] ++
              ((fieldText field).toList ++ (commaTexts (fields.map fieldText) ++ ['\x7d'])) := by
        rw [compact, compactFields_eq_map, List.map_cons, String.toList_append,
          String.toList_append, toList_joined]
        simp
      rw [htext]
      exact lexes_openBrace.append (hlexes.append hlexes')
    · rw [List.foldlM_append, List.foldlM_cons, step_eq_begin? hexpected (by simp)]
      change (ts ++ others).foldlM Assembly.step ⟨.object [] none :: stack, .field⟩ = _
      rw [List.foldlM_append, hyields _ _ _ _ (Or.inl rfl)]
      exact hothers _ none stack

/-! ## Every value -/

theorem IsTextual.writes {value : Json} (h : IsTextual value) : Writes value.compact value := by
  induction h with
  | null => exact ⟨_, lexes_null, yields_atom _⟩
  | bool value => exact ⟨_, lexes_word value, yields_atom _⟩
  | text s => exact ⟨_, lexes_quoted s, yields_atom _⟩
  | array _ ih => exact writes_array ih
  | record _ ih => exact writes_record ih

/-- A value without numbers is what its compact text says. -/
theorem parse?_compact {value : Json} (h : IsTextual value) : parse? value.compact = some value :=
  h.writes.parse?

end YcpToRuby.Json
