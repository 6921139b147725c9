import YcpToRuby.Generate.Constant
import YcpToRuby.Proofs.Number.Decimal
import YcpToRuby.Proofs.Ruby.RoundTrip

/-!
# Constants and their texts

What a constant denotes in the source, what its printed text denotes in Ruby, and that the two are
the same. Texts and symbols are read back by the reader of tokens, whatever follows them. Integers
are accepted when they are decimal and fit 64 bits, and are printed without the zeros in front that
would change the base.
-/

set_option autoImplicit false

namespace YcpToRuby.Ruby

/-! ## Quoted texts -/

theorem spells_quoted (text : String) (rest : List Char) :
    Spells (quoted text).toList (.string text) rest := by
  simpa [quoted] using @spells_string rest text.toList

/-! ## Printed constants -/

theorem emit_literal (value : Literal) : (Node.literal value).emit = value.text ++ "\n" :=
  rfl

theorem emit_invoke_string (name text : String) :
    (Node.invoke none name [.string text]).emit = name ++ "(" ++ quoted text ++ ")" ++ "\n" := by
  change (Node.call none name [.string text] none true).chunk 0 ++ "\n" = _
  rw [chunk_call]
  rfl

end YcpToRuby.Ruby

namespace YcpToRuby.Generate

open Number (IsDecimal IsInteger)
open Ruby (Ends Literal Node Spells isControl quoted)

theorem integer_eq_ok_iff {text : String} {node : Node} :
    constant .int (some text) = .ok node ↔
      ∃ n, IsDecimal text.toList n ∧ -2 ^ 63 ≤ n ∧ n < 2 ^ 63 ∧ node = .literal (.integer n) := by
  simp only [constant, integerNode]
  constructor
  · intro h
    split at h
    · rename_i n hn
      obtain ⟨hdecimal, hlow, hhigh⟩ := Number.signed64?_eq_some_iff.mp hn
      exact ⟨n, hdecimal, hlow, hhigh, (Except.ok.inj h).symm⟩
    · cases h
  · rintro ⟨n, hdecimal, hlow, hhigh, rfl⟩
    simp [Number.signed64?_eq_some_iff.mpr ⟨hdecimal, hlow, hhigh⟩]

theorem boolean_eq_ok_iff {text : String} {node : Node} :
    constant .bool (some text) = .ok node ↔
      ∃ b : Bool, text = (Literal.bool b).text ∧ node = .literal (.bool b) := by
  simp only [constant, booleanNode]
  constructor
  · intro h
    split at h
    · exact ⟨true, ‹_›, (Except.ok.inj h).symm⟩
    · split at h
      · exact ⟨false, ‹_›, (Except.ok.inj h).symm⟩
      · cases h
  · rintro ⟨b, rfl, rfl⟩
    cases b <;> rfl

/-- Constants survive translation and printing. A quoted text is read back whatever follows it, and
holds no raw control character. So texts, paths and symbols keep their value. Integers are accepted
exactly when they are decimal and fit 64 bits, and are printed as the same number. The truth values
print as themselves, and nothing else is one. -/
theorem constants_survive :
    (∀ (text : String) (rest : List Char),
      Spells (quoted text).toList (.string text) rest ∧
        ∀ c ∈ (quoted text).toList, isControl c = false) ∧
    (∀ text, ∃ node, constant .string (some text) = .ok node ∧
      node.emit = quoted text ++ "\n") ∧
    (∀ text, ∃ node, constant .path (some text) = .ok node ∧
      node.emit = "path(" ++ quoted text ++ ")" ++ "\n") ∧
    (∀ name, ∃ node printed, constant .symbol (some name) = .ok node ∧
      node.emit = printed ++ "\n" ∧
        ∀ rest, Ends rest → Spells printed.toList (.symbol name) rest) ∧
    (∀ text, (∃ node, constant .int (some text) = .ok node) ↔
      ∃ n, IsDecimal text.toList n ∧ -2 ^ 63 ≤ n ∧ n < 2 ^ 63) ∧
    (∀ text node n, constant .int (some text) = .ok node → IsDecimal text.toList n →
      ∃ printed, node.emit = printed ++ "\n" ∧ IsInteger printed.toList n) ∧
    (∀ text, (∃ node, constant .bool (some text) = .ok node) ↔ text = "true" ∨ text = "false") ∧
    (∀ text node, constant .bool (some text) = .ok node → node.emit = text ++ "\n") := by
  refine ⟨?_, ?_, ?_, ?_, ?_, ?_, ?_, ?_⟩
  · intro text rest
    exact ⟨Ruby.spells_quoted text rest, fun c hc => Ruby.isControl_of_mem_quoted hc⟩
  · intro text
    exact ⟨_, rfl, Ruby.emit_literal _⟩
  · intro text
    exact ⟨_, rfl, Ruby.emit_invoke_string "path" text⟩
  · intro name
    exact ⟨_, _, rfl, Ruby.emit_literal _, fun rest hrest => Ruby.spells_symbol name hrest⟩
  · intro text
    simp only [integer_eq_ok_iff]
    constructor
    · rintro ⟨node, n, hdecimal, hlow, hhigh, -⟩
      exact ⟨n, hdecimal, hlow, hhigh⟩
    · rintro ⟨n, hdecimal, hlow, hhigh⟩
      exact ⟨_, n, hdecimal, hlow, hhigh, rfl⟩
  · intro text node n hnode hn
    obtain ⟨m, hm, -, -, rfl⟩ := integer_eq_ok_iff.mp hnode
    obtain rfl := hm.unique hn
    exact ⟨_, Ruby.emit_literal _, Number.isInteger_toString m⟩
  · intro text
    simp only [boolean_eq_ok_iff]
    constructor
    · rintro ⟨node, b, rfl, -⟩
      cases b
      · exact Or.inr rfl
      · exact Or.inl rfl
    · rintro (rfl | rfl)
      · exact ⟨_, true, rfl, rfl⟩
      · exact ⟨_, false, rfl, rfl⟩
  · intro text node hnode
    obtain ⟨b, rfl, rfl⟩ := boolean_eq_ok_iff.mp hnode
    exact Ruby.emit_literal _

end YcpToRuby.Generate
