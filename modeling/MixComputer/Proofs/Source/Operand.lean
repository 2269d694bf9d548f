import MixComputer.Proofs.Source.Expression
import MixComputer.Source.Operand

/-!
Writing operands. An expression, the index and the field that follow it are read back from the
text of their tokens.
-/
namespace MixComputer.Source

def fieldTokens : Option Expression → List Token
  | none => []
  | some e => .mark '(' :: e.tokens [.mark ')']

def indexTokens (index : Option Expression) (ts : List Token) : List Token :=
  match index with
  | none => ts
  | some e => .mark ',' :: e.tokens ts

section Field

variable {field : Option Expression}

theorem closeField?_fieldTokens (h : ∀ e ∈ field, e.Proper) :
    closeField? (fieldTokens field) = some field := by
  cases field with
  | none => rfl
  | some e =>
    have hread : Expression.read? (e.tokens [.mark ')']) = some (e, [.mark ')']) :=
      Expression.read?_tokens (h e rfl) rfl
    simp only [fieldTokens, closeField?, hread]

theorem ends_fieldTokens (field : Option Expression) : Expression.Ends (fieldTokens field) := by
  cases field <;> rfl

theorem apart_fieldTokens (h : ∀ e ∈ field, e.Proper) :
    Token.Apart (fieldTokens field) ∧ Token.NoWord (fieldTokens field) := by
  cases field with
  | none => exact ⟨True.intro, True.intro⟩
  | some e =>
    have hclose : Token.Apart [.mark ')'] := Token.apart_mark rfl (by simp) True.intro
    have htokens := Expression.apart_tokens (h e rfl) hclose True.intro
    exact ⟨Token.apart_mark rfl (by simp) htokens, True.intro⟩

end Field

section Tail

variable {index field : Option Expression}

theorem ends_indexTokens {ts : List Token} (hts : Expression.Ends ts) :
    Expression.Ends (indexTokens index ts) := by
  cases index with
  | none => exact hts
  | some e => rfl

theorem apart_indexTokens (hindex : ∀ e ∈ index, e.Proper) {ts : List Token}
    (hts : Token.Apart ts) (hnext : Token.NoWord ts) :
    Token.Apart (indexTokens index ts) ∧ Token.NoWord (indexTokens index ts) := by
  cases index with
  | none => exact ⟨hts, hnext⟩
  | some e =>
    have htokens := Expression.apart_tokens (hindex e rfl) hts hnext
    exact ⟨Token.apart_mark rfl (by simp) htokens, True.intro⟩

theorem readTail?_tokens (address : AddressPart) (hindex : ∀ e ∈ index, e.Proper)
    (hfield : ∀ e ∈ field, e.Proper) :
    Operand.readTail? address (indexTokens index (fieldTokens field)) =
      some ⟨address, index, field⟩ := by
  have hclose := closeField?_fieldTokens hfield
  cases index with
  | none =>
    cases field with
    | none => rfl
    | some e =>
      have htail : Operand.readTail? address (fieldTokens (some e)) =
          (closeField? (fieldTokens (some e))).map fun field => ⟨address, none, field⟩ := rfl
      rw [indexTokens, htail, hclose]
      rfl
  | some e =>
    have hread := Expression.read?_tokens (hindex e rfl) (ends_fieldTokens field)
    simp only [indexTokens, Operand.readTail?, hread, hclose, Option.map_some]

/-- An expression with an index and a field is read from its text. -/
theorem ofChars?_tokens {e : Expression} (he : e.Proper) (hindex : ∀ e ∈ index, e.Proper)
    (hfield : ∀ e ∈ field, e.Proper) :
    Operand.ofChars? ((e.tokens (indexTokens index (fieldTokens field))).flatMap Token.chars) =
      some ⟨.expression e, index, field⟩ := by
  obtain ⟨hfieldApart, hfieldWord⟩ := apart_fieldTokens hfield
  obtain ⟨hindexApart, hindexWord⟩ := apart_indexTokens hindex hfieldApart hfieldWord
  have hends : Expression.Ends (indexTokens index (fieldTokens field)) :=
    ends_indexTokens (ends_fieldTokens field)
  have hread := Expression.read?_tokens he hends
  rw [Operand.ofChars?, Token.ofChars_flatMap_chars
    (Expression.apart_tokens he hindexApart hindexWord)]
  have hfirst : ∀ ts, e.tokens (indexTokens index (fieldTokens field)) ≠ .mark '=' :: ts := by
    obtain ⟨negative, first, operations⟩ := e
    intro ts
    cases negative <;> cases first <;> simp [Expression.tokens, Atom.token]
  unfold Operand.ofTokens?
  split
  · rename_i ts heq
    exact absurd heq (hfirst ts)
  · simp only [hread, readTail?_tokens _ hindex hfield]

/-- There is no blank in an operand. -/
theorem visible_operand {e : Expression} (he : e.Proper) (hindex : ∀ e ∈ index, e.Proper)
    (hfield : ∀ e ∈ field, e.Proper) :
    ∀ t ∈ e.tokens (indexTokens index (fieldTokens field)), t.Visible := by
  have hfieldVisible : ∀ t ∈ fieldTokens field, t.Visible := by
    cases field with
    | none => exact fun t ht => absurd ht List.not_mem_nil
    | some f =>
      have hclose : ∀ t ∈ [Token.mark ')'], t.Visible := by
        intro t ht
        rw [List.mem_singleton.mp ht]
        exact Token.visible_mark (by decide)
      intro t ht
      rcases List.mem_cons.mp ht with rfl | ht
      · exact Token.visible_mark (by decide)
      · exact Expression.visible_tokens hclose (hfield f rfl) t ht
  have hindexVisible : ∀ t ∈ indexTokens index (fieldTokens field), t.Visible := by
    cases index with
    | none => exact hfieldVisible
    | some i =>
      intro t ht
      rcases List.mem_cons.mp ht with rfl | ht
      · exact Token.visible_mark (by decide)
      · exact Expression.visible_tokens hfieldVisible (hindex i rfl) t ht
  exact Expression.visible_tokens hindexVisible he

end Tail

end MixComputer.Source
