import MixComputer.Proofs.Source.Token
import MixComputer.Source.Line
import MixComputer.Source.Operand

/-!
Symbols as they are written. A label is a symbol of one to ten letters and digits with a letter
among them. A symbol in an operand comes from a run of letters and digits as well, and has a letter
since it is no number; but nothing limits its length.
-/
namespace MixComputer.Source

/-- Letters and digits with a letter among them, however many. -/
def IsName (name : String) : Prop :=
  (∀ c ∈ name.toList, c.isAlphanum = true) ∧ ∃ c ∈ name.toList, c.isAlpha = true

/-- A name has no problem but its length. -/
theorem symbolProblem?_of_isName {name : String} (h : IsName name) :
    symbolProblem? name =
      if maxSymbolLength < name.toList.length then some (.symbolTooLong name) else none := by
  have hall : name.toList.all Char.isAlphanum = true := List.all_eq_true.mpr h.1
  have hany : name.toList.any Char.isAlpha = true := List.any_eq_true.mpr h.2
  unfold symbolProblem?
  simp only [hall, hany, Bool.and_self, if_true]

theorem symbolProblem?_eq_none_iff (name : String) :
    symbolProblem? name = none ↔ IsName name ∧ name.toList.length ≤ maxSymbolLength := by
  constructor
  · intro h
    have hname : IsName name := by
      unfold symbolProblem? at h
      simp only at h
      split at h
      · rename_i hletters
        obtain ⟨hall, hany⟩ := Bool.and_eq_true_iff.mp hletters
        exact ⟨List.all_eq_true.mp hall, List.any_eq_true.mp hany⟩
      · cases h
    refine ⟨hname, Nat.not_lt.mp fun hlong => ?_⟩
    rw [symbolProblem?_of_isName hname, if_pos hlong] at h
    cases h
  · rintro ⟨hname, hlength⟩
    rw [symbolProblem?_of_isName hname, if_neg (Nat.not_lt.mpr hlength)]

/-- A letter or digit that is no digit is a letter. -/
theorem isAlpha_of_not_isDigit {c : Char} (h : c.isAlphanum = true) (hdigit : c.isDigit = false) :
    c.isAlpha = true := by
  unfold Char.isAlphanum at h
  rwa [hdigit, Bool.or_false] at h

section Labels

theorem label_of_ofFields {label : Option String} {cs : List Char} {l : Line}
    (h : Line.ofFields label cs = .ok l) : l.label = label := by
  unfold Line.ofFields at h
  simp only at h
  split at h
  · cases h
  · cases h
    rfl

/-- The label of a line has no problem. -/
theorem symbolProblem?_of_label {text name : String} {l : Line} (h : Line.ofText? text = .ok l)
    (hname : l.label = some name) : symbolProblem? name = none := by
  unfold Line.ofText? at h
  simp only at h
  split at h
  · cases (label_of_ofFields h).symm.trans hname
  · split at h
    · cases h
    · rename_i hchecked
      cases (label_of_ofFields h).symm.trans hname
      exact hchecked

end Labels

section Tokens

variable {cs : List Char}

/-- A symbol that is read from a text is a name. -/
theorem isName_of_ofToken? {t : Token} {name : String} (ht : t ∈ Token.ofChars cs)
    (h : Atom.ofToken? t = some (.symbol name)) : IsName name := by
  cases t with
  | doubleSlash => cases h
  | mark c =>
    by_cases hstar : c = '*'
    · subst hstar
      cases h
    · simp [Atom.ofToken?, hstar] at h
  | word letters =>
    have hletters := ((Token.apart_ofChars cs).word_mem ht).2
    unfold Atom.ofToken? Atom.ofWord? at h
    simp only at h
    split at h
    · split at h <;> cases h
    · rename_i hdigits
      obtain rfl : String.ofList letters = name := Atom.symbol.inj (Option.some.inj h)
      obtain ⟨c, hc, hdigit⟩ := List.all_eq_false.mp (Bool.eq_false_iff.mpr hdigits)
      refine ⟨?_, c, ?_, isAlpha_of_not_isDigit (hletters c hc) (Bool.eq_false_iff.mpr hdigit)⟩
      · rwa [String.toList_ofList]
      · rwa [String.toList_ofList]

end Tokens

section Expressions

variable {ts rest : List Token} {e : Expression}

theorem readUnsigned?_first {negative : Bool}
    (h : Expression.readUnsigned? negative ts = some (e, rest)) :
    ∃ t ∈ ts, Atom.ofToken? t = some e.first := by
  cases ts with
  | nil => cases h
  | cons t ts =>
    obtain ⟨first, hfirst, h⟩ := Option.map_eq_some_iff.mp h
    cases h
    exact ⟨t, List.mem_cons_self, hfirst⟩

/-- The first atom of an expression is one of the tokens that it is read from. -/
theorem read?_first (h : Expression.read? ts = some (e, rest)) :
    ∃ t ∈ ts, Atom.ofToken? t = some e.first := by
  unfold Expression.read? at h
  split at h
  · obtain ⟨t, ht, hfirst⟩ := readUnsigned?_first h
    exact ⟨t, List.mem_cons_of_mem _ ht, hfirst⟩
  · obtain ⟨t, ht, hfirst⟩ := readUnsigned?_first h
    exact ⟨t, List.mem_cons_of_mem _ ht, hfirst⟩
  · exact readUnsigned?_first h

theorem readTail?_address {address : AddressPart} {operand : Operand}
    (h : Operand.readTail? address ts = some operand) : operand.address = address := by
  unfold Operand.readTail? at h
  split at h
  · split at h
    · obtain ⟨field, -, rfl⟩ := Option.map_eq_some_iff.mp h
      rfl
    · cases h
  · obtain ⟨field, -, rfl⟩ := Option.map_eq_some_iff.mp h
    rfl

/-- So is the first atom of the address of an operand. -/
theorem operand_first {operand : Operand} (h : Operand.ofTokens? ts = some operand)
    (haddress : operand.address = .expression e) : ∃ t ∈ ts, Atom.ofToken? t = some e.first := by
  unfold Operand.ofTokens? at h
  split at h
  · unfold Operand.readLiteral? at h
    split at h
    · cases h
    · split at h
      · rw [readTail?_address h] at haddress
        cases haddress
      · cases h
  · split at h
    · rename_i hread
      rw [readTail?_address h] at haddress
      cases haddress
      exact read?_first hread
    · rw [readTail?_address h] at haddress
      cases haddress

theorem mem_of_mem_commaSeparated {part : List Token} {t : Token} (ht : t ∈ part)
    (h : part ∈ commaSeparated ts) : t ∈ ts := by
  induction ts generalizing part with
  | nil =>
    rw [List.mem_singleton.mp h] at ht
    cases ht
  | cons first ts ih =>
    unfold commaSeparated at h
    split at h
    · obtain rfl | hrest := List.mem_cons.mp h
      · cases ht
      · exact List.mem_cons_of_mem _ (ih ht hrest)
    · split at h
      · rename_i part' parts hparts
        obtain rfl | hrest := List.mem_cons.mp h
        · obtain rfl | ht := List.mem_cons.mp ht
          · exact List.mem_cons_self
          · exact List.mem_cons_of_mem _ (ih ht (hparts ▸ List.mem_cons_self))
        · exact List.mem_cons_of_mem _ (ih ht (hparts ▸ List.mem_cons_of_mem _ hrest))
      · rw [List.mem_singleton.mp h] at ht
        rw [List.mem_singleton.mp ht]
        exact List.mem_cons_self

theorem mapM_cons_eq_some {α β : Type} {f : α → Option β} {a : α} {as : List α} {bs : List β}
    (h : (a :: as).mapM f = some bs) :
    ∃ b bs', f a = some b ∧ as.mapM f = some bs' ∧ bs = b :: bs' := by
  rw [List.mapM_cons] at h
  obtain ⟨b, hb, h⟩ := Option.bind_eq_some_iff.mp h
  obtain ⟨bs', hbs', h⟩ := Option.bind_eq_some_iff.mp h
  exact ⟨b, bs', hb, hbs', (Option.some.inj h).symm⟩

/-- The parts of a value are read from the parts of the list. -/
theorem exists_of_mem_mapM {α β : Type} {f : α → Option β} {as : List α} {bs : List β} {b : β}
    (h : as.mapM f = some bs) (hb : b ∈ bs) : ∃ a ∈ as, f a = some b := by
  induction as generalizing bs with
  | nil =>
    cases h
    cases hb
  | cons a as ih =>
    obtain ⟨first, others, hfirst, hothers, rfl⟩ := mapM_cons_eq_some h
    obtain rfl | hb := List.mem_cons.mp hb
    · exact ⟨a, List.mem_cons_self, hfirst⟩
    · obtain ⟨a', ha', hf⟩ := ih hothers hb
      exact ⟨a', List.mem_cons_of_mem a ha', hf⟩

/-- And so is the first atom of each part of a value. -/
theorem wValue_first {w : WValue} {p : WPart} (h : WValue.ofTokens? ts = some w) (hp : p ∈ w) :
    ∃ t ∈ ts, Atom.ofToken? t = some p.value.first := by
  unfold WValue.ofTokens? at h
  obtain ⟨part, hpart, hread⟩ := exists_of_mem_mapM h hp
  unfold WPart.ofTokens? at hread
  split at hread
  · rename_i hvalue
    obtain ⟨field, -, rfl⟩ := Option.map_eq_some_iff.mp hread
    obtain ⟨t, ht, hfirst⟩ := read?_first hvalue
    exact ⟨t, mem_of_mem_commaSeparated ht hpart, hfirst⟩
  · cases hread

end Expressions

end MixComputer.Source
