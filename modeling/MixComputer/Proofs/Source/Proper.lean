import MixComputer.Proofs.Source.Recognition

/-!
Readers and the grammar once more, for texts with numbers of any length. Nothing that is read has
a number of more than 63 bits, and whatever is written without such a number is read. So the size
of its numbers is all that keeps a text of the grammar from being read.
-/
namespace MixComputer.Source

open Token (ofChars)

variable {text : List Char} {ts rest : List Token}

theorem Atom.proper_of_ofToken? {t : Token} {a : Atom} (ht : t ∈ ofChars text)
    (h : Atom.ofToken? t = some a) : a.Proper := by
  cases a with
  | here => exact True.intro
  | symbol name =>
    obtain ⟨hletters, c, hc, halpha⟩ := isName_of_ofToken? ht h
    refine ⟨hletters, List.all_eq_false.mpr ⟨c, hc, ?_⟩⟩
    exact Bool.eq_false_iff.mp (Text.isDigit_of_isAlpha halpha)
  | number n =>
    unfold ofToken? at h
    split at h
    · unfold ofWord? at h
      split at h
      · split at h
        · rename_i hlt
          cases h
          exact hlt
        · cases h
      · cases h
    · cases h
    · cases h

namespace Expression

theorem proper_of_readOperations {operations : List (Operator × Atom)}
    (hts : ∀ t ∈ ts, t ∈ ofChars text) (h : readOperations ts = (operations, rest)) :
    ∀ o ∈ operations, o.2.Proper := by
  fun_induction readOperations ts generalizing operations rest with
  | case1 t u ts op a ha hop more rest' hread ih =>
    cases h
    obtain ⟨hu, hmore⟩ := List.forall_mem_cons.mp (List.forall_mem_cons.mp hts).2
    exact List.forall_mem_cons.mpr ⟨Atom.proper_of_ofToken? hu ha, ih hmore hread⟩
  | case2 | case3 =>
    cases h
    exact fun o ho => absurd ho List.not_mem_nil

theorem proper_of_readUnsigned? {negative : Bool} {e : Expression}
    (hts : ∀ t ∈ ts, t ∈ ofChars text) (h : readUnsigned? negative ts = some (e, rest)) :
    e.Proper := by
  cases ts with
  | nil => cases h
  | cons t ts =>
    obtain ⟨ht, hmore⟩ := List.forall_mem_cons.mp hts
    obtain ⟨a, ha, h⟩ := Option.map_eq_some_iff.mp h
    cases h
    exact ⟨Atom.proper_of_ofToken? ht ha, proper_of_readOperations hmore rfl⟩

theorem proper_of_read? {e : Expression} (hts : ∀ t ∈ ts, t ∈ ofChars text)
    (h : read? ts = some (e, rest)) : e.Proper := by
  unfold read? at h
  split at h
  · exact proper_of_readUnsigned? (List.forall_mem_cons.mp hts).2 h
  · exact proper_of_readUnsigned? (List.forall_mem_cons.mp hts).2 h
  · exact proper_of_readUnsigned? hts h

/-- What an expression leaves is a part of what it was read from. -/
theorem mem_of_read? {e : Expression} (hts : ∀ t ∈ ts, t ∈ ofChars text)
    (h : read? ts = some (e, rest)) : ∀ t ∈ rest, t ∈ ofChars text := by
  obtain ⟨us, rfl, -⟩ := writtenAs_of_read? hts h
  exact (List.forall_mem_append.mp hts).2

end Expression

theorem proper_of_closeField? {field : Option Expression} (hts : ∀ t ∈ ts, t ∈ ofChars text)
    (h : closeField? ts = some field) : ∀ e ∈ field, e.Proper := by
  unfold closeField? at h
  split at h
  · cases h
    exact fun e he => absurd he (Option.not_mem_none e)
  · split at h
    · rename_i hread
      cases h
      intro e he
      cases he
      exact Expression.proper_of_read? (List.forall_mem_cons.mp hts).2 hread
    · cases h
  · cases h

theorem WPart.proper_of_ofTokens? {p : WPart} (hts : ∀ t ∈ ts, t ∈ ofChars text)
    (h : WPart.ofTokens? ts = some p) : p.Proper := by
  unfold WPart.ofTokens? at h
  split at h
  · rename_i hread
    obtain ⟨field, hfield, rfl⟩ := Option.map_eq_some_iff.mp h
    have hrest := Expression.mem_of_read? hts hread
    exact ⟨Expression.proper_of_read? hts hread, proper_of_closeField? hrest hfield⟩
  · cases h

theorem WValue.proper_of_ofTokens? {w : WValue} (hts : ∀ t ∈ ts, t ∈ ofChars text)
    (h : WValue.ofTokens? ts = some w) : ∀ p ∈ w, p.Proper := by
  intro p hp
  obtain ⟨part, hpart, hread⟩ := exists_of_mem_mapM h hp
  exact WPart.proper_of_ofTokens? (fun t ht => hts t (mem_of_mem_commaSeparated ht hpart)) hread

theorem WValue.ne_nil_of_ofTokens? {w : WValue} (hts : ∀ t ∈ ts, t ∈ ofChars text)
    (h : WValue.ofTokens? ts = some w) : w ≠ [] := by
  have hwritten := WValue.writtenAs_of_ofTokens? hts h
  generalize ts.flatMap Token.chars = cs at hwritten
  cases hwritten <;> exact List.cons_ne_nil _ _

namespace Operand

theorem proper_of_readTail? {address : AddressPart} {o : Operand}
    (hts : ∀ t ∈ ts, t ∈ ofChars text) (haddress : address.Proper)
    (h : readTail? address ts = some o) : o.Proper := by
  unfold readTail? at h
  split at h
  · split at h
    · rename_i hread
      obtain ⟨field, hfield, rfl⟩ := Option.map_eq_some_iff.mp h
      have hus := (List.forall_mem_cons.mp hts).2
      have hrest := Expression.mem_of_read? hus hread
      refine ⟨haddress, fun e he => ?_, proper_of_closeField? hrest hfield⟩
      cases he
      exact Expression.proper_of_read? hus hread
    · cases h
  · obtain ⟨field, hfield, rfl⟩ := Option.map_eq_some_iff.mp h
    exact ⟨haddress, fun e he => absurd he (Option.not_mem_none e),
      proper_of_closeField? hts hfield⟩

theorem proper_of_ofTokens? {o : Operand} (hts : ∀ t ∈ ts, t ∈ ofChars text)
    (h : ofTokens? ts = some o) : o.Proper := by
  unfold ofTokens? at h
  split at h
  · obtain ⟨us, vs, w, rfl, hw, htail⟩ := readLiteral?_eq_some h
    obtain ⟨hus, hvs⟩ := List.forall_mem_append.mp (List.forall_mem_cons.mp hts).2
    have hliteral : (AddressPart.literal w).Proper :=
      ⟨WValue.ne_nil_of_ofTokens? hus hw, WValue.proper_of_ofTokens? hus hw⟩
    exact proper_of_readTail? (List.forall_mem_cons.mp hvs).2 hliteral htail
  · split at h
    · rename_i hread
      have hrest := Expression.mem_of_read? hts hread
      have haddress : (AddressPart.expression _).Proper := Expression.proper_of_read? hts hread
      exact proper_of_readTail? hrest haddress h
    · have haddress : AddressPart.empty.Proper := True.intro
      exact proper_of_readTail? hts haddress h

/-- An operand is read from the texts of the grammar, if its numbers have 63 bits. -/
theorem ofChars?_eq_some_iff (cs : List Char) (o : Operand) :
    ofChars? cs = some o ↔ o.WrittenAs cs ∧ o.Proper := by
  constructor
  · intro h
    have hwritten := writtenAs_of_ofTokens? (fun t ht => ht) h
    rw [Token.flatMap_chars_ofChars] at hwritten
    exact ⟨hwritten, proper_of_ofTokens? (fun t ht => ht) h⟩
  · rintro ⟨hwritten, hproper⟩
    exact (legible hwritten).read hproper

end Operand

/-- And so is the value of a directive. -/
theorem WValue.ofChars?_eq_some_iff (cs : List Char) (w : WValue) :
    WValue.ofChars? cs = some w ↔ w.StandsAlone cs ∧ ∀ p ∈ w, p.Proper := by
  constructor
  · intro h
    refine ⟨WValue.standsAlone_of_ofChars? h, ?_⟩
    unfold WValue.ofChars? at h
    split at h
    · cases h
      exact fun p hp => absurd hp List.not_mem_nil
    · exact WValue.proper_of_ofTokens? (fun t ht => ht) h
  · rintro ⟨hwritten, hproper⟩
    exact WValue.ofChars?_of_standsAlone hwritten hproper

end MixComputer.Source
