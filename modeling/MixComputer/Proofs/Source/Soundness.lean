import MixComputer.Proofs.Source.Completeness

/-!
What is read has been written. Each reader splits the tokens into those that it takes and those
that it leaves, and what it takes is written as what it gives, so the grammar allows the whole of
a text that is read to its end.
-/
namespace MixComputer.Source

open Token (ofChars)

variable {text : List Char} {ts rest : List Token}

theorem Atom.writtenAs_of_ofToken? {t : Token} {a : Atom} (ht : t ∈ ofChars text)
    (h : Atom.ofToken? t = some a) : a.WrittenAs t.chars := by
  have hread := h
  unfold Atom.ofToken? at h
  split at h
  · rename_i letters
    unfold Atom.ofWord? at h
    split at h
    · rename_i hdigits
      split at h
      · cases h
        have hne := ((Token.apart_ofChars text).word_mem ht).1
        exact .number hne (List.all_eq_true.mp hdigits)
      · cases h
    · cases h
      have hwritten := Atom.WrittenAs.symbol (isName_of_ofToken? ht hread)
      rwa [String.toList_ofList] at hwritten
  · cases h
    exact .here
  · cases h

theorem Operator.chars_of_ofToken? {t : Token} {op : Operator}
    (h : Operator.ofToken? t = some op) : t.chars = op.text.toList := by
  unfold Operator.ofToken? at h
  split at h <;> cases h <;> decide

namespace Expression

theorem writtenAs_of_readOperations {operations : List (Operator × Atom)}
    (hts : ∀ t ∈ ts, t ∈ ofChars text) (h : readOperations ts = (operations, rest)) :
    ∃ us, ts = us ++ rest ∧ OperationsWrittenAs operations (us.flatMap Token.chars) := by
  fun_induction readOperations ts generalizing operations rest with
  | case1 t u ts op a ha hop more rest' hread ih =>
    cases h
    obtain ⟨hu, hmore⟩ := List.forall_mem_cons.mp (List.forall_mem_cons.mp hts).2
    obtain ⟨us, rfl, hwritten⟩ := ih hmore hread
    refine ⟨t :: u :: us, rfl, ?_⟩
    rw [List.flatMap_cons, List.flatMap_cons, Operator.chars_of_ofToken? hop]
    exact .more (Atom.writtenAs_of_ofToken? hu ha) hwritten
  | case2 | case3 =>
    cases h
    exact ⟨[], rfl, .none⟩

theorem writtenAs_of_readUnsigned? {negative : Bool} {e : Expression} {sign : List Char}
    (hts : ∀ t ∈ ts, t ∈ ofChars text) (hsign : SignWrittenAs negative sign)
    (h : readUnsigned? negative ts = some (e, rest)) :
    ∃ us, ts = us ++ rest ∧ e.WrittenAs (sign ++ us.flatMap Token.chars) := by
  cases ts with
  | nil => cases h
  | cons t ts =>
    obtain ⟨ht, hmore⟩ := List.forall_mem_cons.mp hts
    obtain ⟨a, ha, h⟩ := Option.map_eq_some_iff.mp h
    cases h
    obtain ⟨us, heq, hwritten⟩ := writtenAs_of_readOperations hmore rfl
    exact ⟨t :: us, congrArg (t :: ·) heq, .mk hsign (Atom.writtenAs_of_ofToken? ht ha) hwritten⟩

theorem writtenAs_of_read? {e : Expression} (hts : ∀ t ∈ ts, t ∈ ofChars text)
    (h : read? ts = some (e, rest)) :
    ∃ us, ts = us ++ rest ∧ e.WrittenAs (us.flatMap Token.chars) := by
  unfold read? at h
  split at h
  · obtain ⟨us, rfl, hwritten⟩ :=
      writtenAs_of_readUnsigned? (List.forall_mem_cons.mp hts).2 .plus h
    exact ⟨.mark '+' :: us, rfl, hwritten⟩
  · obtain ⟨us, rfl, hwritten⟩ :=
      writtenAs_of_readUnsigned? (List.forall_mem_cons.mp hts).2 .minus h
    exact ⟨.mark '-' :: us, rfl, hwritten⟩
  · exact writtenAs_of_readUnsigned? hts .missing h

end Expression

theorem fieldWrittenAs_of_closeField? {field : Option Expression}
    (hts : ∀ t ∈ ts, t ∈ ofChars text) (h : closeField? ts = some field) :
    FieldWrittenAs field (ts.flatMap Token.chars) := by
  unfold closeField? at h
  split at h
  · cases h
    exact .missing
  · split at h
    · rename_i hread
      cases h
      obtain ⟨us, rfl, hwritten⟩ :=
        Expression.writtenAs_of_read? (List.forall_mem_cons.mp hts).2 hread
      rw [List.flatMap_cons, List.flatMap_append]
      exact .given hwritten
    · cases h
  · cases h

theorem WPart.writtenAs_of_ofTokens? {p : WPart} (hts : ∀ t ∈ ts, t ∈ ofChars text)
    (h : WPart.ofTokens? ts = some p) : p.WrittenAs (ts.flatMap Token.chars) := by
  unfold WPart.ofTokens? at h
  split at h
  · rename_i hread
    obtain ⟨field, hfield, rfl⟩ := Option.map_eq_some_iff.mp h
    obtain ⟨us, rfl, hvalue⟩ := Expression.writtenAs_of_read? hts hread
    rw [List.flatMap_append]
    exact .mk hvalue (fieldWrittenAs_of_closeField? (List.forall_mem_append.mp hts).2 hfield)
  · cases h

/-- Tokens are separated at the first comma. -/
theorem commaSeparated_cases (ts : List Token) :
    commaSeparated ts = [ts] ∨
      ∃ part us, ts = part ++ .mark ',' :: us ∧ commaSeparated ts = part :: commaSeparated us := by
  by_cases h : .mark ',' ∈ ts
  · obtain ⟨part, us, rfl, hpart⟩ := List.eq_append_cons_of_mem h
    exact .inr ⟨part, us, rfl, commaSeparated_append hpart us⟩
  · exact .inl (commaSeparated_of_not_mem h)

theorem WValue.writtenAs_of_ofTokens? {w : WValue} (hts : ∀ t ∈ ts, t ∈ ofChars text)
    (h : WValue.ofTokens? ts = some w) : w.WrittenAs (ts.flatMap Token.chars) := by
  induction hlength : ts.length using Nat.strongRecOn generalizing ts w with
  | ind n ih =>
    unfold WValue.ofTokens? at h
    obtain heq | ⟨part, us, rfl, heq⟩ := commaSeparated_cases ts
    · rw [heq] at h
      obtain ⟨p, w, hp, hw, rfl⟩ := mapM_cons_eq_some h
      cases hw
      exact .one (WPart.writtenAs_of_ofTokens? hts hp)
    · rw [heq] at h
      obtain ⟨p, w, hp, hw, rfl⟩ := mapM_cons_eq_some h
      obtain ⟨hpart, hus⟩ := List.forall_mem_append.mp hts
      have hshorter : us.length < n := by
        rw [← hlength, List.length_append, List.length_cons]
        omega
      rw [List.flatMap_append, List.flatMap_cons]
      exact .more (WPart.writtenAs_of_ofTokens? hpart hp)
        (ih us.length hshorter (List.forall_mem_cons.mp hus).2 hw rfl)

namespace Operand

theorem writtenAs_of_readTail? {address : AddressPart} {o : Operand} {cs : List Char}
    (hts : ∀ t ∈ ts, t ∈ ofChars text) (haddress : address.WrittenAs cs)
    (h : readTail? address ts = some o) : o.WrittenAs (cs ++ ts.flatMap Token.chars) := by
  unfold readTail? at h
  split at h
  · split at h
    · rename_i hread
      obtain ⟨field, hfield, rfl⟩ := Option.map_eq_some_iff.mp h
      have hus := (List.forall_mem_cons.mp hts).2
      obtain ⟨us, rfl, hwritten⟩ := Expression.writtenAs_of_read? hus hread
      have hfield' := fieldWrittenAs_of_closeField? (List.forall_mem_append.mp hus).2 hfield
      have hoperand := WrittenAs.mk haddress (.given hwritten) hfield'
      rw [List.flatMap_cons, List.flatMap_append]
      exact hoperand
    · cases h
  · obtain ⟨field, hfield, rfl⟩ := Option.map_eq_some_iff.mp h
    exact .mk haddress .missing (fieldWrittenAs_of_closeField? hts hfield)

/-- A literal ends at the first equals sign. -/
theorem readLiteral?_eq_some {o : Operand} (h : readLiteral? ts = some o) :
    ∃ us vs w, ts = us ++ .mark '=' :: vs ∧ WValue.ofTokens? us = some w ∧
      readTail? (.literal w) vs = some o := by
  unfold readLiteral? at h
  split at h
  · cases h
  · rename_i t vs hdrop
    split at h
    · rename_i w hw
      have hstop := List.head?_dropWhile_not (· != Token.mark '=') ts
      rw [hdrop] at hstop
      obtain rfl : t = .mark '=' := by simpa using hstop
      refine ⟨_, vs, w, ?_, hw, h⟩
      rw [← hdrop, List.takeWhile_append_dropWhile]
    · cases h

theorem writtenAs_of_readLiteral? {o : Operand} (hts : ∀ t ∈ ts, t ∈ ofChars text)
    (h : readLiteral? ts = some o) : o.WrittenAs ('=' :: ts.flatMap Token.chars) := by
  obtain ⟨us, vs, w, rfl, hw, htail⟩ := readLiteral?_eq_some h
  obtain ⟨hus, hvs⟩ := List.forall_mem_append.mp hts
  have hliteral := AddressPart.WrittenAs.literal (WValue.writtenAs_of_ofTokens? hus hw)
  have hoperand := writtenAs_of_readTail? (List.forall_mem_cons.mp hvs).2 hliteral htail
  rw [List.cons_append, List.append_assoc] at hoperand
  rw [List.flatMap_append, List.flatMap_cons]
  exact hoperand

theorem writtenAs_of_ofTokens? {o : Operand} (hts : ∀ t ∈ ts, t ∈ ofChars text)
    (h : ofTokens? ts = some o) : o.WrittenAs (ts.flatMap Token.chars) := by
  unfold ofTokens? at h
  split at h
  · exact writtenAs_of_readLiteral? (List.forall_mem_cons.mp hts).2 h
  · split at h
    · rename_i hread
      obtain ⟨us, rfl, he⟩ := Expression.writtenAs_of_read? hts hread
      rw [List.flatMap_append]
      exact writtenAs_of_readTail? (List.forall_mem_append.mp hts).2 (.expression he) h
    · exact writtenAs_of_readTail? hts .empty h

end Operand

end MixComputer.Source
