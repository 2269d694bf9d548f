import MixComputer.Proofs.Assembly.Evaluation
import MixComputer.Proofs.Assembly.Refusal
import MixComputer.Proofs.Source.Renumbering

/-!
Lines with another number. A number of more than 63 bits makes the text of a line illegible, so
that nothing can be said about the number itself. Any other number is read, however long the run of
digits is, and if it has no room in a word it is refused as such: evaluation gets as far as it got
with the number that fits, and stops there.
-/
namespace MixComputer.Assembly

open Source

/-- The second computation ends with the refusal of the number `n`, unless both have ended before
and in the same way. -/
inductive RefusedFor (n : Nat) {α : Type} : Except Error α → Except Error α → Prop
  | number (r : Except Error α) : RefusedFor n r (.error (.outOfRange .number n))
  | before (error : Error) : RefusedFor n (.error error) (.error error)

section Refusal

variable {α β : Type} {n : Nat}

/-- What comes after the refusal does not matter. -/
theorem RefusedFor.bind {x x' : Except Error α} (h : RefusedFor n x x')
    (f f' : α → Except Error β) : RefusedFor n (x >>= f) (x' >>= f') := by
  cases h with
  | number => exact .number _
  | before error => exact .before error

/-- Neither does what comes before it and is the same. -/
theorem refusedFor_bind (x : Except Error α) {f f' : α → Except Error β}
    (h : ∀ a, RefusedFor n (f a) (f' a)) : RefusedFor n (x >>= f) (x >>= f') := by
  cases x with
  | error error => exact .before error
  | ok a => exact h a

theorem refusedFor_of_ok {x x' : Except Error α} {a a' : α} (hx : x = .ok a) (hx' : x' = .ok a')
    {f f' : α → Except Error β} (h : RefusedFor n (f a) (f' a')) :
    RefusedFor n (x >>= f) (x' >>= f') := by
  rw [hx, hx']
  exact h

def WellFormed (r : Except Error α) : Prop := ∀ cause, r ≠ .error (.malformed cause)

end Refusal

namespace Scope

variable {s : Scope} {n n' : Nat}

section Refusal

variable (hlarge : ¬ Word.Fits n')

include hlarge

theorem atom_refused (a : Atom) : RefusedFor n' (s.atom a) (s.atom (.number n')) := by
  have hatom : s.atom (.number n') = .error (.outOfRange .number n') := if_neg hlarge
  rw [hatom]
  exact .number _

theorem continueFrom_refused {operations operations' : List (Operator × Atom)}
    (h : Expression.OperationsRenumber n n' operations operations') (v : Int) :
    RefusedFor n' (s.continueFrom v operations) (s.continueFrom v operations') := by
  induction h generalizing v with
  | here => exact (atom_refused hlarge _).bind _ _
  | later o _ ih => exact refusedFor_bind _ fun b => refusedFor_bind _ fun v => ih v

theorem evaluate_refused {e e' : Expression} (h : e.Renumbers n n' e') :
    RefusedFor n' (s.evaluate e) (s.evaluate e') := by
  cases h with
  | first => exact (atom_refused hlarge _).bind _ _
  | rest _ _ h => exact refusedFor_bind _ fun v => continueFrom_refused hlarge h _

theorem fieldOf_refused {e e' : Expression} (h : e.Renumbers n n' e') :
    RefusedFor n' (s.fieldOf (some e)) (s.fieldOf (some e')) :=
  (evaluate_refused hlarge h).bind _ _

theorem storeParts_refused {w w' : WValue} (h : w.Renumbers n n' w') (v : Word) :
    RefusedFor n' (s.storeParts v w) (s.storeParts v w') := by
  induction h generalizing v with
  | here h w =>
    cases h with
    | value h => exact (evaluate_refused hlarge h).bind _ _
    | field _ h => exact refusedFor_bind _ fun v => (fieldOf_refused hlarge h).bind _ _
  | later p _ ih =>
    exact refusedFor_bind _ fun v => refusedFor_bind _ fun f => refusedFor_bind _ fun v => ih _

theorem indexOf_refused {e e' : Expression} (h : e.Renumbers n n' e') :
    RefusedFor n' (s.indexOf (some e)) (s.indexOf (some e')) :=
  (evaluate_refused hlarge h).bind _ _

theorem fieldPartOf_refused {e e' : Expression} (h : e.Renumbers n n' e') (standard : Byte) :
    RefusedFor n' (s.fieldPartOf standard (some e)) (s.fieldPartOf standard (some e')) :=
  (evaluate_refused hlarge h).bind _ _

end Refusal

end Scope

namespace Draft

variable {d : Draft} {op : Operation} {standard : Byte} {line : Nat}

section Words

variable {o o' : Operand} {w w' : WValue} {operand operand' : String} {n n' : Nat}

/-- An expression with a number in it is no lone symbol. -/
theorem openSymbol?_renumbers (d : Draft) {e e' : Expression} (h : e.Renumbers n n' e') :
    d.openSymbol? e = none ∧ d.openSymbol? e' = none := by
  cases h with
  | first negative operations => cases operations <;> exact ⟨rfl, rfl⟩
  | rest negative first h => cases first <;> cases h <;> exact ⟨rfl, rfl⟩

theorem wholeExpression?_eq_some {e : Expression} (h : wholeExpression? w = some e) :
    w = [⟨e, none⟩] := by
  unfold wholeExpression? at h
  split at h
  · cases h
    rfl
  · cases h

/-- A value with a number in it is no lone symbol either. -/
theorem wholeSymbol?_renumbers (d : Draft) (h : w.Renumbers n n' w') :
    (wholeExpression? w).bind d.openSymbol? = none ∧
      (wholeExpression? w').bind d.openSymbol? = none := by
  constructor
  · refine Option.bind_eq_none_iff.mpr fun e he => ?_
    obtain rfl := wholeExpression?_eq_some he
    cases h with
    | here h =>
      cases h with
      | value h => exact (d.openSymbol?_renumbers h).1
    | later _ h => cases h
  · refine Option.bind_eq_none_iff.mpr fun e' he' => ?_
    obtain rfl := wholeExpression?_eq_some he'
    cases h with
    | here h =>
      cases h with
      | value h => exact (d.openSymbol?_renumbers h).2
    | later _ h => cases h

variable (hlarge : ¬ Word.Fits n')

include hlarge

theorem instructionWord_refused (ho : readOperand operand = .ok o)
    (ho' : readOperand operand' = .ok o') (h : o.Renumbers n n' o') :
    RefusedFor n' (d.instructionWord op standard operand line)
      (d.instructionWord op standard operand' line) := by
  refine refusedFor_of_ok ho ho' ?_
  cases h with
  | address h index field =>
    refine refusedFor_bind (d.scope.indexOf index) fun index => ?_
    refine refusedFor_bind (d.scope.fieldPartOf standard field) fun field => ?_
    cases h with
    | expression h =>
      obtain ⟨hopen, hopen'⟩ := d.openSymbol?_renumbers h
      simp only [hopen, hopen']
      exact ((Scope.evaluate_refused hlarge h).bind _ _).bind _ _
    | literal h => exact (Scope.storeParts_refused hlarge h _).bind _ _
  | index address h field => exact (Scope.indexOf_refused hlarge h).bind _ _
  | field address index h =>
    refine refusedFor_bind (d.scope.indexOf index) fun index => ?_
    exact (Scope.fieldPartOf_refused hlarge h standard).bind _ _

variable (hw : readWValue operand = .ok w) (hw' : readWValue operand' = .ok w')
  (h : w.Renumbers n n' w')

include hw hw' h

theorem directiveWord_refused :
    RefusedFor n' (d.directiveWord operand) (d.directiveWord operand') :=
  refusedFor_of_ok hw hw' (Scope.storeParts_refused hlarge h _)

theorem constantWord_refused :
    RefusedFor n' (d.constantWord operand line) (d.constantWord operand' line) := by
  obtain ⟨hopen, hopen'⟩ := d.wholeSymbol?_renumbers h
  refine refusedFor_of_ok hw hw' ?_
  simp only [hopen, hopen']
  exact (Scope.storeParts_refused hlarge h _).bind _ _

theorem setEntry_refused :
    RefusedFor n' (d.setEntry operand line) (d.setEntry operand' line) := by
  obtain ⟨hopen, hopen'⟩ := d.wholeSymbol?_renumbers h
  refine refusedFor_of_ok hw hw' ?_
  simp only [hopen, hopen']
  exact (Scope.storeParts_refused hlarge h _).bind _ _

end Words

end Draft

/-- Whether a text has the form that a mnemonic asks of its operand. The five characters of `ALF`
are no operand. -/
def Accepts (mnemonic : Mnemonic) (operand : String) : Prop :=
  match mnemonic with
  | .instruction _ _ => ∃ o, readOperand operand = .ok o
  | .directive directive => directive ≠ .characters ∧ ∃ w, readWValue operand = .ok w

section Lines

variable {text text' : String} {digits digits' : List Char}

/-- With another number, a text is read again if and only if the number has 63 bits. -/
theorem readOperand_exchange (hx : Exchanges digits digits' text.toList text'.toList)
    {o : Operand} (ho : readOperand text = .ok o) :
    (0x8000000000000000 ≤ Text.numeral digits' →
        readOperand text' = .error (.malformed (.addressField text'))) ∧
      (Text.numeral digits' < 0x8000000000000000 →
        ∃ o', o.Renumbers (Text.numeral digits) (Text.numeral digits') o' ∧
          readOperand text' = .ok o') := by
  obtain ⟨hlarge, hsmall⟩ := Operand.ofChars?_exchange hx ((readOperand_eq_ok_iff text o).mp ho)
  refine ⟨fun hnumber => ?_, fun hnumber => ?_⟩
  · rw [readOperand, hlarge hnumber]
  · obtain ⟨o', ho', hread⟩ := hsmall hnumber
    exact ⟨o', ho', (readOperand_eq_ok_iff text' o').mpr hread⟩

theorem readWValue_exchange (hx : Exchanges digits digits' text.toList text'.toList)
    {w : WValue} (hw : readWValue text = .ok w) :
    (0x8000000000000000 ≤ Text.numeral digits' →
        readWValue text' = .error (.malformed (.wValue text'))) ∧
      (Text.numeral digits' < 0x8000000000000000 →
        ∃ w', w.Renumbers (Text.numeral digits) (Text.numeral digits') w' ∧
          readWValue text' = .ok w') := by
  obtain ⟨hlarge, hsmall⟩ := WValue.ofChars?_exchange hx ((readWValue_eq_ok_iff text w).mp hw)
  refine ⟨fun hnumber => ?_, fun hnumber => ?_⟩
  · rw [readWValue, hlarge hnumber]
  · obtain ⟨w', hw', hread⟩ := hsmall hnumber
    exact ⟨w', hw', (readWValue_eq_ok_iff text' w').mpr hread⟩

variable {mnemonic : Mnemonic}

/-- A line whose operand has been read has no error of form any more. -/
theorem wellFormed_obey (haccepts : Accepts mnemonic text) (d : Draft) (l : Line) (line : Nat) :
    WellFormed (d.obey mnemonic { l with operand := text } line).2 := by
  let P : Error → Prop := fun error => ∀ cause, error ≠ .malformed cause
  have hread {α : Type} {r : Except Error α} {a : α} (h : r = .ok a) : FailsWith P r := by
    rw [h]
    exact failsWith_ok a
  have htexts : Draft.TextsFailWith P mnemonic { l with operand := text } := by
    cases mnemonic with
    | instruction op standard =>
      obtain ⟨o, ho⟩ := haccepts
      exact ⟨fun _ _ _ => hread ho, nofun, nofun⟩
    | directive directive =>
      obtain ⟨hoperand, w, hw⟩ := haccepts
      exact ⟨nofun, fun _ _ _ => hread hw, fun h => absurd (Mnemonic.directive.inj h) hoperand⟩
  have hvalues (error : Error) (h : OfValues error) : P error := by
    rintro cause rfl
    cases h
  exact fun cause h => d.failsWith_obey hvalues htexts line _ h cause rfl

/-- A line with a number that has no room in a word is refused for the number, unless it is refused
for something that comes before. -/
theorem obey_refused (hx : Exchanges digits digits' text.toList text'.toList)
    (hlarge : ¬ Word.Fits (Text.numeral digits'))
    (hsmall : Text.numeral digits' < 0x8000000000000000) (haccepts : Accepts mnemonic text)
    (d : Draft) (l : Line) (line : Nat) :
    Accepts mnemonic text' ∧
      RefusedFor (Text.numeral digits') (d.obey mnemonic { l with operand := text } line).2
        (d.obey mnemonic { l with operand := text' } line).2 := by
  have hboth (first : Except Error Draft) {second second' : Draft → Except Error Draft}
      (hsecond : ∀ d, RefusedFor (Text.numeral digits') (second d) (second' d)) :
      RefusedFor (Text.numeral digits') (d.attemptBoth first second).2
        (d.attemptBoth first second').2 := by
    rw [Draft.attemptBoth_snd, Draft.attemptBoth_snd]
    exact refusedFor_bind first fun d' => (hsecond d').bind _ _
  cases mnemonic with
  | instruction op standard =>
    obtain ⟨o, ho⟩ := haccepts
    obtain ⟨o', hnumber, ho'⟩ := (readOperand_exchange hx ho).2 hsmall
    refine ⟨⟨o', ho'⟩, hboth _ fun d' => ?_⟩
    exact (Draft.instructionWord_refused hlarge ho ho' hnumber).bind _ _
  | directive directive =>
    obtain ⟨hoperand, w, hw⟩ := haccepts
    obtain ⟨w', hnumber, hw'⟩ := (readWValue_exchange hx hw).2 hsmall
    refine ⟨⟨hoperand, w', hw'⟩, ?_⟩
    cases directive with
    | characters => exact absurd rfl hoperand
    | equate =>
      change RefusedFor _ (d.attempt (d.equate l.label text)).2
        (d.attempt (d.equate l.label text')).2
      rw [Draft.attempt_snd, Draft.attempt_snd]
      exact ((Draft.directiveWord_refused hlarge hw hw' hnumber).bind _ _).bind _ _
    | origin =>
      exact hboth _ fun d' => (Draft.directiveWord_refused hlarge hw hw' hnumber).bind _ _
    | constant =>
      exact hboth _ fun d' => (Draft.constantWord_refused hlarge hw hw' hnumber).bind _ _
    | finish => exact hboth _ fun d' => Draft.setEntry_refused hlarge hw hw' hnumber

/-- A text that is read can have any other number in it, as long as the number has 63 bits: it is
read again, and nothing but the number is different. If the number has no room in a word, every
line with the new text is refused for the number, or for what was wrong with the line before, and
never for its form. A number of more than 63 bits leaves a text that is not read at all. -/
theorem reads_otherNumber (hx : Exchanges digits digits' text.toList text'.toList) :
    (∀ o, readOperand text = .ok o →
      (0x8000000000000000 ≤ Text.numeral digits' →
        readOperand text' = .error (.malformed (.addressField text'))) ∧
      (Text.numeral digits' < 0x8000000000000000 →
        ∃ o', o.Renumbers (Text.numeral digits) (Text.numeral digits') o' ∧
          readOperand text' = .ok o')) ∧
    (∀ w, readWValue text = .ok w →
      (0x8000000000000000 ≤ Text.numeral digits' →
        readWValue text' = .error (.malformed (.wValue text'))) ∧
      (Text.numeral digits' < 0x8000000000000000 →
        ∃ w', w.Renumbers (Text.numeral digits) (Text.numeral digits') w' ∧
          readWValue text' = .ok w')) ∧
    (¬ Word.Fits (Text.numeral digits') → Text.numeral digits' < 0x8000000000000000 →
      ∀ mnemonic, Accepts mnemonic text → ∀ (d : Draft) (l : Line) (line : Nat),
        RefusedFor (Text.numeral digits') (d.obey mnemonic { l with operand := text } line).2
            (d.obey mnemonic { l with operand := text' } line).2 ∧
          WellFormed (d.obey mnemonic { l with operand := text' } line).2) := by
  refine ⟨fun o ho => readOperand_exchange hx ho, fun w hw => readWValue_exchange hx hw, ?_⟩
  intro hlarge hsmall mnemonic haccepts d l line
  obtain ⟨haccepts', hrefused⟩ := obey_refused hx hlarge hsmall haccepts d l line
  exact ⟨hrefused, wellFormed_obey haccepts' d l line⟩

end Lines

def sevenLiteral : Operand :=
  ⟨.literal [⟨⟨false, .number 7, []⟩, none⟩], some ⟨false, .number 2, []⟩, none⟩

theorem exchanges_sevenLiteral {digits : List Char} {text : String} (hne : digits ≠ [])
    (hdigits : digits.all Char.isDigit = true)
    (htext : text.toList = ['='] ++ (digits ++ ['=', ',', '2'])) :
    Exchanges ['7'] digits "=7=,2".toList text.toList := by
  have hrun : IsRun "=7=,2".toList ['7'] ['='] ['=', ',', '2'] := by
    refine ⟨by decide +kernel, by decide, List.all_eq_true.mp (by decide), ?_, ?_⟩ <;>
      exact fun c hc => by cases hc; rfl
  rw [htext]
  exact .mk hrun (List.all_eq_true.mp (by decide)) hne (List.all_eq_true.mp hdigits)

/-- The least number that has no room in a word, and the least that has more than 63 bits. -/
theorem reads_otherNumber_literal :
    readOperand "=7=,2" = .ok sevenLiteral ∧
      (∃ o', sevenLiteral.Renumbers 7 1073741824 o' ∧ readOperand "=1073741824=,2" = .ok o') ∧
      ((Draft.start 4).obey (.instruction (.load .a) 5) ⟨none, "LDA", "=1073741824=,2", ""⟩ 1).2 =
        .error (.outOfRange .number 1073741824) ∧
      readOperand "=9223372036854775808=,2" =
        .error (.malformed (.addressField "=9223372036854775808=,2")) := by
  have hread : readOperand "=7=,2" = .ok sevenLiteral :=
    (readOperand_eq_ok_iff _ _).mpr (by decide +kernel)
  have hwide : Exchanges ['7'] "1073741824".toList "=7=,2".toList "=1073741824=,2".toList :=
    exchanges_sevenLiteral (by decide +kernel) (by decide +kernel) (by decide +kernel)
  have hlong : Exchanges ['7'] "9223372036854775808".toList "=7=,2".toList
      "=9223372036854775808=,2".toList :=
    exchanges_sevenLiteral (by decide +kernel) (by decide +kernel) (by decide +kernel)
  have hnumber : Text.numeral "1073741824".toList = 1073741824 := by decide +kernel
  obtain ⟨hoperand, -, hlines⟩ := reads_otherNumber hwide
  rw [hnumber] at hoperand hlines
  obtain ⟨hrefused, -⟩ := hlines (by decide) (by decide) (.instruction (.load .a) 5) ⟨_, hread⟩
    (Draft.start 4) ⟨none, "LDA", "", ""⟩ 1
  have hseven : ((Draft.start 4).obey (.instruction (.load .a) 5)
      ⟨none, "LDA", "=7=,2", ""⟩ 1).2 = .ok () := by rfl
  refine ⟨hread, (hoperand _ hread).2 (by decide), ?_, ?_⟩
  · rw [hseven] at hrefused
    generalize ((Draft.start 4).obey (.instruction (.load .a) 5)
      ⟨none, "LDA", "=1073741824=,2", ""⟩ 1).2 = r at hrefused
    cases hrefused
    rfl
  · exact ((reads_otherNumber hlong).1 _ hread).1 (by decide +kernel)

/-- A text of one digit is read, and a text of nineteen digits need not be. -/
theorem not_reads_anyNumber :
    ¬ ∀ (text text' : String) (digits digits' : List Char),
      Exchanges digits digits' text.toList text'.toList →
        (∃ o, readOperand text = .ok o) → ∃ o', readOperand text' = .ok o' := by
  intro hall
  have hrun : IsRun "0".toList ['0'] [] [] := by
    refine ⟨by decide +kernel, by decide, List.all_eq_true.mp (by decide), ?_, ?_⟩ <;>
      exact fun c hc => absurd hc (Option.not_mem_none c)
  have hne : "9223372036854775808".toList ≠ [] := by decide +kernel
  have hdigits : "9223372036854775808".toList.all Char.isDigit = true := by decide +kernel
  have hx := Exchanges.mk hrun (List.all_eq_true.mp (by decide)) hne (List.all_eq_true.mp hdigits)
  rw [List.nil_append, List.append_nil] at hx
  have hread : readOperand "0" = .ok ⟨.expression ⟨false, .number 0, []⟩, none, none⟩ :=
    (readOperand_eq_ok_iff _ _).mpr (by decide +kernel)
  obtain ⟨o, ho⟩ := hall _ _ _ _ hx ⟨_, hread⟩
  have hnone : Operand.ofChars? "9223372036854775808".toList = none := by decide +kernel
  rw [readOperand_eq_ok_iff, hnone] at ho
  cases ho

end MixComputer.Assembly
