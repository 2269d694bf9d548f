import MixComputer.Assembly.Reading
import MixComputer.Proofs.Computation

/-!
The errors that a line can have. Values and symbols have errors of their own, which come up
wherever an operand is evaluated, a label defined or a word put into memory; to these a line adds
what is wrong with its texts. That a symbol is undefined is never said of a line while it is read.
-/
namespace MixComputer.Assembly

open Source

/-- An error of values and symbols, which does not depend on how a text is written. -/
inductive OfValues : Error → Prop
  | duplicateSymbol (name : String) (value : Int) : OfValues (.duplicateSymbol name value)
  | futureReference (name : String) : OfValues (.futureReference name)
  | outOfRange (quantity : Quantity) (value : Int) : OfValues (.outOfRange quantity value)
  | divisionByZero : OfValues .divisionByZero

def OfUndefined (error : Error) : Prop := ∃ name location, error = .undefinedSymbol name location

theorem OfValues.not_ofUndefined {error : Error} (h : OfValues error) : ¬ OfUndefined error := by
  rintro ⟨name, location, rfl⟩
  cases h

theorem failsWith_checkRange (quantity : Quantity) (v : Int) :
    FailsWith OfValues (checkRange quantity v) :=
  failsWith_ite v (.outOfRange quantity v)

theorem failsWith_apply (op : Operator) (a b : Int) : FailsWith OfValues (apply op a b) := by
  unfold apply
  split
  · exact failsWith_checkRange _ _
  · exact failsWith_error .divisionByZero

namespace Scope

variable (s : Scope)

theorem failsWith_atom (a : Atom) : FailsWith OfValues (s.atom a) := by
  cases a with
  | number n => exact failsWith_checkRange _ _
  | here => exact failsWith_ok _
  | symbol name =>
    unfold atom
    simp only
    split
    · exact failsWith_ok _
    · exact failsWith_error (.futureReference name)

theorem failsWith_continueFrom (v : Int) (operations : List (Operator × Atom)) :
    FailsWith OfValues (s.continueFrom v operations) := by
  induction operations generalizing v with
  | nil => exact failsWith_ok v
  | cons o operations ih =>
    exact (s.failsWith_atom o.2).bind fun b => (failsWith_apply _ _ _).bind fun v => ih v

theorem failsWith_evaluate (e : Expression) : FailsWith OfValues (s.evaluate e) :=
  (s.failsWith_atom e.first).bind fun _ => s.failsWith_continueFrom _ _

theorem failsWith_fieldOf (field : Option Expression) : FailsWith OfValues (s.fieldOf field) := by
  cases field with
  | none => exact failsWith_ok _
  | some e =>
    refine (s.failsWith_evaluate e).bind fun code => ?_
    split
    · exact failsWith_ok _
    · exact failsWith_error (.outOfRange _ _)

theorem failsWith_storeParts (v : Word) (w : WValue) :
    FailsWith OfValues (s.storeParts v w) := by
  induction w generalizing v with
  | nil => exact failsWith_ok v
  | cons p w ih =>
    exact (s.failsWith_evaluate _).bind fun _ => (s.failsWith_fieldOf _).bind fun _ =>
      (failsWith_checkRange _ _).bind fun _ => ih _

theorem failsWith_word (w : WValue) : FailsWith OfValues (s.word w) := s.failsWith_storeParts _ w

theorem failsWith_indexOf (index : Option Expression) : FailsWith OfValues (s.indexOf index) := by
  cases index with
  | none => exact failsWith_ok _
  | some e =>
    refine (s.failsWith_evaluate e).bind fun v => ?_
    split
    · exact failsWith_ok _
    · exact failsWith_error (.outOfRange _ _)

theorem failsWith_fieldPartOf (standard : Byte) (field : Option Expression) :
    FailsWith OfValues (s.fieldPartOf standard field) := by
  cases field with
  | none => exact failsWith_ok _
  | some e =>
    refine (s.failsWith_evaluate e).bind fun v => ?_
    split
    · exact failsWith_ok _
    · exact failsWith_error (.outOfRange _ _)

theorem failsWith_addressOf (e : Expression) : FailsWith OfValues (addressOf s e) := by
  refine (s.failsWith_evaluate e).bind fun v => ?_
  split
  · exact failsWith_ok _
  · exact failsWith_ite _ (.outOfRange _ _)

end Scope

namespace Draft

variable (d : Draft)

theorem failsWith_define (name : String) (value : Int) :
    FailsWith OfValues (d.define name value) := by
  unfold define
  split
  · exact failsWith_ok _
  · exact failsWith_error (.duplicateSymbol _ _)

theorem failsWith_defineLabel (label : Option String) :
    FailsWith OfValues (d.defineLabel label) := by
  cases label with
  | none => exact failsWith_ok d
  | some name => exact d.failsWith_define name _

theorem failsWith_deferLabel (label : Option String) (line : Nat) :
    FailsWith OfValues (d.deferLabel label line) := by
  cases label with
  | none => exact failsWith_ok d
  | some name =>
    unfold deferLabel
    simp only
    split
    · exact failsWith_error (.duplicateSymbol _ _)
    · exact failsWith_ok _

theorem failsWith_checkLocation (quantity : Quantity) (v : Int) :
    FailsWith OfValues (d.checkLocation quantity v) := failsWith_ite _ (.outOfRange _ _)

theorem failsWith_emit (w : Word) : FailsWith OfValues (d.emit w) :=
  failsWith_ite _ (.outOfRange _ _)

theorem failsWith_put (entry : Word × Pending) : FailsWith OfValues (d.put entry) :=
  (d.failsWith_emit entry.1).bind fun _ => failsWith_ok _

section Line

variable {P : Error → Prop} (hvalues : ∀ error, OfValues error → P error) {operand : String}

include hvalues

theorem failsWith_instructionWord (hread : FailsWith P (readOperand operand)) (op : Operation)
    (standard : Byte) (line : Nat) :
    FailsWith P (d.instructionWord op standard operand line) := by
  refine hread.bind fun o => ?_
  refine ((d.scope.failsWith_indexOf _).mono hvalues).bind fun index => ?_
  refine ((d.scope.failsWith_fieldPartOf _ _).mono hvalues).bind fun field => ?_
  split
  · exact failsWith_ok _
  · split
    · exact failsWith_ok _
    · exact ((d.scope.failsWith_addressOf _).mono hvalues).bind fun _ => failsWith_ok _
  · exact ((d.scope.failsWith_word _).mono hvalues).bind fun _ => failsWith_ok _

variable (hread : FailsWith P (readWValue operand))

include hread

theorem failsWith_directiveWord : FailsWith P (d.directiveWord operand) :=
  hread.bind fun w => (d.scope.failsWith_word w).mono hvalues

theorem failsWith_equate (label : Option String) : FailsWith P (d.equate label operand) := by
  refine (d.failsWith_directiveWord hvalues hread).bind fun v => ?_
  split
  · exact (d.failsWith_define _ _).mono hvalues
  · exact failsWith_ok d

theorem failsWith_moveOrigin : FailsWith P (d.moveOrigin operand) :=
  (d.failsWith_directiveWord hvalues hread).bind fun _ =>
    ((d.failsWith_checkLocation _ _).mono hvalues).bind fun _ => failsWith_ok _

theorem failsWith_constantWord (line : Nat) : FailsWith P (d.constantWord operand line) := by
  refine hread.bind fun w => ?_
  split
  · exact failsWith_ok _
  · exact ((d.scope.failsWith_word w).mono hvalues).bind fun _ => failsWith_ok _

theorem failsWith_setEntry (line : Nat) : FailsWith P (d.setEntry operand line) := by
  refine hread.bind fun w => ?_
  split
  · exact failsWith_ok _
  · exact ((d.scope.failsWith_word w).mono hvalues).bind fun v =>
      ((d.failsWith_checkLocation _ _).mono hvalues).bind fun _ => failsWith_ok _

end Line

theorem attempt_snd (r : Except Error Draft) : (d.attempt r).2 = r >>= fun _ => .ok () := by
  cases r <;> rfl

theorem attemptBoth_snd (first : Except Error Draft) (second : Draft → Except Error Draft) :
    (d.attemptBoth first second).2 = first >>= fun d' => second d' >>= fun _ => .ok () := by
  cases first with
  | error error => rfl
  | ok d' => exact attempt_snd d' (second d')

/-- The texts of a line have such errors only. It depends on the mnemonic which of them are read. -/
structure TextsFailWith (P : Error → Prop) (mnemonic : Mnemonic) (l : Line) : Prop where
  operand : ∀ op standard, mnemonic = .instruction op standard → FailsWith P (readOperand l.operand)
  value : ∀ directive, mnemonic = .directive directive → directive ≠ .characters →
    FailsWith P (readWValue l.operand)
  characters : mnemonic = .directive .characters →
    FailsWith P (characterWord (fiveCharacters l.rest))

/-- A line has the errors of its texts, and those of values and symbols. -/
theorem failsWith_obey {P : Error → Prop} (hvalues : ∀ error, OfValues error → P error)
    {mnemonic : Mnemonic} {l : Line} (htexts : TextsFailWith P mnemonic l) (line : Nat) :
    FailsWith P (d.obey mnemonic l line).2 := by
  have hboth {first : Except Error Draft} {second : Draft → Except Error Draft}
      (hfirst : FailsWith OfValues first) (hsecond : ∀ d, FailsWith P (second d)) :
      FailsWith P (d.attemptBoth first second).2 := by
    rw [attemptBoth_snd]
    exact (hfirst.mono hvalues).bind fun d' => (hsecond d').bind fun _ => failsWith_ok ()
  have hput {entry : Draft → Except Error (Word × Pending)} (hentry : ∀ d, FailsWith P (entry d)) :
      FailsWith P (d.attemptBoth (d.defineLabel l.label) fun d => entry d >>= d.put).2 :=
    hboth (d.failsWith_defineLabel _) fun d' =>
      (hentry d').bind fun entry => (d'.failsWith_put entry).mono hvalues
  cases mnemonic with
  | instruction op standard =>
    have hread := htexts.operand op standard rfl
    exact hput fun d' => d'.failsWith_instructionWord hvalues hread op standard line
  | directive directive =>
    cases directive with
    | equate =>
      have hequate := d.failsWith_equate hvalues (htexts.value _ rfl nofun) l.label
      rw [obey, attempt_snd]
      exact hequate.bind fun _ => failsWith_ok ()
    | origin =>
      have hread := htexts.value _ rfl nofun
      exact hboth (d.failsWith_defineLabel _) fun d' => d'.failsWith_moveOrigin hvalues hread
    | constant =>
      have hread := htexts.value _ rfl nofun
      exact hput fun d' => d'.failsWith_constantWord hvalues hread line
    | characters => exact hput fun _ => (htexts.characters rfl).bind fun _ => failsWith_ok _
    | finish =>
      have hread := htexts.value _ rfl nofun
      exact hboth (d.failsWith_deferLabel _ _) fun d' => d'.failsWith_setEntry hvalues hread line

theorem failsWith_readOperand {P : Error → Prop} (h : ∀ cause, P (.malformed cause))
    (operand : String) : FailsWith P (readOperand operand) := by
  unfold readOperand
  split
  · exact failsWith_ok _
  · exact failsWith_error (h _)

theorem failsWith_readWValue {P : Error → Prop} (h : ∀ cause, P (.malformed cause))
    (operand : String) : FailsWith P (readWValue operand) := by
  unfold readWValue
  split
  · exact failsWith_ok _
  · exact failsWith_error (h _)

theorem failsWith_characterWord {P : Error → Prop} (h : ∀ c, P (.badCharacter c))
    (cs : List Char) : FailsWith P (characterWord cs) := by
  refine (failsWith_mapM (fun c => ?_) cs).bind fun _ => failsWith_ok _
  split
  · exact failsWith_ok _
  · exact failsWith_error (h c)

/-- Nothing is said about undefined symbols while a line is read. -/
theorem failsWith_readLine (text : String) (line : Nat) :
    FailsWith (¬ OfUndefined ·) (d.readLine text line).2 := by
  have htexts (mnemonic : Mnemonic) (l : Line) :
      TextsFailWith (¬ OfUndefined ·) mnemonic l := by
    refine ⟨fun _ _ _ => failsWith_readOperand ?_ _, fun _ _ _ => failsWith_readWValue ?_ _,
      fun _ => failsWith_characterWord ?_ _⟩ <;> exact fun _ => nofun
  unfold readLine parseLine
  cases Line.ofText? text with
  | error cause => exact failsWith_error nofun
  | ok l =>
    cases hmnemonic : Mnemonic.ofName? l.operation with
    | none =>
      simp only [hmnemonic]
      exact failsWith_error nofun
    | some mnemonic =>
      simp only [hmnemonic]
      have hobey := d.failsWith_obey (fun _ => OfValues.not_ofUndefined) (htexts mnemonic l) line
      cases hresult : d.obey mnemonic l line with
      | mk d' result =>
        rw [hresult] at hobey
        cases result with
        | ok done => exact failsWith_ok _
        | error error => exact failsWith_error (hobey error rfl)

end Draft

end MixComputer.Assembly
