import MixComputer.Proofs.Assembly.Reading

/-!
The entry of a program. Nothing but an `END` without an error names it, so it is not named as long
as reading goes on.
-/
namespace MixComputer.Assembly

open Source

namespace Draft

section Steps

variable {d : Draft} {first : Except Error Draft} {second : Draft → Except Error Draft}

/-- Two changes end well if each does. -/
theorem attemptBoth_eq_ok (h : (d.attemptBoth first second).2 = .ok ()) :
    ∃ d₁ d₂, first = .ok d₁ ∧ second d₁ = .ok d₂ ∧ (d.attemptBoth first second).1 = d₂ := by
  cases first with
  | error error => cases h
  | ok d₁ =>
    simp only [attemptBoth] at h ⊢
    cases hsecond : second d₁ with
    | error error =>
      rw [hsecond] at h
      cases h
    | ok d₂ => exact ⟨d₁, d₂, rfl, hsecond, rfl⟩

theorem attemptBoth_of_error {error : Error} (h : (d.attemptBoth first second).2 = .error error) :
    (d.attemptBoth first second).1 = d ∨ first = .ok (d.attemptBoth first second).1 := by
  cases first with
  | error error => exact .inl rfl
  | ok d₁ =>
    simp only [attemptBoth] at h ⊢
    cases hsecond : second d₁ with
    | error error => exact .inr rfl
    | ok d₂ =>
      rw [hsecond] at h
      cases h

end Steps

section EntrySymbol

variable {d d' : Draft}

theorem entrySymbol_define {name : String} {value : Int} (h : d.define name value = .ok d') :
    d'.entrySymbol = d.entrySymbol := by
  obtain ⟨symbols, -, rfl⟩ := define_eq_ok_iff.mp h
  rfl

theorem entrySymbol_defineLabel {label : Option String} (h : d.defineLabel label = .ok d') :
    d'.entrySymbol = d.entrySymbol := by
  obtain ⟨symbols, -, rfl⟩ := defineLabel_eq_ok h
  rfl

theorem entrySymbol_put {entry : Word × Pending} (h : d.put entry = .ok d') :
    d'.entrySymbol = d.entrySymbol := by
  obtain ⟨-, rfl⟩ := put_eq_ok_iff.mp h
  cases entry.2 <;> rfl

theorem entrySymbol_word {x : Except Error (Word × Pending)} (h : x >>= d.put = .ok d') :
    d'.entrySymbol = d.entrySymbol := by
  obtain ⟨entry, -, hput⟩ := (bind_eq_ok_iff _ _ _).mp h
  exact entrySymbol_put hput

/-- Only `END` names the entry. -/
theorem entrySymbol_obey {mnemonic : Mnemonic} (h : mnemonic ≠ .directive .finish) (d : Draft)
    (l : Line) (line : Nat) : (d.obey mnemonic l line).1.entrySymbol = d.entrySymbol := by
  have hlabelled {second : Draft → Except Error Draft}
      (hsecond : ∀ d₁ d₂, second d₁ = .ok d₂ → d₂.entrySymbol = d₁.entrySymbol) :
      (d.attemptBoth (d.defineLabel l.label) second).1.entrySymbol = d.entrySymbol :=
    attemptBoth_keeps (P := fun d' => d'.entrySymbol = d.entrySymbol) rfl
      (fun _ => entrySymbol_defineLabel) fun d₁ d₂ hd₁ hd₂ => (hsecond d₁ d₂ hd₂).trans hd₁
  cases mnemonic with
  | instruction op standard => exact hlabelled fun _ _ => entrySymbol_word
  | directive directive =>
    cases directive with
    | finish => exact absurd rfl h
    | constant => exact hlabelled fun _ _ => entrySymbol_word
    | characters => exact hlabelled fun _ _ => entrySymbol_word
    | equate =>
      refine attempt_keeps (P := fun d' => d'.entrySymbol = d.entrySymbol) rfl fun d' hd' => ?_
      obtain ⟨w, -, hd'⟩ := (bind_eq_ok_iff _ _ _).mp hd'
      cases hl : l.label with
      | none =>
        rw [hl] at hd'
        cases hd'
        rfl
      | some name =>
        rw [hl] at hd'
        exact entrySymbol_define hd'
    | origin =>
      refine hlabelled fun d₁ d₂ hd₂ => ?_
      obtain ⟨w, -, hd₂⟩ := (bind_eq_ok_iff _ _ _).mp hd₂
      obtain ⟨location, -, hd₂⟩ := (bind_eq_ok_iff _ _ _).mp hd₂
      cases hd₂
      rfl

/-- An `END` with an error does not count. -/
theorem entrySymbol_obey_of_error {l : Line} {line : Nat} {error : Error}
    (h : (d.obey (.directive .finish) l line).2 = .error error) :
    (d.obey (.directive .finish) l line).1.entrySymbol = d.entrySymbol := by
  rcases attemptBoth_of_error h with hsame | hlabel
  · exact congrArg entrySymbol hsame
  · obtain ⟨endLabel, heq⟩ := deferLabel_eq_ok hlabel
    unfold obey
    rw [heq]

/-- A line with which reading does not end leaves the entry unnamed. -/
theorem entrySymbol_takeLine {text : String} {line : Nat}
    (h : d.takeLine text line = (d', false)) : d'.entrySymbol = d.entrySymbol := by
  have htakes := takes_takeLine d text line
  rw [h] at htakes
  generalize htaken : (d', false) = taken at htakes
  cases htakes with
  | comment hcomment => rw [(Prod.mk.inj htaken).1]
  | malformed hcomment hparse =>
    rw [(Prod.mk.inj htaken).1]
    rfl
  | @obeyed l mnemonic d₁ hcomment hparse hobey =>
    obtain ⟨rfl, hlast⟩ := Prod.mk.inj htaken
    have hother : mnemonic ≠ .directive .finish := by
      rintro rfl
      simp at hlast
    have hsame := entrySymbol_obey hother d l line
    rwa [hobey] at hsame
  | @refused l mnemonic d₁ error hcomment hparse hobey =>
    rw [(Prod.mk.inj htaken).1]
    have hsame : (d.obey mnemonic l line).1.entrySymbol = d.entrySymbol := by
      by_cases hfinish : mnemonic = .directive .finish
      · subst hfinish
        exact entrySymbol_obey_of_error (congrArg Prod.snd hobey)
      · exact entrySymbol_obey hfinish d l line
    rwa [hobey] at hsame

/-- So as long as reading goes on the entry is not named. -/
theorem entrySymbol_draftAt? {line k : Nat} {texts : List String}
    (h : d.draftAt? line texts k = some d') : d'.entrySymbol = d.entrySymbol := by
  induction k generalizing d line texts with
  | zero =>
    cases h
    rfl
  | succ k ih =>
    cases texts with
    | nil => cases h
    | cons text rest =>
      unfold draftAt? at h
      cases htake : d.takeLine text line with
      | mk d₁ last =>
        simp only [htake] at h
        cases last with
        | true => cases h
        | false => exact (ih h).trans (entrySymbol_takeLine htake)

end EntrySymbol

end Draft

end MixComputer.Assembly
