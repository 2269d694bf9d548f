import MixComputer.Proofs.Assembly.Program

/-!
What a line with an error leaves behind. Nothing is put into memory, and nothing waits for a value;
but a label is taken note of before the rest of its line is read, and is not taken back. Only
`EQU` finds a value for its label first.
-/
namespace MixComputer.Assembly

open Source

namespace Draft

def newLabel? (d : Draft) (label : Option String) : Option String :=
  label.filter fun name => !d.symbols.contains name

/-- The label that is taken note of before the rest of its line is read, if it is new. -/
def earlyLabel? (d : Draft) (mnemonic : Mnemonic) (l : Line) : Option String :=
  if mnemonic = .directive .equate then none else d.newLabel? l.label

/-- The label of an `END` is kept for later, and any other names the location. -/
def note (d : Draft) (mnemonic : Mnemonic) (line : Nat) (name : String) : Draft :=
  if mnemonic = .directive .finish then { d with endLabel := some (name, line) }
  else { d with symbols := ⟨d.symbols.entries ++ [(name, (d.location : Int))]⟩ }

/-- Passing over a line, but for its label. -/
def skip (d : Draft) (text : String) (line : Nat) : Draft :=
  match parseLine text with
  | .error _ => d
  | .ok (l, mnemonic) => (d.earlyLabel? mnemonic l).elim d (d.note mnemonic line)

section Failure

variable {d d' : Draft} {error : Error}

theorem attempt_eq_error {r : Except Error Draft} (h : d.attempt r = (d', .error error)) :
    d' = d := by
  cases r with
  | ok next => cases h
  | error other =>
    cases h
    rfl

/-- If the second of two changes fails, the first is not taken back. -/
theorem attemptBoth_eq_error {first : Except Error Draft} {second : Draft → Except Error Draft}
    (h : d.attemptBoth first second = (d', .error error)) :
    first = .error error ∧ d' = d ∨ first = .ok d' := by
  cases first with
  | error other =>
    cases h
    exact .inl ⟨rfl, rfl⟩
  | ok next => exact .inr (congrArg Except.ok (attempt_eq_error h).symm)

end Failure

section Label

variable {d d' : Draft} {label : Option String} {line : Nat} {error : Error}

theorem newLabel?_of_get?_none {name : String} (h : d.symbols.get? name = none) :
    d.newLabel? (some name) = some name := by
  refine Option.filter_eq_some_iff.mpr ⟨rfl, ?_⟩
  rw [SymbolTable.contains, h]
  rfl

theorem newLabel?_of_get? {name : String} {old : Int} (h : d.symbols.get? name = some old) :
    d.newLabel? (some name) = none := by
  refine Option.filter_eq_none_iff.mpr fun other hother => ?_
  cases hother
  simp [SymbolTable.contains, h]

theorem get?_of_newLabel? {name : String} (h : d.newLabel? label = some name) :
    d.symbols.get? name = none := by
  obtain ⟨-, hnew⟩ := Option.filter_eq_some_iff.mp h
  simpa [SymbolTable.contains] using hnew

/-- Only a label that is known is refused. -/
theorem newLabel?_of_defineLabel_error (h : d.defineLabel label = .error error) :
    d.newLabel? label = none := by
  cases label with
  | none => rfl
  | some name =>
    cases hname : d.symbols.get? name with
    | some old => exact newLabel?_of_get? hname
    | none => simp [defineLabel, define, SymbolTable.insert, hname] at h

theorem newLabel?_of_deferLabel_error (h : d.deferLabel label line = .error error) :
    d.newLabel? label = none := by
  cases label with
  | none => rfl
  | some name =>
    cases hname : d.symbols.get? name with
    | some old => exact newLabel?_of_get? hname
    | none => simp [deferLabel, hname] at h

theorem eq_note_of_defineLabel {mnemonic : Mnemonic} (hother : mnemonic ≠ .directive .finish)
    (h : d.defineLabel label = .ok d') :
    d' = (d.newLabel? label).elim d (d.note mnemonic line) := by
  cases label with
  | none =>
    cases h
    rfl
  | some name =>
    cases hname : d.symbols.get? name with
    | some old => simp [defineLabel, define, SymbolTable.insert, hname] at h
    | none =>
      simp only [defineLabel, define, SymbolTable.insert, hname, Except.ok.injEq] at h
      rw [newLabel?_of_get?_none hname, Option.elim_some, note, if_neg hother]
      exact h.symm

theorem eq_note_of_deferLabel (h : d.deferLabel label line = .ok d') :
    d' = (d.newLabel? label).elim d (d.note (.directive .finish) line) := by
  cases label with
  | none =>
    cases h
    rfl
  | some name =>
    cases hname : d.symbols.get? name with
    | some old => simp [deferLabel, hname] at h
    | none =>
      simp only [deferLabel, hname, Except.ok.injEq] at h
      rw [newLabel?_of_get?_none hname, Option.elim_some, note, if_pos rfl]
      exact h.symm

end Label

section Line

variable {d d' : Draft} {mnemonic : Mnemonic} {l : Line} {text : String} {line : Nat}
  {error : Error}

/-- A line whose label comes first. -/
theorem skip_of_defineLabel {second : Draft → Except Error Draft}
    (hequate : mnemonic ≠ .directive .equate) (hfinish : mnemonic ≠ .directive .finish)
    (h : d.attemptBoth (d.defineLabel l.label) second = (d', .error error)) :
    d' = (d.earlyLabel? mnemonic l).elim d (d.note mnemonic line) := by
  rw [earlyLabel?, if_neg hequate]
  rcases attemptBoth_eq_error h with ⟨hlabel, rfl⟩ | hlabel
  · rw [newLabel?_of_defineLabel_error hlabel]
    rfl
  · exact eq_note_of_defineLabel hfinish hlabel

theorem obey_eq_error (h : d.obey mnemonic l line = (d', .error error)) :
    d' = (d.earlyLabel? mnemonic l).elim d (d.note mnemonic line) := by
  cases mnemonic with
  | instruction op standard => exact skip_of_defineLabel nofun nofun h
  | directive directive =>
    cases directive with
    | equate => exact attempt_eq_error h
    | origin => exact skip_of_defineLabel nofun nofun h
    | constant => exact skip_of_defineLabel nofun nofun h
    | characters => exact skip_of_defineLabel nofun nofun h
    | finish =>
      rw [earlyLabel?, if_neg nofun]
      rcases attemptBoth_eq_error h with ⟨hlabel, rfl⟩ | hlabel
      · rw [newLabel?_of_deferLabel_error hlabel]
        rfl
      · exact eq_note_of_deferLabel hlabel

theorem readLine_eq_error (h : d.readLine text line = (d', .error error)) :
    d' = d.skip text line := by
  unfold readLine at h
  unfold skip
  cases hparse : parseLine text with
  | error cause =>
    simp only [hparse, Prod.mk.injEq] at h
    exact h.1.symm
  | ok parsed =>
    obtain ⟨l, mnemonic⟩ := parsed
    cases hobey : d.obey mnemonic l line with
    | mk next result =>
      cases result with
      | ok done => simp [hparse, hobey] at h
      | error cause =>
        simp only [hparse, hobey, Prod.mk.injEq] at h
        rw [← h.1]
        exact obey_eq_error hobey

theorem takeLine_of_readLine_error (hcomment : isComment text = false)
    (h : d.readLine text line = (d', .error error)) :
    d.takeLine text line = (d'.report line .error error, false) := by
  simp only [takeLine, hcomment, Bool.false_eq_true, if_false, h]

/-- A label that has been taken note of stands for the location of its line. -/
theorem get?_note {name : String} (hother : mnemonic ≠ .directive .finish)
    (hearly : d.earlyLabel? mnemonic l = some name) :
    (d.note mnemonic line name).symbols.get? name = some (d.location : Int) := by
  have hequate : mnemonic ≠ .directive .equate := by
    rintro rfl
    cases hearly
  rw [earlyLabel?, if_neg hequate] at hearly
  have hinsert : d.symbols.insert name d.location =
      .ok ⟨d.symbols.entries ++ [(name, (d.location : Int))]⟩ := by
    simp only [SymbolTable.insert, get?_of_newLabel? hearly]
  rw [note, if_neg hother]
  exact SymbolTable.get?_insert hinsert

/-- A label that has been taken note of makes a difference, unless it waits already. -/
theorem note_eq_iff {name : String} :
    ((d.note mnemonic line name).symbols = d.symbols ∧
        (d.note mnemonic line name).endLabel = d.endLabel) ↔
      mnemonic = .directive .finish ∧ d.endLabel = some (name, line) := by
  by_cases hfinish : mnemonic = .directive .finish
  · rw [note, if_pos hfinish]
    exact ⟨fun h => ⟨hfinish, h.2.symm⟩, fun h => ⟨rfl, h.2.symm⟩⟩
  · rw [note, if_neg hfinish]
    refine ⟨fun h => ?_, fun h => absurd h.1 hfinish⟩
    have hlonger := congrArg (List.length ∘ SymbolTable.entries) h.1
    simp at hlonger

theorem skip_eq_iff :
    ((d.skip text line).symbols = d.symbols ∧ (d.skip text line).endLabel = d.endLabel) ↔
      ∀ l mnemonic name, parseLine text = .ok (l, mnemonic) →
        d.earlyLabel? mnemonic l = some name →
          mnemonic = .directive .finish ∧ d.endLabel = some (name, line) := by
  unfold skip
  cases hparse : parseLine text with
  | error error => exact ⟨fun _ => nofun, fun _ => ⟨rfl, rfl⟩⟩
  | ok parsed =>
    obtain ⟨l, mnemonic⟩ := parsed
    simp only [Except.ok.injEq, Prod.mk.injEq]
    cases hearly : d.earlyLabel? mnemonic l with
    | none =>
      refine ⟨fun _ => ?_, fun _ => ⟨rfl, rfl⟩⟩
      rintro _ _ name ⟨rfl, rfl⟩ hsome
      rw [hearly] at hsome
      cases hsome
    | some name =>
      rw [Option.elim_some, note_eq_iff]
      constructor
      · rintro h _ _ other ⟨rfl, rfl⟩ hsome
        rw [hearly] at hsome
        cases hsome
        exact h
      · intro h
        exact h l mnemonic name ⟨rfl, rfl⟩ hearly

end Line

/-- A line with an error is passed over, but for its label. So no symbol and no label of the last
line has been added just if the line has no new label, or is an `EQU`. A label that is new on such
a line stands for the location of the line in the end, unless this is an `EQU` or an `END`. -/
theorem skip_keeps_label {d d' : Draft} {text : String} {line : Nat} {error : Error}
    (h : d.readLine text line = (d', .error error)) :
    d' = d.skip text line ∧
      ((d'.symbols = d.symbols ∧ d'.endLabel = d.endLabel) ↔
        ∀ l mnemonic name, parseLine text = .ok (l, mnemonic) →
          d.earlyLabel? mnemonic l = some name →
            mnemonic = .directive .finish ∧ d.endLabel = some (name, line)) ∧
      ∀ size program k l mnemonic name, (start size).draftAt? 1 (Text.lines program) k = some d →
        (Text.lines program)[k]? = some text → line = 1 + k → isComment text = false →
        parseLine text = .ok (l, mnemonic) → d.earlyLabel? mnemonic l = some name →
          mnemonic ≠ .directive .finish →
          (assemble size program).symbols.get? name = some (d.location : Int) := by
  have hskip := readLine_eq_error h
  refine ⟨hskip, hskip ▸ skip_eq_iff, ?_⟩
  rintro size program k l mnemonic name hdraft htext rfl hcomment hparse hearly hother
  have hvalue : d'.symbols.get? name = some (d.location : Int) := by
    rw [hskip, skip, hparse]
    simp only [hearly, Option.elim_some]
    exact get?_note hother hearly
  have hafter := (leads_of_draftAt? hdraft htext).trans (leads_resolve _)
  rw [takeLine_of_readLine_error hcomment h] at hafter
  exact ((quiet_report d' (1 + k) .error error).leads.trans hafter).symbols.get? hvalue

def mendedConstant : String := "X CON 1/0\nX CON 2"

theorem readLine_mendedConstant :
    (start 4).readLine "X CON 1/0" 1 =
      ((start 4).skip "X CON 1/0" 1, .error .divisionByZero) := by
  decide +kernel

theorem skip_keeps_label_constant :
    (start 4).readLine "X CON 1/0" 1 = ((start 4).skip "X CON 1/0" 1, .error .divisionByZero) ∧
      ¬ (((start 4).skip "X CON 1/0" 1).symbols = (start 4).symbols ∧
        ((start 4).skip "X CON 1/0" 1).endLabel = (start 4).endLabel) ∧
      (assemble 4 mendedConstant).symbols.get? "X" = some 0 := by
  obtain ⟨-, hsame, hkept⟩ := skip_keeps_label readLine_mendedConstant
  have hparse : parseLine "X CON 1/0" =
      .ok (⟨some "X", "CON", "1/0", " 1/0"⟩, .directive .constant) := by
    decide +kernel
  have hearly : (start 4).earlyLabel? (.directive .constant)
      ⟨some "X", "CON", "1/0", " 1/0"⟩ = some "X" := by
    decide +kernel
  refine ⟨readLine_mendedConstant, fun h => ?_, ?_⟩
  · have hfinish := (hsame.mp h _ _ "X" hparse hearly).1
    cases hfinish
  · exact hkept 4 mendedConstant 0 _ _ "X" rfl (by decide +kernel) rfl (by decide +kernel) hparse
      hearly nofun

/-- So a line with an error may define a symbol. -/
theorem not_skipped_line_defines_nothing :
    ¬ ∀ (d d' : Draft) (text : String) (line : Nat) (error : Error),
      d.readLine text line = (d', .error error) →
        d'.symbols = d.symbols ∧ d'.endLabel = d.endLabel := by
  intro h
  have hsame := (h _ _ _ _ _ readLine_mendedConstant).1
  revert hsame
  decide +kernel

end Draft

end MixComputer.Assembly
