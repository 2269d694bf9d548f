import MixComputer.Proofs.Assembly.Resolution

/-!
What is written down about a program is never read by assembly. Obeying a line reports nothing, so
it does the same whatever has been reported; and a draft with further reports in front of its own
is read and resolved as without them.
-/
namespace MixComputer.Assembly.Draft

open Source

def withReports (d : Draft) (rs : List Report) : Draft := { d with reports := rs }

def logged (d : Draft) (rs : List Report) : Draft := d.withReports (rs ++ d.reports)

section Obey

variable (d : Draft) (rs : List Report)

theorem define_withReports (name : String) (value : Int) :
    (d.withReports rs).define name value = (d.define name value).map (·.withReports rs) := by
  have hsymbols : (d.withReports rs).symbols = d.symbols := rfl
  unfold define
  rw [hsymbols]
  cases d.symbols.insert name value <;> rfl

theorem defineLabel_withReports (label : Option String) :
    (d.withReports rs).defineLabel label = (d.defineLabel label).map (·.withReports rs) := by
  cases label with
  | none => rfl
  | some name => exact define_withReports d rs name d.location

theorem deferLabel_withReports (label : Option String) (line : Nat) :
    (d.withReports rs).deferLabel label line =
      (d.deferLabel label line).map (·.withReports rs) := by
  have hsymbols : (d.withReports rs).symbols = d.symbols := rfl
  cases label with
  | none => rfl
  | some name =>
    unfold deferLabel
    simp only [hsymbols]
    cases d.symbols.get? name <;> rfl

theorem emit_withReports (w : Word) :
    (d.withReports rs).emit w = (d.emit w).map (·.withReports rs) := by
  unfold emit
  by_cases hroom : d.location < d.memory.size
  · rw [if_pos hroom]
    exact if_pos hroom
  · rw [if_neg hroom]
    exact if_neg hroom

theorem put_withReports (entry : Word × Pending) :
    (d.withReports rs).put entry = (d.put entry).map (·.withReports rs) := by
  unfold put
  rw [emit_withReports]
  cases d.emit entry.1 with
  | error error => rfl
  | ok d' => cases h : entry.2 <;> rfl

theorem word_withReports (x : Except Error (Word × Pending)) :
    x >>= (d.withReports rs).put = (x >>= d.put).map (·.withReports rs) := by
  cases x with
  | error error => rfl
  | ok entry => exact put_withReports d rs entry

theorem equate_withReports (label : Option String) (operand : String) :
    (d.withReports rs).equate label operand =
      (d.equate label operand).map (·.withReports rs) := by
  have hword : (d.withReports rs).directiveWord operand = d.directiveWord operand := rfl
  unfold equate
  rw [hword]
  cases d.directiveWord operand with
  | error error => rfl
  | ok w =>
    cases label with
    | none => rfl
    | some name => exact define_withReports d rs name w.value

theorem moveOrigin_withReports (operand : String) :
    (d.withReports rs).moveOrigin operand = (d.moveOrigin operand).map (·.withReports rs) := by
  have hword : (d.withReports rs).directiveWord operand = d.directiveWord operand := rfl
  have hcheck : (d.withReports rs).checkLocation = d.checkLocation := rfl
  unfold moveOrigin
  simp only [hword, hcheck, bind, Except.bind]
  cases d.directiveWord operand with
  | error error => rfl
  | ok w =>
    simp only
    cases d.checkLocation .location w.value <;> rfl

theorem setEntry_withReports (operand : String) (line : Nat) :
    (d.withReports rs).setEntry operand line =
      (d.setEntry operand line).map (·.withReports rs) := by
  have hword (w : WValue) : (d.withReports rs).scope.word w = d.scope.word w := rfl
  have hcheck (v : Int) : (d.withReports rs).checkLocation .entryPoint v =
      d.checkLocation .entryPoint v := rfl
  unfold setEntry
  cases readWValue operand with
  | error error => rfl
  | ok w =>
    have hopen : (wholeExpression? w).bind (d.withReports rs).openSymbol? =
        (wholeExpression? w).bind d.openSymbol? := rfl
    simp only [bind, Except.bind, hopen, hword]
    generalize (wholeExpression? w).bind d.openSymbol? = reference
    cases d.scope.word w with
    | error error => rcases reference with _ | ⟨name, _ | _⟩ <;> rfl
    | ok v =>
      simp only [hcheck]
      cases d.checkLocation .entryPoint v.value <;>
        rcases reference with _ | ⟨name, _ | _⟩ <;> rfl

theorem attempt_withReports (r : Except Error Draft) :
    (d.withReports rs).attempt (r.map (·.withReports rs)) =
      ((d.attempt r).1.withReports rs, (d.attempt r).2) := by
  cases r <;> rfl

theorem attemptBoth_withReports {second : Draft → Except Error Draft}
    (hsecond : ∀ d : Draft, second (d.withReports rs) = (second d).map (·.withReports rs))
    (first : Except Error Draft) :
    (d.withReports rs).attemptBoth (first.map (·.withReports rs)) second =
      ((d.attemptBoth first second).1.withReports rs, (d.attemptBoth first second).2) := by
  cases first with
  | error error => rfl
  | ok d' =>
    simp only [attemptBoth, Except.map, hsecond]
    exact attempt_withReports d' rs (second d')

/-- A line does the same whatever has been reported, and reports nothing itself. -/
theorem obey_withReports (mnemonic : Mnemonic) (l : Line) (line : Nat) :
    (d.withReports rs).obey mnemonic l line =
      ((d.obey mnemonic l line).1.withReports rs, (d.obey mnemonic l line).2) := by
  have hlabelled {second : Draft → Except Error Draft}
      (hsecond : ∀ d : Draft, second (d.withReports rs) = (second d).map (·.withReports rs)) :
      (d.withReports rs).attemptBoth ((d.withReports rs).defineLabel l.label) second =
        ((d.attemptBoth (d.defineLabel l.label) second).1.withReports rs,
          (d.attemptBoth (d.defineLabel l.label) second).2) := by
    rw [defineLabel_withReports]
    exact attemptBoth_withReports d rs hsecond _
  cases mnemonic with
  | instruction op standard => exact hlabelled fun d => word_withReports d rs _
  | directive directive =>
    cases directive with
    | equate =>
      simp only [obey, equate_withReports]
      exact attempt_withReports d rs _
    | origin => exact hlabelled fun d => moveOrigin_withReports d rs _
    | constant => exact hlabelled fun d => word_withReports d rs _
    | characters => exact hlabelled fun d => word_withReports d rs _
    | finish =>
      simp only [obey, deferLabel_withReports]
      exact attemptBoth_withReports d rs (fun d => setEntry_withReports d rs _ _) _

theorem reports_obey (mnemonic : Mnemonic) (l : Line) (line : Nat) :
    (d.obey mnemonic l line).1.reports = d.reports := by
  have hsame : (d.obey mnemonic l line).1 =
      (d.obey mnemonic l line).1.withReports d.reports :=
    congrArg Prod.fst (obey_withReports d d.reports mnemonic l line)
  rw [hsame]
  rfl

theorem reports_readLine (text : String) (line : Nat) :
    (d.readLine text line).1.reports = d.reports := by
  unfold readLine
  split
  · rfl
  · rename_i l mnemonic hparse
    have hreports := reports_obey d mnemonic l line
    cases hobey : d.obey mnemonic l line with
    | mk d' result =>
      rw [hobey] at hreports
      cases result <;> exact hreports

end Obey

section Reading

variable (d : Draft) (rs : List Report)

theorem obey_logged (mnemonic : Mnemonic) (l : Line) (line : Nat) :
    (d.logged rs).obey mnemonic l line =
      ((d.obey mnemonic l line).1.logged rs, (d.obey mnemonic l line).2) := by
  unfold logged
  rw [obey_withReports, reports_obey]

theorem report_logged (line : Nat) (severity : Severity) (error : Error) :
    (d.logged rs).report line severity error = (d.report line severity error).logged rs := by
  have hreports : rs ++ d.reports ++ [⟨line, severity, error⟩] =
      rs ++ (d.reports ++ [⟨line, severity, error⟩]) := List.append_assoc _ _ _
  exact congrArg d.withReports hreports

theorem takeLine_logged (text : String) (line : Nat) :
    (d.logged rs).takeLine text line =
      ((d.takeLine text line).1.logged rs, (d.takeLine text line).2) := by
  unfold takeLine
  split
  · rfl
  · unfold readLine
    cases parseLine text with
    | error error => exact Prod.ext (report_logged d rs line .error error) rfl
    | ok parsed =>
      obtain ⟨l, mnemonic⟩ := parsed
      simp only [obey_logged]
      cases d.obey mnemonic l line with
      | mk d' result =>
        cases result with
        | ok done => rfl
        | error error => exact Prod.ext (report_logged d' rs line .error error) rfl

theorem readLines_logged (line : Nat) (texts : List String) :
    (d.logged rs).readLines line texts = (d.readLines line texts).logged rs := by
  induction texts generalizing d line with
  | nil => rfl
  | cons text rest ih =>
    unfold readLines
    rw [takeLine_logged]
    cases d.takeLine text line with
    | mk d' last =>
      cases last with
      | true => rfl
      | false => exact ih d' (line + 1)

end Reading

section Resolve

variable (d : Draft) (rs : List Report)

theorem foldl_logged {α : Type} {step : Draft → α → Draft}
    (hstep : ∀ (d : Draft) (a : α), step (d.logged rs) a = (step d a).logged rs) (as : List α) :
    as.foldl step (d.logged rs) = (as.foldl step d).logged rs := by
  induction as generalizing d with
  | nil => rfl
  | cons a as ih =>
    rw [List.foldl_cons, hstep, ih]
    rfl

theorem emit_logged (w : Word) : (d.logged rs).emit w = (d.emit w).map (·.logged rs) := by
  refine (emit_withReports d (rs ++ d.reports) w).trans ?_
  unfold emit
  split <;> rfl

theorem define_logged (name : String) (value : Int) :
    (d.logged rs).define name value = (d.define name value).map (·.logged rs) := by
  refine (define_withReports d (rs ++ d.reports) name value).trans ?_
  unfold define
  cases d.symbols.insert name value <;> rfl

theorem allocateSymbol_logged (name : String) (line : Nat) :
    (d.logged rs).allocateSymbol name line = (d.allocateSymbol name line).logged rs := by
  have hplace : (d.logged rs).emit Word.zero >>= (·.define name (d.logged rs).location) =
      (d.emit Word.zero >>= (·.define name d.location)).map (·.logged rs) := by
    rw [emit_logged]
    cases d.emit Word.zero with
    | error error => rfl
    | ok d' => exact define_logged d' rs name d.location
  unfold allocateSymbol
  rw [hplace]
  cases d.emit Word.zero >>= (·.define name d.location) with
  | error error => exact report_logged d rs line .error error
  | ok d' => exact report_logged d' rs line .warning _

theorem applyPatch_logged (patch : Patch) (value : Int) :
    (d.logged rs).applyPatch patch value = (d.applyPatch patch value).logged rs := by
  rw [applyPatch_eq, applyPatch_eq]
  split
  · rfl
  · exact report_logged d rs _ _ _

theorem placeLiteral_logged (l : Word × Patch) :
    (d.logged rs).placeLiteral l.1 l.2 = (d.placeLiteral l.1 l.2).logged rs := by
  unfold placeLiteral
  rw [emit_logged]
  cases d.emit l.1 with
  | error error => exact report_logged d rs _ _ _
  | ok d' => exact applyPatch_logged d' rs l.2 d.location

theorem patchUse_logged (u : String × Patch) :
    (d.logged rs).patchUse u = (d.patchUse u).logged rs := by
  have hsymbols : (d.logged rs).symbols = d.symbols := rfl
  unfold patchUse
  rw [hsymbols]
  cases d.symbols.get? u.1 with
  | none => rfl
  | some value => exact applyPatch_logged d rs u.2 value

theorem settleEntry_logged : (d.logged rs).settleEntry = d.settleEntry.logged rs := by
  have hentry : (d.logged rs).entrySymbol = d.entrySymbol := rfl
  have hsymbols : (d.logged rs).symbols = d.symbols := rfl
  have hcheck : (d.logged rs).checkLocation = d.checkLocation := rfl
  unfold settleEntry
  rw [hentry, hsymbols, hcheck]
  cases d.entrySymbol with
  | none => rfl
  | some reference =>
    obtain ⟨name, line⟩ := reference
    simp only
    cases d.symbols.get? name with
    | none => rfl
    | some value =>
      simp only
      cases d.checkLocation .entryPoint value with
      | ok entry => rfl
      | error error => exact report_logged d rs _ _ _

theorem settleEndLabel_logged : (d.logged rs).settleEndLabel = d.settleEndLabel.logged rs := by
  have hlabel : (d.logged rs).endLabel = d.endLabel := rfl
  have hlocation : (d.logged rs).location = d.location := rfl
  unfold settleEndLabel
  rw [hlabel, hlocation]
  cases d.endLabel with
  | none => rfl
  | some label =>
    obtain ⟨name, line⟩ := label
    simp only [define_logged]
    cases d.define name d.location with
    | ok d' => rfl
    | error error => exact report_logged d rs _ _ _

theorem withUses_logged : (d.logged rs).withUses = d.withUses.logged rs := by
  have hsymbols : (d.logged rs).withSymbols = d.withSymbols.logged rs :=
    foldl_logged d rs (fun d u => allocateSymbol_logged d rs u.1 u.2) d.undefinedSymbols
  have hliterals : (d.logged rs).withLiterals = d.withLiterals.logged rs := by
    unfold withLiterals
    rw [hsymbols]
    exact foldl_logged _ rs (fun d l => placeLiteral_logged d rs l) d.literals
  unfold withUses
  rw [hliterals]
  exact foldl_logged _ rs (fun d u => patchUse_logged d rs u) (uses d.futures)

/-- Resolution does the same whatever has been reported. -/
theorem resolve_logged : (d.logged rs).resolve = d.resolve.logged rs := by
  rw [resolve_eq, withUses_logged, settleEntry_logged, settleEndLabel_logged, ← resolve_eq]

end Resolve

end MixComputer.Assembly.Draft
