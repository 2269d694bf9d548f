import MixComputer.Proofs.Assembly.Refusal
import MixComputer.Proofs.Assembly.Reports
import MixComputer.Proofs.Assembly.SkippedLine

/-!
The numbers of lines. What a line leaves open, and what is found out while it is read, goes under
its own number. Resolution reports about what was left open, and so under no other numbers; it
warns of undefined symbols, and of nothing else.
-/
namespace MixComputer.Assembly

open Source

def Report.Graded (r : Report) : Prop := r.severity = .warning ↔ OfUndefined r.error

theorem Report.graded_error {line : Nat} {error : Error} (h : ¬ OfUndefined error) :
    (⟨line, .error, error⟩ : Report).Graded := ⟨nofun, fun hundefined => absurd hundefined h⟩

theorem Report.graded_warning (line : Nat) (name : String) (location : Nat) :
    (⟨line, .warning, .undefinedSymbol name location⟩ : Report).Graded :=
  ⟨fun _ => ⟨name, location, rfl⟩, fun _ => rfl⟩

namespace Draft

/-- All that waits for a value comes from lines with such numbers. -/
structure Waits (P : Nat → Prop) (d : Draft) : Prop where
  uses : ∀ u ∈ uses d.futures, P u.2.line
  literals : ∀ l ∈ d.literals, P l.2.line
  entrySymbol : ∀ s ∈ d.entrySymbol, P s.2
  endLabel : ∀ s ∈ d.endLabel, P s.2

def Tells (Q : Report → Prop) (d : Draft) : Prop := ∀ r ∈ d.reports, Q r

def Logs (P : Nat → Prop) (d : Draft) : Prop := ∀ r ∈ d.reports, P r.line

variable {P : Nat → Prop} {Q : Report → Prop} {d d' : Draft} {line : Nat}

theorem waits_start (P : Nat → Prop) (size : Nat) : (start size).Waits P :=
  ⟨fun _ h => absurd h List.not_mem_nil, fun _ h => absurd h List.not_mem_nil, nofun, nofun⟩

theorem logs_start (P : Nat → Prop) (size : Nat) : (start size).Logs P :=
  fun _ h => absurd h List.not_mem_nil

theorem Waits.withReports (h : d.Waits P) (rs : List Report) : (d.withReports rs).Waits P :=
  ⟨h.uses, h.literals, h.entrySymbol, h.endLabel⟩

theorem tells_report (h : d.Tells Q) {severity : Severity} {error : Error}
    (hreport : Q ⟨line, severity, error⟩) : (d.report line severity error).Tells Q := by
  intro r hr
  rcases List.mem_append.mp hr with hold | hnew
  · exact h r hold
  · rw [List.mem_singleton.mp hnew]
    exact hreport

theorem logs_report (h : d.Logs P) (hline : P line) (severity : Severity) (error : Error) :
    (d.report line severity error).Logs P :=
  tells_report (Q := fun r => P r.line) h hline

section Line

theorem waits_define {name : String} {value : Int} (h : d.Waits P)
    (hdefine : d.define name value = .ok d') : d'.Waits P := by
  obtain ⟨symbols, -, rfl⟩ := define_eq_ok_iff.mp hdefine
  exact ⟨h.uses, h.literals, h.entrySymbol, h.endLabel⟩

theorem waits_defineLabel {label : Option String} (h : d.Waits P)
    (hlabel : d.defineLabel label = .ok d') : d'.Waits P := by
  obtain ⟨symbols, -, rfl⟩ := defineLabel_eq_ok hlabel
  exact ⟨h.uses, h.literals, h.entrySymbol, h.endLabel⟩

theorem waits_equate {label : Option String} {operand : String} (h : d.Waits P)
    (hequate : d.equate label operand = .ok d') : d'.Waits P := by
  obtain ⟨w, -, hequate⟩ := (bind_eq_ok_iff _ _ _).mp hequate
  cases label with
  | none =>
    cases hequate
    exact h
  | some name => exact waits_define h hequate

theorem waits_moveOrigin {operand : String} (h : d.Waits P)
    (horigin : d.moveOrigin operand = .ok d') : d'.Waits P := by
  obtain ⟨w, -, horigin⟩ := (bind_eq_ok_iff _ _ _).mp horigin
  obtain ⟨location, -, horigin⟩ := (bind_eq_ok_iff _ _ _).mp horigin
  cases horigin
  exact ⟨h.uses, h.literals, h.entrySymbol, h.endLabel⟩

theorem waits_deferLabel {label : Option String} (h : d.Waits P) (hline : P line)
    (hlabel : d.deferLabel label line = .ok d') : d'.Waits P := by
  rw [eq_note_of_deferLabel hlabel]
  cases d.newLabel? label with
  | none => exact h
  | some name =>
    refine ⟨h.uses, h.literals, h.entrySymbol, fun s hs => ?_⟩
    cases hs
    exact hline

theorem waits_setEntry {operand : String} (h : d.Waits P) (hline : P line)
    (hentry : d.setEntry operand line = .ok d') : d'.Waits P := by
  obtain ⟨w, -, ⟨name, -, rfl⟩ | ⟨v, entry, -, -, rfl⟩⟩ := setEntry_eq_ok hentry
  · refine ⟨h.uses, h.literals, fun s hs => ?_, h.endLabel⟩
    cases hs
    exact hline
  · exact ⟨h.uses, h.literals, h.entrySymbol, h.endLabel⟩

theorem waits_put {entry : Word × Pending} (h : d.Waits P)
    (hpatch : ∀ p, entry.2.patch? = some p → P p.line) (hput : d.put entry = .ok d') :
    d'.Waits P := by
  obtain ⟨-, rfl⟩ := put_eq_ok_iff.mp hput
  obtain ⟨w, pending⟩ := entry
  cases pending with
  | nothing => exact ⟨h.uses, h.literals, h.entrySymbol, h.endLabel⟩
  | symbol name patch =>
    refine ⟨fun u hu => ?_, h.literals, h.entrySymbol, h.endLabel⟩
    rcases List.mem_cons.mp ((uses_addFuture name patch d.futures).mem_iff.mp hu) with rfl | hold
    · exact hpatch patch rfl
    · exact h.uses u hold
  | literal v patch =>
    refine ⟨h.uses, fun l hl => ?_, h.entrySymbol, h.endLabel⟩
    rcases List.mem_append.mp hl with hold | hnew
    · exact h.literals l hold
    · rw [List.mem_singleton.mp hnew]
      exact hpatch patch rfl

theorem waits_obey (h : d.Waits P) (hline : P line) (mnemonic : Mnemonic) (l : Line) :
    (d.obey mnemonic l line).1.Waits P := by
  refine obey_keeps h (fun _ => waits_defineLabel h) (fun _ => waits_equate h)
    (fun _ _ => waits_moveOrigin) ?_ (fun _ => waits_deferLabel h hline)
    (fun _ _ h₁ => waits_setEntry h₁ hline)
  intro d₁ d₂ entry h₁ hword hput
  refine waits_put h₁ (fun p hp => ?_) hput
  rw [(lineWord_patch hword p hp).2]
  exact hline

theorem waits_takeLine (h : d.Waits P) (hline : P line) (text : String) :
    (d.takeLine text line).1.Waits P :=
  takeLine_keeps h (fun _ _ h => h.withReports _) fun l mnemonic _ => waits_obey h hline mnemonic l

theorem logs_takeLine (h : d.Logs P) (hline : P line) (text : String) :
    (d.takeLine text line).1.Logs P := by
  have hobeyed {l : Line} {mnemonic : Mnemonic} {d' : Draft} {result : Except Error Unit}
      (hobey : d.obey mnemonic l line = (d', result)) : d'.Logs P := by
    have hsame := reports_obey d mnemonic l line
    rw [hobey] at hsame
    unfold Logs
    rw [hsame]
    exact h
  have htakes := takes_takeLine d text line
  generalize d.takeLine text line = taken at htakes
  cases htakes with
  | comment hcomment => exact h
  | malformed hcomment hparse => exact logs_report h hline _ _
  | obeyed hcomment hparse hobey => exact hobeyed hobey
  | refused hcomment hparse hobey => exact logs_report (hobeyed hobey) hline _ _

/-- What every line that reading comes to keeps, unless it is a comment, reading keeps. -/
theorem readLines_reached {R : Draft → Prop} {texts : List String}
    (hstep : ∀ (k : Nat) (d₁ : Draft) (text : String), d.draftAt? line texts k = some d₁ →
      texts[k]? = some text → isComment text = false → R d₁ → R (d₁.takeLine text (line + k)).1)
    (h : R d) : R (d.readLines line texts) := by
  induction texts generalizing d line with
  | nil => exact h
  | cons text rest ih =>
    have hnext : R (d.takeLine text line).1 := by
      cases hcomment : isComment text with
      | true =>
        rw [takeLine, if_pos hcomment]
        exact h
      | false => exact hstep 0 d text rfl rfl hcomment h
    rw [readLines]
    cases htake : d.takeLine text line with
    | mk d' last =>
      rw [htake] at hnext
      cases last with
      | true => exact hnext
      | false =>
        refine ih (fun k d₁ text' hdraft htext hcomment hkeeps => ?_) hnext
        have hlater : d.draftAt? line (text :: rest) (k + 1) = some d₁ := by
          rw [draftAt?, htake]
          exact hdraft
        have hkept := hstep (k + 1) d₁ text' hlater htext hcomment hkeeps
        rwa [show line + (k + 1) = line + 1 + k by omega] at hkept

/-- Of lines with such numbers it is enough that every one of them keeps something. -/
theorem readLines_numbered {R : Draft → Prop}
    (hstep : ∀ (d : Draft) (text : String) (line : Nat), P line → R d → R (d.takeLine text line).1)
    (texts : List String) (hlines : ∀ j, line ≤ j → P j) (h : R d) :
    R (d.readLines line texts) :=
  readLines_reached (fun k d₁ text _ _ _ => hstep d₁ text (line + k) (hlines _ (by omega))) h

theorem waits_readLines (h : d.Waits P) (hlines : ∀ j, line ≤ j → P j) (texts : List String) :
    (d.readLines line texts).Waits P :=
  readLines_numbered (R := Waits P) (fun _ text _ hline h => waits_takeLine h hline text) texts
    hlines h

theorem logs_readLines (h : d.Logs P) (hlines : ∀ j, line ≤ j → P j) (texts : List String) :
    (d.readLines line texts).Logs P :=
  readLines_numbered (R := Logs P) (fun _ text _ hline h => logs_takeLine h hline text) texts
    hlines h

end Line

section Resolve

/-- A symbol is undefined under the number of a line that used it. -/
theorem Waits.undefinedSymbols (h : d.Waits P) : ∀ u ∈ d.undefinedSymbols, P u.2 := by
  intro u hu
  obtain ⟨-, ⟨f, hf, rfl⟩ | hentry⟩ := mem_undefinedSymbols hu
  · refine h.uses (f.name, f.first) (List.mem_flatMap.mpr ⟨f, hf, ?_⟩)
    exact List.mem_map_of_mem List.mem_cons_self
  · exact h.entrySymbol u hentry

variable (hQ : ∀ r : Report, P r.line → r.Graded → Q r)

include hQ

theorem tells_error (h : d.Tells Q) (hline : P line) {error : Error} (herror : OfValues error) :
    (d.report line .error error).Tells Q :=
  tells_report h (hQ _ hline (Report.graded_error herror.not_ofUndefined))

theorem tells_allocateSymbol (h : d.Tells Q) {u : String × Nat} (hline : P u.2) :
    (d.allocateSymbol u.1 u.2).Tells Q := by
  unfold allocateSymbol
  cases hplace : d.emit Word.zero >>= (·.define u.1 d.location) with
  | error error =>
    have hfails := (d.failsWith_emit Word.zero).bind fun d' => d'.failsWith_define u.1 d.location
    exact tells_error hQ h hline (hfails error hplace)
  | ok d' =>
    obtain ⟨d₁, hemit, hdefine⟩ := (bind_eq_ok_iff _ _ _).mp hplace
    obtain ⟨-, rfl⟩ := emit_eq_ok_iff.mp hemit
    obtain ⟨symbols, -, rfl⟩ := define_eq_ok_iff.mp hdefine
    exact tells_report h (hQ _ hline (Report.graded_warning u.2 u.1 d.location))

theorem tells_applyPatch (h : d.Tells Q) {patch : Patch} (hline : P patch.line) (value : Int) :
    (d.applyPatch patch value).Tells Q := by
  rw [applyPatch_eq]
  split
  · exact h
  · exact tells_error hQ h hline (.outOfRange _ _)

theorem tells_placeLiteral (h : d.Tells Q) {l : Word × Patch} (hline : P l.2.line) :
    (d.placeLiteral l.1 l.2).Tells Q := by
  unfold placeLiteral
  cases hemit : d.emit l.1 with
  | error error => exact tells_error hQ h hline (d.failsWith_emit l.1 error hemit)
  | ok d' =>
    obtain ⟨-, rfl⟩ := emit_eq_ok_iff.mp hemit
    have hplaced : Tells Q
        { d with memory := d.memory.write d.location l.1, location := d.location + 1 } := h
    exact tells_applyPatch hQ hplaced hline _

theorem tells_patchUse (h : d.Tells Q) {u : String × Patch} (hline : P u.2.line) :
    (d.patchUse u).Tells Q := by
  unfold patchUse
  split
  · exact tells_applyPatch hQ h hline _
  · exact h

theorem tells_settleEntry (h : d.Tells Q) (hentry : ∀ s ∈ d.entrySymbol, P s.2) :
    d.settleEntry.Tells Q := by
  unfold settleEntry
  split
  · exact h
  · rename_i name line hsymbol
    split
    · exact h
    · split
      · exact h
      · rename_i value _ _ error hcheck
        exact tells_error hQ h (hentry (name, line) hsymbol)
          (d.failsWith_checkLocation .entryPoint value error hcheck)

theorem tells_settleEndLabel (h : d.Tells Q) (hlabel : ∀ s ∈ d.endLabel, P s.2) :
    d.settleEndLabel.Tells Q := by
  unfold settleEndLabel
  split
  · exact h
  · rename_i name line hsymbol
    split
    · rename_i d' hdefine
      obtain ⟨symbols, -, rfl⟩ := define_eq_ok_iff.mp hdefine
      exact h
    · rename_i error hdefine
      exact tells_error hQ h (hlabel (name, line) hsymbol)
        (d.failsWith_define name d.location error hdefine)

theorem tells_withUses (h : d.Tells Q) (hwaits : d.Waits P) : d.withUses.Tells Q := by
  have hsymbols : d.withSymbols.Tells Q :=
    List.foldlRecOn d.undefinedSymbols _ h fun _ h u hu =>
      tells_allocateSymbol hQ h (hwaits.undefinedSymbols u hu)
  have hliterals : d.withLiterals.Tells Q :=
    List.foldlRecOn d.literals _ hsymbols fun _ h l hl =>
      tells_placeLiteral hQ h (hwaits.literals l hl)
  exact List.foldlRecOn (uses d.futures) _ hliterals fun _ h u hu =>
    tells_patchUse hQ h (hwaits.uses u hu)

/-- Resolution reports about lines that left something open, and with the severity of the error. -/
theorem tells_resolve (h : d.Tells Q) (hwaits : d.Waits P) : d.resolve.Tells Q := by
  rw [resolve_eq]
  refine tells_settleEndLabel hQ (tells_settleEntry hQ (tells_withUses hQ h hwaits) ?_) ?_
  · rw [(sameTasks_withUses d).entrySymbol]
    exact hwaits.entrySymbol
  · rw [endLabel_settled]
    exact hwaits.endLabel

omit hQ

theorem logs_resolve (h : d.Logs P) (hwaits : d.Waits P) : d.resolve.Logs P :=
  tells_resolve (Q := fun r => P r.line) (fun _ hline _ => hline) h hwaits

end Resolve

end Draft

end MixComputer.Assembly
