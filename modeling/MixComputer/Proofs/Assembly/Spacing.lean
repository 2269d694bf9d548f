import MixComputer.Proofs.Assembly.Omission
import MixComputer.Proofs.Source.Splitting

/-!
Blanks between the fields of a line. A line is split into fields, and unless it is an `ALF` nothing
else of it is read; so lines with the same fields do the same to every draft. In a program such a
line can stand for the other, and only the diagnostics that quote it show which of them is there.
-/
namespace MixComputer

/-- A diagnostic when the line with the given number has another text. -/
def Diagnostic.requote (line : Nat) (text : String) (g : Diagnostic) : Diagnostic :=
  if g.line = line then { g with text } else g

namespace Assembly

open Source

namespace Draft

section Line

/-- No other directive has this name. -/
theorem ofName?_eq_characters {name : String}
    (h : Mnemonic.ofName? name = some (.directive .characters)) : name = "ALF" := by
  obtain ⟨before, after, htable, -⟩ := List.lookup_eq_some_iff.mp h
  have hmem : (name, Mnemonic.directive .characters) ∈ Mnemonic.table := by
    rw [htable]
    exact List.mem_append_right before List.mem_cons_self
  rcases List.mem_append.mp hmem with hinstruction | hdirective
  · obtain ⟨op, -, hop⟩ := List.mem_flatMap.mp hinstruction
    obtain ⟨m, -, hm⟩ := List.mem_map.mp hop
    cases hm
  · obtain ⟨directive, -, hname⟩ := List.mem_map.mp hdirective
    cases hname
    rfl

/-- Nothing but `ALF` reads what follows the operation as it stands. -/
theorem obey_withRest {mnemonic : Mnemonic} (h : mnemonic ≠ .directive .characters) (d : Draft)
    (l : Line) (rest : String) (line : Nat) :
    d.obey mnemonic { l with rest } line = d.obey mnemonic l line := by
  cases mnemonic with
  | instruction op standard => rfl
  | directive directive =>
    cases directive with
    | characters => exact absurd rfl h
    | _ => rfl

/-- Lines with the same fields do the same. -/
theorem takeLine_laidOut {label : Option String} {operation operand text text' : String}
    (h : LaidOut label operation operand text) (h' : LaidOut label operation operand text')
    (hother : operation ≠ "ALF") (d : Draft) (line : Nat) :
    d.takeLine text' line = d.takeLine text line := by
  obtain ⟨rest, hline⟩ := h.ofText?_eq
  obtain ⟨rest', hline'⟩ := h'.ofText?_eq
  have hread : d.readLine text' line = d.readLine text line := by
    unfold readLine parseLine
    rw [hline, hline']
    cases label.bind symbolProblem? with
    | some problem => rfl
    | none =>
      simp only [Option.elim_none]
      cases hname : Mnemonic.ofName? operation with
      | none => rfl
      | some mnemonic =>
        have hmnemonic : mnemonic ≠ .directive .characters := by
          rintro rfl
          exact hother (ofName?_eq_characters hname)
        simp only [← obey_withRest hmnemonic d ⟨label, operation, operand, rest⟩ rest' line]
  unfold takeLine
  rw [h.isComment_eq, h'.isComment_eq, hread]

end Line

section Reading

variable {before after : List String} {old new : String}

/-- A line that does the same as another can stand for it. -/
theorem readLines_replace
    (hsame : ∀ (d : Draft) (line : Nat), d.takeLine new line = d.takeLine old line)
    (d : Draft) (line : Nat) :
    d.readLines line (before ++ new :: after) = d.readLines line (before ++ old :: after) := by
  induction before generalizing d line with
  | nil => rw [List.nil_append, List.nil_append, readLines, readLines, hsame]
  | cons text before ih =>
    rw [List.cons_append, List.cons_append, readLines, readLines]
    cases d.takeLine text line with
    | mk d' last =>
      cases last with
      | true => rfl
      | false => exact ih d' (line + 1)

/-- Lines are counted from 1. -/
theorem logs_ofLines (size : Nat) (lines : List String) :
    (ofLines size lines).Logs fun line => 1 ≤ line :=
  logs_resolve (logs_readLines (logs_start _ size) (fun _ h => h) lines)
    (waits_readLines (waits_start _ size) (fun _ h => h) lines)

end Reading

end Draft

section Program

variable {before after : List String} {old new : String}

theorem diagnose_requote {r : Report} (hline : 1 ≤ r.line) :
    diagnose (before ++ new :: after) r =
      (diagnose (before ++ old :: after) r).requote (before.length + 1) new := by
  have hsame : (diagnose (before ++ old :: after) r).line = r.line := rfl
  unfold Diagnostic.requote
  rw [hsame]
  split
  · rename_i heq
    have hindex : r.line - 1 = before.length := by omega
    unfold diagnose
    simp [hindex]
  · rename_i hne
    exact diagnose_replace (by omega)

/-- The product of assembly, from the draft of its lines. -/
theorem assemble_of_lines {size : Nat} {program : String} {lines : List String}
    (h : Text.lines program = lines) :
    assemble size program =
      { memory := (Draft.ofLines size lines).memory
        symbols := (Draft.ofLines size lines).symbols
        entry := (Draft.ofLines size lines).entry
        diagnostics := (Draft.ofLines size lines).reports.map (diagnose lines) } := by
  subst h
  rfl

/-- In a program a line can be replaced by one that does the same. -/
theorem assemble_replace {size : Nat} {program program' : String}
    (hsame : ∀ (d : Draft) (line : Nat), d.takeLine new line = d.takeLine old line)
    (hprogram : Text.lines program = before ++ old :: after)
    (hprogram' : Text.lines program' = before ++ new :: after) :
    assemble size program' =
      { assemble size program with
        diagnostics := (assemble size program).diagnostics.map
          (Diagnostic.requote (before.length + 1) new) } := by
  have hdraft : Draft.ofLines size (before ++ new :: after) =
      Draft.ofLines size (before ++ old :: after) := by
    unfold Draft.ofLines
    rw [Draft.readLines_replace hsame]
  have hquoted : (Draft.ofLines size (before ++ old :: after)).reports.map
        (diagnose (before ++ new :: after)) =
      ((Draft.ofLines size (before ++ old :: after)).reports.map
        (diagnose (before ++ old :: after))).map
          (Diagnostic.requote (before.length + 1) new) := by
    rw [List.map_map]
    exact List.map_congr_left fun r hr => diagnose_requote (Draft.logs_ofLines size _ r hr)
  rw [assemble_of_lines hprogram, assemble_of_lines hprogram', hdraft, hquoted]

/-- Splitting loses nothing but the blanks between the label and the operation. And the blanks
between its fields, and the comment behind them, make no difference to a line other than `ALF`: with
other blanks and another comment it does the same to every draft, and a program with the line put
into it is assembled as before, but for the quotations of the line. -/
theorem assemble_respace :
    (∀ text l, Line.ofText? text = .ok l →
      l.Splits text ∧ (l.operand ≠ "" → LaidOut l.label l.operation l.operand text)) ∧
    ∀ label operation operand text text', LaidOut label operation operand text →
      LaidOut label operation operand text' → operation ≠ "ALF" →
        (∀ (d : Draft) (line : Nat), d.takeLine text' line = d.takeLine text line) ∧
        ∀ size program before after, Text.lines program = before ++ text :: after →
          ('\n' ∉ text'.toList → ∃ program', Text.lines program' = before ++ text' :: after) ∧
          ∀ program', Text.lines program' = before ++ text' :: after →
            assemble size program' =
              { assemble size program with
                diagnostics := (assemble size program).diagnostics.map
                  (Diagnostic.requote (before.length + 1) text') } := by
  refine ⟨fun text l h => ?_, fun label operation operand text text' h h' hother => ?_⟩
  · have hsplits := splits_of_ofText? h
    exact ⟨hsplits, hsplits.laidOut⟩
  · have hsame := Draft.takeLine_laidOut h h' hother
    refine ⟨hsame, fun size program before after hprogram => ⟨fun hline => ?_, ?_⟩⟩
    · refine Text.exists_lines fun line hmem => ?_
      have hold (hmem : line ∈ before ++ text :: after) : '\n' ∉ line.toList :=
        Text.newline_not_mem_of_mem_lines (hprogram ▸ hmem)
      rcases List.mem_append.mp hmem with hbefore | hmem
      · exact hold (List.mem_append_left _ hbefore)
      · rcases List.mem_cons.mp hmem with rfl | hafter
        · exact hline
        · exact hold (List.mem_append_right _ (List.mem_cons_of_mem _ hafter))
    · exact fun program' => assemble_replace hsame hprogram

def wideLine : String := "X\u3000LDA\u00A0Y\tload"

def narrowLine : String := "X LDA  Y"

theorem assemble_respace_wide :
    Line.ofText? wideLine = .ok ⟨some "X", "LDA", "Y", "\u00A0Y\tload"⟩ ∧
      assemble 4 (narrowLine ++ "\n HLT") =
        { assemble 4 (wideLine ++ "\n HLT") with
          diagnostics := [⟨1, narrowLine, .warning, .undefinedSymbol "Y" 2⟩] } := by
  have hwide : Line.ofText? wideLine = .ok ⟨some "X", "LDA", "Y", "\u00A0Y\tload"⟩ := by
    decide +kernel
  have hnarrow : Line.ofText? narrowLine = .ok ⟨some "X", "LDA", "Y", "  Y"⟩ := by
    decide +kernel
  have hlines : Text.lines (wideLine ++ "\n HLT") = [] ++ wideLine :: [" HLT"] := by
    decide +kernel
  have hlines' : Text.lines (narrowLine ++ "\n HLT") = [] ++ narrowLine :: [" HLT"] := by
    decide +kernel
  have hquoted : (assemble 4 (wideLine ++ "\n HLT")).diagnostics.map
      (Diagnostic.requote 1 narrowLine) =
        [⟨1, narrowLine, .warning, .undefinedSymbol "Y" 2⟩] := by
    decide +kernel
  obtain ⟨hsplits, hrespace⟩ := assemble_respace
  have hprogram := ((hrespace _ _ _ _ _ ((hsplits _ _ hwide).2 (by decide))
    ((hsplits _ _ hnarrow).2 (by decide)) (by decide)).2 4 _ _ _ hlines).2 _ hlines'
  exact ⟨hwide, hprogram.trans (congrArg _ hquoted)⟩

end Program

end Assembly

end MixComputer
