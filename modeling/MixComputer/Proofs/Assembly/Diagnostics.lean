import MixComputer.Proofs.Assembly.Omission

/-!
The diagnostics of a program. Reading reports the errors of lines in the order of the lines, and at
most one for each line; resolution then reports about lines that were read. Every diagnostic quotes
the line with its number. No line is passed over in silence: it has an error, or it is obeyed.
-/
namespace MixComputer.Assembly

open Source

namespace Draft

section Line

variable (d : Draft) (text : String) (line : Nat)

def lineReports : List Report :=
  if isComment text then []
  else match (d.readLine text line).2 with
    | .ok _ => []
    | .error error => [⟨line, .error, error⟩]

theorem mem_lineReports {r : Report} :
    r ∈ d.lineReports text line ↔ isComment text = false ∧
      ∃ error, (d.readLine text line).2 = .error error ∧ r = ⟨line, .error, error⟩ := by
  unfold lineReports
  cases isComment text with
  | true => simp
  | false => cases (d.readLine text line).2 <;> simp [eq_comm]

theorem pairwise_lineReports :
    (d.lineReports text line).Pairwise fun r r' => r.line < r'.line := by
  unfold lineReports
  split
  · exact List.Pairwise.nil
  · split
    · exact List.Pairwise.nil
    · exact List.pairwise_singleton _ _

theorem reports_takeLine :
    (d.takeLine text line).1.reports = d.reports ++ d.lineReports text line := by
  have hreports := reports_readLine d text line
  unfold takeLine lineReports
  cases isComment text with
  | true => exact (List.append_nil d.reports).symm
  | false =>
    cases hread : d.readLine text line with
    | mk d' result =>
      rw [hread] at hreports
      cases result with
      | ok last => exact hreports.trans (List.append_nil d.reports).symm
      | error error => exact congrArg (· ++ [⟨line, .error, error⟩]) hreports

/-- Only a line that is obeyed can be the last. -/
theorem takeLine_snd_eq_true_iff :
    (d.takeLine text line).2 = true ↔
      isComment text = false ∧ (d.readLine text line).2 = .ok true := by
  unfold takeLine
  cases isComment text with
  | true => simp
  | false =>
    cases d.readLine text line with
    | mk d' result => cases result <;> simp

end Line

/-- What becomes of the line that has `k` lines before it: an error, or whether it is the last line.
There is no outcome if the line is a comment, or if reading does not come to it. -/
def outcomeAt? (d : Draft) (line : Nat) (texts : List String) (k : Nat) :
    Option (Except Error Bool) := do
  let d₁ ← d.draftAt? line texts k
  let text ← texts[k]?
  if isComment text then none else some (d₁.readLine text (line + k)).2

def readReports (d : Draft) (line : Nat) : List String → List Report
  | [] => []
  | text :: rest =>
    d.lineReports text line ++
      if (d.takeLine text line).2 then []
      else (d.takeLine text line).1.readReports (line + 1) rest

section Outcome

variable {d : Draft} {line : Nat} {text : String} {texts : List String} {k : Nat}
  {outcome : Except Error Bool}

theorem outcomeAt?_eq_some_iff :
    d.outcomeAt? line texts k = some outcome ↔
      ∃ d₁ text, d.draftAt? line texts k = some d₁ ∧ texts[k]? = some text ∧
        isComment text = false ∧ (d₁.readLine text (line + k)).2 = outcome := by
  simp only [outcomeAt?, Option.bind_eq_bind, Option.bind_eq_some_iff, Option.ite_none_left_eq_some,
    Bool.not_eq_true, Option.some.injEq]
  constructor
  · rintro ⟨d₁, hdraft, text, htext, h⟩
    exact ⟨d₁, text, hdraft, htext, h⟩
  · rintro ⟨d₁, text, hdraft, htext, h⟩
    exact ⟨d₁, hdraft, text, htext, h⟩

theorem outcomeAt?_nil : d.outcomeAt? line [] k = none := by
  unfold outcomeAt?
  cases d.draftAt? line [] k <;> rfl

theorem outcomeAt?_zero :
    d.outcomeAt? line (text :: texts) 0 = some outcome ↔
      isComment text = false ∧ (d.readLine text line).2 = outcome := by
  rw [outcomeAt?_eq_some_iff]
  constructor
  · rintro ⟨d₁, text', hdraft, htext, h⟩
    cases hdraft
    cases htext
    exact h
  · exact fun h => ⟨d, text, rfl, rfl, h⟩

/-- Reading comes to a later line if the first one is not the last. -/
theorem outcomeAt?_succ :
    d.outcomeAt? line (text :: texts) (k + 1) = some outcome ↔
      (d.takeLine text line).2 = false ∧
        (d.takeLine text line).1.outcomeAt? (line + 1) texts k = some outcome := by
  have hline : line + (k + 1) = line + 1 + k := by omega
  unfold outcomeAt?
  rw [draftAt?, hline]
  cases d.takeLine text line with
  | mk d' last => cases last <;> simp

/-- After the last line no line is read. -/
theorem outcomeAt?_le_last {j : Nat} (h : d.outcomeAt? line texts k = some outcome)
    (hlast : d.outcomeAt? line texts j = some (.ok true)) : k ≤ j := by
  induction texts generalizing d line k j with
  | nil =>
    rw [outcomeAt?_nil] at h
    cases h
  | cons text rest ih =>
    cases k with
    | zero => exact Nat.zero_le j
    | succ k =>
      obtain ⟨hgoes, h⟩ := outcomeAt?_succ.mp h
      cases j with
      | zero =>
        rw [(takeLine_snd_eq_true_iff d text line).mpr (outcomeAt?_zero.mp hlast)] at hgoes
        cases hgoes
      | succ j => exact Nat.succ_le_succ (ih h (outcomeAt?_succ.mp hlast).2)

/-- Every line has an outcome that is no comment and does not come after the last line. -/
theorem exists_outcome (htext : texts[k]? = some text) (hcomment : isComment text = false)
    (hlast : ∀ j < k, d.outcomeAt? line texts j ≠ some (.ok true)) :
    ∃ outcome, d.outcomeAt? line texts k = some outcome := by
  induction texts generalizing d line k with
  | nil => cases htext
  | cons first rest ih =>
    cases k with
    | zero =>
      cases htext
      exact ⟨_, outcomeAt?_zero.mpr ⟨hcomment, rfl⟩⟩
    | succ k =>
      have hgoes : (d.takeLine first line).2 = false := by
        refine Bool.eq_false_iff.mpr fun hends => hlast 0 (Nat.succ_pos k) ?_
        exact outcomeAt?_zero.mpr ((takeLine_snd_eq_true_iff d first line).mp hends)
      obtain ⟨outcome, h⟩ := ih htext fun j hj h =>
        hlast (j + 1) (Nat.succ_lt_succ hj) (outcomeAt?_succ.mpr ⟨hgoes, h⟩)
      exact ⟨outcome, outcomeAt?_succ.mpr ⟨hgoes, h⟩⟩

/-- The reports are about the lines that have an error. -/
theorem mem_readReports {r : Report} :
    r ∈ d.readReports line texts ↔
      ∃ k error, d.outcomeAt? line texts k = some (.error error) ∧
        r = ⟨line + k, .error, error⟩ := by
  induction texts generalizing d line with
  | nil =>
    refine ⟨fun h => absurd h List.not_mem_nil, ?_⟩
    rintro ⟨k, error, h, -⟩
    rw [outcomeAt?_nil] at h
    cases h
  | cons text rest ih =>
    rw [readReports, List.mem_append, mem_lineReports]
    constructor
    · rintro (⟨hcomment, error, hread, rfl⟩ | hlater)
      · exact ⟨0, error, outcomeAt?_zero.mpr ⟨hcomment, hread⟩, rfl⟩
      · rw [List.mem_ite_nil_left, Bool.not_eq_true] at hlater
        obtain ⟨k, error, h, rfl⟩ := ih.mp hlater.2
        refine ⟨k + 1, error, outcomeAt?_succ.mpr ⟨hlater.1, h⟩, ?_⟩
        rw [show line + 1 + k = line + (k + 1) by omega]
    · rintro ⟨k, error, h, rfl⟩
      cases k with
      | zero =>
        obtain ⟨hcomment, hread⟩ := outcomeAt?_zero.mp h
        exact .inl ⟨hcomment, error, hread, rfl⟩
      | succ k =>
        obtain ⟨hgoes, h⟩ := outcomeAt?_succ.mp h
        refine .inr (List.mem_ite_nil_left.mpr ⟨Bool.eq_false_iff.mp hgoes, ?_⟩)
        refine ih.mpr ⟨k, error, h, ?_⟩
        rw [show line + (k + 1) = line + 1 + k by omega]

/-- The reports have the order of the lines. -/
theorem pairwise_readReports (d : Draft) (line : Nat) (texts : List String) :
    (d.readReports line texts).Pairwise fun r r' => r.line < r'.line := by
  induction texts generalizing d line with
  | nil => exact List.Pairwise.nil
  | cons text rest ih =>
    refine List.pairwise_append.mpr ⟨pairwise_lineReports d text line, ?_, ?_⟩
    · split
      · exact List.Pairwise.nil
      · exact ih _ _
    · intro r hr r' hr'
      obtain ⟨-, error, -, rfl⟩ := (mem_lineReports d text line).mp hr
      obtain ⟨k, error', -, rfl⟩ := mem_readReports.mp (List.mem_ite_nil_left.mp hr').2
      change line < line + 1 + k
      omega

/-- All of this is added to what has been reported before. -/
theorem reports_readLines (d : Draft) (line : Nat) (texts : List String) :
    (d.readLines line texts).reports = d.reports ++ d.readReports line texts := by
  induction texts generalizing d line with
  | nil => exact (List.append_nil d.reports).symm
  | cons text rest ih =>
    have hreports := reports_takeLine d text line
    rw [readLines, readReports]
    cases htake : d.takeLine text line with
    | mk d' last =>
      rw [htake] at hreports
      cases last with
      | true => simpa using hreports
      | false =>
        change (d'.readLines (line + 1) rest).reports = _
        rw [ih, hreports, List.append_assoc]
        rfl

end Outcome

section Program

variable (size : Nat) (lines : List String)

def resolutionReports : List Report :=
  (((start size).readLines 1 lines).withReports []).resolve.reports

def WasRead (n : Nat) : Prop :=
  ∃ k outcome, n = 1 + k ∧ (start size).outcomeAt? 1 lines k = some outcome

theorem waits_read : ((start size).readLines 1 lines).Waits (WasRead size lines) := by
  refine readLines_reached (R := Waits _) (fun k d₁ text hdraft htext hcomment h => ?_)
    (waits_start _ size)
  have houtcome : (start size).outcomeAt? 1 lines k = some (d₁.readLine text (1 + k)).2 :=
    outcomeAt?_eq_some_iff.mpr ⟨d₁, text, hdraft, htext, hcomment, rfl⟩
  exact waits_takeLine h ⟨k, _, rfl, houtcome⟩ text

/-- Reading reports first, and then resolution. -/
theorem reports_ofLines :
    (ofLines size lines).reports =
      (start size).readReports 1 lines ++ resolutionReports size lines := by
  have hread : (start size).readLines 1 lines =
      (((start size).readLines 1 lines).withReports []).logged
        ((start size).readReports 1 lines) := by
    have hreports : ((start size).readLines 1 lines).reports =
        (start size).readReports 1 lines ++ [] := by
      rw [reports_readLines, List.append_nil]
      rfl
    exact congrArg ((start size).readLines 1 lines).withReports hreports
  unfold ofLines
  rw [hread, resolve_logged]
  rfl

/-- Every report is about a line that was read, and has the severity of its error. -/
theorem tells_ofLines :
    (ofLines size lines).Tells fun r => WasRead size lines r.line ∧ r.Graded := by
  intro r hr
  rw [reports_ofLines] at hr
  rcases List.mem_append.mp hr with hread | hresolved
  · obtain ⟨k, error, h, rfl⟩ := mem_readReports.mp hread
    obtain ⟨d₁, text, -, -, -, hline⟩ := outcomeAt?_eq_some_iff.mp h
    refine ⟨⟨k, _, rfl, h⟩, Report.graded_error ?_⟩
    exact d₁.failsWith_readLine text (1 + k) error hline
  · exact tells_resolve (Q := fun r => WasRead size lines r.line ∧ r.Graded)
      (fun _ hline hgraded => ⟨hline, hgraded⟩) (fun _ h => absurd h List.not_mem_nil)
      ((waits_read size lines).withReports []) r hresolved

end Program

end Draft

section Assemble

variable (size : Nat) (text : String)

def lineOutcome? (k : Nat) : Option (Except Error Bool) :=
  (Draft.start size).outcomeAt? 1 (Text.lines text) k

def readingDiagnostics : List Diagnostic :=
  ((Draft.start size).readLines 1 (Text.lines text)).reports.map (diagnose (Text.lines text))

def resolutionDiagnostics : List Diagnostic :=
  (Draft.resolutionReports size (Text.lines text)).map (diagnose (Text.lines text))

theorem readingDiagnostics_eq :
    readingDiagnostics size text =
      ((Draft.start size).readReports 1 (Text.lines text)).map (diagnose (Text.lines text)) := by
  unfold readingDiagnostics
  rw [Draft.reports_readLines]
  rfl

theorem diagnostics_eq_append :
    (assemble size text).diagnostics =
      readingDiagnostics size text ++ resolutionDiagnostics size text := by
  rw [readingDiagnostics_eq, resolutionDiagnostics, ← List.map_append, ← Draft.reports_ofLines]
  rfl

variable {size text} {g : Diagnostic} {k : Nat} {line : String} {outcome : Except Error Bool}

theorem exists_line_of_lineOutcome? (h : lineOutcome? size text k = some outcome) :
    ∃ line, (Text.lines text)[k]? = some line ∧ isComment line = false := by
  obtain ⟨d, line, -, hline, hcomment, -⟩ := Draft.outcomeAt?_eq_some_iff.mp h
  exact ⟨line, hline, hcomment⟩

theorem diagnose_succ (hline : (Text.lines text)[k]? = some line) (severity : Severity)
    (error : Error) :
    diagnose (Text.lines text) ⟨1 + k, severity, error⟩ = ⟨k + 1, line, severity, error⟩ := by
  unfold diagnose
  rw [Nat.add_sub_cancel_left, List.getD_eq_getElem?_getD, hline, Option.getD_some,
    Nat.add_comm 1 k]

/-- A line has a diagnostic from reading if and only if it has an error. -/
theorem mem_readingDiagnostics :
    g ∈ readingDiagnostics size text ↔
      ∃ k line error, (Text.lines text)[k]? = some line ∧
        lineOutcome? size text k = some (.error error) ∧ g = ⟨k + 1, line, .error, error⟩ := by
  rw [readingDiagnostics_eq, List.mem_map]
  constructor
  · rintro ⟨r, hr, rfl⟩
    obtain ⟨k, error, h, rfl⟩ := Draft.mem_readReports.mp hr
    obtain ⟨line, hline, -⟩ := exists_line_of_lineOutcome? h
    exact ⟨k, line, error, hline, h, diagnose_succ hline _ _⟩
  · rintro ⟨k, line, error, hline, h, rfl⟩
    exact ⟨_, Draft.mem_readReports.mpr ⟨k, error, h, rfl⟩, diagnose_succ hline _ _⟩

/-- Every diagnostic quotes a line that was read, and has the severity of its error. -/
theorem of_mem_diagnostics (hg : g ∈ (assemble size text).diagnostics) :
    (∃ k outcome, g.line = k + 1 ∧ (Text.lines text)[k]? = some g.text ∧
        lineOutcome? size text k = some outcome) ∧
      (g.severity = .warning ↔ OfUndefined g.error) := by
  obtain ⟨r, hr, rfl⟩ := List.mem_map.mp hg
  obtain ⟨⟨k, outcome, hr, h⟩, hgraded⟩ := Draft.tells_ofLines size (Text.lines text) r hr
  obtain ⟨line, hline, -⟩ := exists_line_of_lineOutcome? h
  obtain ⟨n, severity, error⟩ := r
  cases hr
  refine ⟨⟨k, outcome, Nat.add_comm 1 k, ?_, h⟩, hgraded⟩
  have hquoted := congrArg Diagnostic.text (diagnose_succ hline severity error)
  exact hline.trans (congrArg some hquoted.symm)

theorem pairwise_readingDiagnostics :
    (readingDiagnostics size text).Pairwise fun g g' => g.line < g'.line := by
  rw [readingDiagnostics_eq]
  exact List.pairwise_map.mpr (Draft.pairwise_readReports _ 1 (Text.lines text))

theorem succeeded_iff {a : Assembly} :
    a.succeeded = true ↔ ∀ g ∈ a.diagnostics, g.severity ≠ .error := by
  unfold Assembly.succeeded
  simp [List.all_eq_true]

/-- A line that is no comment, with no last line before it, is obeyed or has a diagnostic. -/
theorem obeyed_or_mem_readingDiagnostics (hline : (Text.lines text)[k]? = some line)
    (hcomment : isComment line = false)
    (hlast : ∀ j < k, lineOutcome? size text j ≠ some (.ok true)) :
    (∃ last, lineOutcome? size text k = some (.ok last)) ∨
      ∃ error, ⟨k + 1, line, .error, error⟩ ∈ readingDiagnostics size text := by
  obtain ⟨outcome, houtcome⟩ := Draft.exists_outcome hline hcomment hlast
  cases outcome with
  | ok last => exact .inl ⟨last, houtcome⟩
  | error error =>
    exact .inr ⟨error, mem_readingDiagnostics.mpr ⟨k, line, error, hline, houtcome, rfl⟩⟩

end Assemble

/-- The diagnostics of a program are those from reading and then those from resolution. Each quotes
the line with its number, and reading came to this line. Those from reading are the errors of lines,
one for each line that has one, in the order of the lines, and none is for a comment or for a line
after the last one. The warnings are for undefined symbols, and nothing but an error keeps assembly
from success. Every line up to the last, if it is no comment, is obeyed or has a diagnostic. -/
theorem diagnostics_assemble (size : Nat) (text : String) :
    (assemble size text).diagnostics =
        readingDiagnostics size text ++ resolutionDiagnostics size text ∧
      (∀ g ∈ (assemble size text).diagnostics,
        1 ≤ g.line ∧ g.line ≤ (Text.lines text).length ∧
          (Text.lines text)[g.line - 1]? = some g.text ∧
          (lineOutcome? size text (g.line - 1)).isSome) ∧
      (readingDiagnostics size text).Pairwise (fun g g' => g.line < g'.line) ∧
      (∀ g, g ∈ readingDiagnostics size text ↔
        ∃ k line error, (Text.lines text)[k]? = some line ∧
          lineOutcome? size text k = some (.error error) ∧ g = ⟨k + 1, line, .error, error⟩) ∧
      (∀ g ∈ readingDiagnostics size text, isComment g.text = false ∧
        ∀ k, lineOutcome? size text k = some (.ok true) → g.line < k + 1) ∧
      (∀ g ∈ (assemble size text).diagnostics, g.severity = .warning ↔ OfUndefined g.error) ∧
      ((assemble size text).succeeded = true ↔
        ∀ g ∈ (assemble size text).diagnostics, g.severity ≠ .error) ∧
      ∀ k line, (Text.lines text)[k]? = some line → isComment line = false →
        (∀ j < k, lineOutcome? size text j ≠ some (.ok true)) →
          (∃ last, lineOutcome? size text k = some (.ok last)) ∨
            ∃ error, ⟨k + 1, line, .error, error⟩ ∈ readingDiagnostics size text := by
  refine ⟨diagnostics_eq_append size text, fun g hg => ?_, pairwise_readingDiagnostics,
    fun _ => mem_readingDiagnostics, fun g hg => ?_, fun g hg => (of_mem_diagnostics hg).2,
    succeeded_iff, fun _ _ => obeyed_or_mem_readingDiagnostics⟩
  · obtain ⟨⟨k, outcome, hline, htext, houtcome⟩, -⟩ := of_mem_diagnostics hg
    obtain ⟨hlength, -⟩ := List.getElem?_eq_some_iff.mp htext
    rw [hline, Nat.add_sub_cancel, houtcome]
    exact ⟨Nat.le_add_left 1 k, hlength, htext, rfl⟩
  · obtain ⟨k, line, error, hline, houtcome, rfl⟩ := mem_readingDiagnostics.mp hg
    refine ⟨?_, fun j hlast => ?_⟩
    · obtain ⟨line', hline', hcomment⟩ := exists_line_of_lineOutcome? houtcome
      rw [hline, Option.some.injEq] at hline'
      rw [hline']
      exact hcomment
    · -- The last line itself has another outcome.
      refine Nat.succ_lt_succ (Nat.lt_of_le_of_ne (Draft.outcomeAt?_le_last houtcome hlast) ?_)
      rintro rfl
      rw [hlast] at houtcome
      cases houtcome

/-- A constant without a value, a comment, an undefined symbol, the last line and one more. -/
def oneOfEach : String := "X CON 1/0\n*\n LDA Y\n END X\n LDA"

theorem diagnostics_assemble_oneOfEach :
    (assemble 4 oneOfEach).diagnostics =
        [⟨1, "X CON 1/0", .error, .divisionByZero⟩,
          ⟨3, " LDA Y", .warning, .undefinedSymbol "Y" 1⟩] ∧
      (assemble 4 oneOfEach).succeeded = false ∧
      (∀ g ∈ readingDiagnostics 4 oneOfEach, g.line < 4) ∧
      ((∃ last, lineOutcome? 4 oneOfEach 2 = some (.ok last)) ∨
        ∃ error, ⟨3, " LDA Y", .error, error⟩ ∈ readingDiagnostics 4 oneOfEach) := by
  have hdiagnostics : (assemble 4 oneOfEach).diagnostics =
      [⟨1, "X CON 1/0", .error, .divisionByZero⟩,
        ⟨3, " LDA Y", .warning, .undefinedSymbol "Y" 1⟩] := by
    decide +kernel
  have hlast : lineOutcome? 4 oneOfEach 3 = some (.ok true) := by decide +kernel
  have hearlier : ∀ j < 2, lineOutcome? 4 oneOfEach j ≠ some (.ok true) := by decide +kernel
  obtain ⟨-, -, -, -, hreading, -, hsucceeded, hsilent⟩ := diagnostics_assemble 4 oneOfEach
  refine ⟨hdiagnostics, ?_, fun g hg => (hreading g hg).2 3 hlast, ?_⟩
  · have hfirst : ⟨1, "X CON 1/0", .error, .divisionByZero⟩ ∈
        (assemble 4 oneOfEach).diagnostics := by
      rw [hdiagnostics]
      exact List.mem_cons_self
    exact Bool.eq_false_iff.mpr fun h => hsucceeded.mp h _ hfirst rfl
  · exact hsilent 2 " LDA Y" (by decide +kernel) (by decide +kernel) hearlier

end MixComputer.Assembly
