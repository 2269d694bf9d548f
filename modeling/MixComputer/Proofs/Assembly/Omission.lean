import MixComputer.Proofs.Assembly.Numbering
import MixComputer.Proofs.Source.Symbol

/-!
A line without a label that has an error might as well be a comment. But for its report it leaves
the draft as it was, and reports are never read, so all other lines and the resolution do the same
as if it was not there.
-/
namespace MixComputer

namespace Assembly

open Source

def StartsBlank (text : String) : Prop := ∃ c ∈ text.toList.head?, Text.isBlank c = true

namespace Draft

theorem label_of_startsBlank {text : String} {l : Line} {mnemonic : Mnemonic}
    (hblank : StartsBlank text) (hparse : parseLine text = .ok (l, mnemonic)) : l.label = none := by
  obtain ⟨c, hc, hblank⟩ := hblank
  have hfirst : (text.toList.head?.map Text.isBlank).getD false = true := by
    rw [Option.mem_def.mp hc]
    exact hblank
  have hline : Line.ofText? text = Line.ofFields none text.toList := if_pos hfirst
  unfold parseLine at hparse
  rw [hline] at hparse
  split at hparse
  · cases hparse
  · rename_i hfields
    split at hparse
    · cases hparse
      exact label_of_ofFields hfields
    · cases hparse

variable {d : Draft} {text : String} {line : Nat}

/-- Without a label, passing over a line changes nothing. -/
theorem skip_of_startsBlank (hblank : StartsBlank text) (d : Draft) (line : Nat) :
    d.skip text line = d := by
  unfold skip
  cases hparse : parseLine text with
  | error error => rfl
  | ok parsed =>
    obtain ⟨l, mnemonic⟩ := parsed
    have hnone : d.earlyLabel? mnemonic l = none := by
      rw [earlyLabel?, label_of_startsBlank hblank hparse]
      exact ite_self _
    simp only [hnone, Option.elim_none]

/-- A line without a label has no error, or does nothing but report it. -/
theorem takeLine_of_startsBlank (hblank : StartsBlank text) (d : Draft) (line : Nat) :
    (d.takeLine text line).1.reports = d.reports ∨
      ∃ error, d.takeLine text line = (d.report line .error error, false) := by
  unfold takeLine
  split
  · exact .inl rfl
  · cases hread : d.readLine text line with
    | mk d' result =>
      cases result with
      | error error =>
        refine .inr ⟨error, ?_⟩
        rw [readLine_eq_error hread, skip_of_startsBlank hblank]
      | ok last =>
        refine .inl ?_
        have hreports := reports_readLine d text line
        rw [hread] at hreports
        exact hreports

section Reading

variable {P : Nat → Prop} {before after : List String} {bad comment : String}

/-- If reading comes to a line without a label and reports an error there, it goes on after that
line with the draft that it would have after a comment, and the report. -/
theorem readLines_omit (hblank : StartsBlank bad) (hcomment : isComment comment = true)
    (hothers : ∀ j, line ≤ j → j ≠ line + before.length → P j) (hnot : ¬ P (line + before.length))
    (hlogs : d.Logs P) (hwaits : d.Waits P)
    (hreport : ∃ r ∈ (d.readLines line (before ++ bad :: after)).reports,
      r.line = line + before.length) :
    ∃ (d₁ : Draft) (error : Error), d₁.Logs P ∧ d₁.Waits P ∧
      d.readLines line (before ++ bad :: after) =
        (d₁.report (line + before.length) .error error).readLines (line + before.length + 1)
          after ∧
      d.readLines line (before ++ comment :: after) =
        d₁.readLines (line + before.length + 1) after := by
  -- No other line reports under this number, so a run without the report contradicts `hreport`.
  have hcontra : ¬ (d.readLines line (before ++ bad :: after)).Logs P := by
    intro hall
    obtain ⟨r, hr, hline⟩ := hreport
    exact hnot (hline ▸ hall r hr)
  induction before generalizing d line with
  | nil =>
    have hlater : ∀ j, line + 1 ≤ j → P j := by
      intro j hj
      refine hothers j (by omega) ?_
      rw [List.length_nil]
      omega
    rcases takeLine_of_startsBlank hblank d line with hsilent | ⟨error, htake⟩
    · refine absurd ?_ hcontra
      have hlogs' : (d.takeLine bad line).1.Logs P := by
        unfold Logs
        rw [hsilent]
        exact hlogs
      rw [List.nil_append, readLines]
      cases htake : d.takeLine bad line with
      | mk d' last =>
        rw [htake] at hlogs'
        cases last with
        | true => exact hlogs'
        | false => exact logs_readLines hlogs' hlater after
    · refine ⟨d, error, hlogs, hwaits, ?_, ?_⟩
      · rw [List.nil_append, readLines, htake]
        rfl
      · have hpass : d.takeLine comment line = (d, false) := if_pos hcomment
        rw [List.nil_append, readLines, hpass]
        rfl
  | cons text rest ih =>
    have hlength : line + (text :: rest).length = line + 1 + rest.length := by
      rw [List.length_cons]
      omega
    have hline : P line := hothers line (Nat.le_refl line) (by omega)
    have hlogs' := logs_takeLine hlogs hline text
    have hwaits' := waits_takeLine hwaits hline text
    rw [hlength] at hothers hnot hreport ⊢
    rw [List.cons_append, readLines] at hcontra hreport ⊢
    rw [List.cons_append, readLines]
    cases htake : d.takeLine text line with
    | mk d' last =>
      rw [htake] at hlogs' hwaits'
      simp only [htake] at hcontra hreport
      cases last with
      | true => exact absurd hlogs' hcontra
      | false =>
        exact ih (fun j hj => hothers j (Nat.le_of_succ_le hj)) hnot hlogs' hwaits' hreport hcontra

/-- So the two programs end alike, but for the report. -/
theorem ofLines_omit {size : Nat} {error : Error} (hblank : StartsBlank bad)
    (hcomment : isComment comment = true)
    (herror : ⟨before.length + 1, .error, error⟩ ∈
      ((start size).readLines 1 (before ++ bad :: after)).reports) :
    ∃ (d : Draft) (rs : List Report),
      ofLines size (before ++ bad :: after) =
        d.logged (rs ++ [⟨before.length + 1, .error, error⟩]) ∧
      ofLines size (before ++ comment :: after) = d.logged rs ∧
      (∀ r ∈ rs, r.line - 1 ≠ before.length) ∧ ∀ r ∈ d.reports, r.line - 1 ≠ before.length := by
  let P : Nat → Prop := fun j => j - 1 ≠ before.length
  have hothers : ∀ j, 1 ≤ j → j ≠ 1 + before.length → P j := by
    intro j hj hne heq
    omega
  have hnot : ¬ P (1 + before.length) := fun h => h (Nat.add_sub_cancel_left 1 before.length)
  obtain ⟨d, other, hlogs, hwaits, hread, hread'⟩ := readLines_omit hblank
    hcomment hothers hnot (logs_start P size) (waits_start P size)
    ⟨_, herror, Nat.add_comm before.length 1⟩
  rw [Nat.add_comm 1 before.length] at hothers hnot hread hread'
  -- The rest of both runs, as if nothing had been reported before.
  let rest := (d.withReports []).readLines (before.length + 1 + 1) after
  have hlater : ∀ j, before.length + 1 + 1 ≤ j → P j := fun j hj => hothers j (by omega) (by omega)
  have hrest : rest.Logs P := logs_readLines (fun _ h => absurd h List.not_mem_nil) hlater after
  have hbad : (start size).readLines 1 (before ++ bad :: after) =
      rest.logged (d.reports ++ [⟨before.length + 1, .error, other⟩]) := by
    rw [hread, ← readLines_logged]
    simp [logged, withReports, report]
  have hgood : (start size).readLines 1 (before ++ comment :: after) = rest.logged d.reports := by
    rw [hread', ← readLines_logged]
    simp [logged, withReports]
  have hsame : error = other := by
    rw [hbad] at herror
    rcases List.mem_append.mp herror with hfirst | hlast
    · rcases List.mem_append.mp hfirst with hearly | hhere
      · exact absurd (hlogs _ hearly) hnot
      · cases List.mem_singleton.mp hhere
        rfl
    · exact absurd (hrest _ hlast) hnot
  refine ⟨rest.resolve, d.reports, ?_, ?_, hlogs, ?_⟩
  · rw [ofLines, hbad, resolve_logged, hsame]
  · rw [ofLines, hgood, resolve_logged]
  · exact logs_resolve hrest (waits_readLines (hwaits.withReports []) hlater after)

end Reading

end Draft

section Assemble

def diagnose (lines : List String) (r : Report) : Diagnostic :=
  ⟨r.line, lines.getD (r.line - 1) "", r.severity, r.error⟩

theorem diagnose_replace {before after : List String} {old new : String} {r : Report}
    (h : r.line - 1 ≠ before.length) :
    diagnose (before ++ new :: after) r = diagnose (before ++ old :: after) r := by
  have hreplaced : before ++ new :: after = (before ++ old :: after).set before.length new := by
    simp
  unfold diagnose
  rw [hreplaced, List.getD_eq_getElem?_getD, List.getD_eq_getElem?_getD,
    List.getElem?_set_ne (Ne.symm h)]

/-- A line without a label that has an error leaves no trace but its own diagnostic: with a
comment in its place there is the same memory, there are the same symbols in the same order, the
same entry, and the same other diagnostics in the same order. -/
theorem assemble_omit_line {size : Nat} {text text' : String} {before after : List String}
    {bad comment : String} {error : Error} (htext : Text.lines text = before ++ bad :: after)
    (htext' : Text.lines text' = before ++ comment :: after)
    (hblank : StartsBlank bad) (hcomment : isComment comment = true)
    (herror : ⟨before.length + 1, .error, error⟩ ∈
      ((Draft.start size).readLines 1 (Text.lines text)).reports) :
    (assemble size text').memory = (assemble size text).memory ∧
      (assemble size text').symbols = (assemble size text).symbols ∧
      (assemble size text').entry = (assemble size text).entry ∧
      ∃ earlier later,
        (assemble size text).diagnostics =
          earlier ++ ⟨before.length + 1, bad, .error, error⟩ :: later ∧
        (assemble size text').diagnostics = earlier ++ later := by
  rw [htext] at herror
  obtain ⟨d, rs, hbad, hgood, hearlier, hlater⟩ := Draft.ofLines_omit hblank hcomment herror
  rw [← htext] at hbad
  rw [← htext'] at hgood
  have hagree {reports : List Report} (h : ∀ r ∈ reports, r.line - 1 ≠ before.length) :
      reports.map (diagnose (Text.lines text')) = reports.map (diagnose (Text.lines text)) := by
    rw [htext, htext']
    exact List.map_congr_left fun r hr => diagnose_replace (h r hr)
  have hown : diagnose (Text.lines text) ⟨before.length + 1, .error, error⟩ =
      ⟨before.length + 1, bad, .error, error⟩ := by
    rw [htext]
    simp [diagnose]
  refine ⟨?_, ?_, ?_, rs.map (diagnose (Text.lines text)),
    d.reports.map (diagnose (Text.lines text)), ?_, ?_⟩
  · change (Draft.ofLines size _).memory = (Draft.ofLines size _).memory
    rw [hbad, hgood]
    rfl
  · change (Draft.ofLines size _).symbols = (Draft.ofLines size _).symbols
    rw [hbad, hgood]
    rfl
  · change (Draft.ofLines size _).entry = (Draft.ofLines size _).entry
    rw [hbad, hgood]
    rfl
  · change (Draft.ofLines size _).reports.map (diagnose _) = _
    rw [hbad, ← hown]
    simp [Draft.logged, Draft.withReports]
  · change (Draft.ofLines size _).reports.map (diagnose _) = _
    rw [hgood, ← hagree hearlier, ← hagree hlater]
    simp [Draft.logged, Draft.withReports]

def failedEnd : String := " LDA X\n END 9\nX CON 7\n END X"

def mutedEnd : String := " LDA X\n*\nX CON 7\n END X"

theorem assemble_omit_line_end :
    (assemble 4 mutedEnd).memory = (assemble 4 failedEnd).memory ∧
      (assemble 4 mutedEnd).entry = some 1 ∧
      ∃ earlier later,
        (assemble 4 failedEnd).diagnostics =
          earlier ++ ⟨2, " END 9", .error, .outOfRange .entryPoint 9⟩ :: later ∧
        (assemble 4 mutedEnd).diagnostics = earlier ++ later := by
  have hfailed : Text.lines failedEnd = [" LDA X"] ++ " END 9" :: ["X CON 7", " END X"] := by
    decide +kernel
  have hmuted : Text.lines mutedEnd = [" LDA X"] ++ "*" :: ["X CON 7", " END X"] := by
    decide +kernel
  have herror : ⟨2, .error, .outOfRange .entryPoint 9⟩ ∈
      ((Draft.start 4).readLines 1 (Text.lines failedEnd)).reports := by
    decide +kernel
  obtain ⟨hmemory, -, hentry, hdiagnostics⟩ := assemble_omit_line hfailed hmuted
    ⟨' ', by decide +kernel, by decide +kernel⟩ (by decide +kernel) herror
  have hX : (assemble 4 failedEnd).entry = some 1 := by decide +kernel
  exact ⟨hmemory, hentry.trans hX, hdiagnostics⟩

end Assemble

end Assembly

end MixComputer
