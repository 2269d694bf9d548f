import MixComputer.Proofs.Source.Line
import MixComputer.Proofs.Source.Symbol

/-!
Splitting a line loses nothing. The label, the operation and the rest of a line are the line again
but for the blanks between them, and the operand is the first field of the rest. Lines with the
same fields differ in their blanks and in their comments.
-/
namespace MixComputer.Source

structure Line.Splits (l : Line) (text : String) : Prop where
  text_eq : ∃ gap, IsGap gap ∧
    text.toList = (l.label.getD "").toList ++ gap ++ l.operation.toList ++ l.rest.toList
  label_eq_none_iff : l.label = none ↔ ∃ c ∈ text.toList.head?, Text.isBlank c = true
  label : ∀ name ∈ l.label, symbolProblem? name = none ∧ IsField name.toList
  operation : IsField l.operation.toList
  rest : EndsField l.rest.toList
  rest_eq : ∃ gap comment, (∀ c ∈ gap, Text.isBlank c = true) ∧ EndsField comment ∧
    l.rest.toList = gap ++ (l.operand.toList ++ comment)
  operand : ∀ c ∈ l.operand.toList, Text.isBlank c = false
  operand_eq_empty_iff : l.operand = "" ↔ ∀ c ∈ l.rest.toList, Text.isBlank c = true

/-- A line with the given fields. Blanks keep them apart, and a comment starts with a blank. -/
structure LaidOut (label : Option String) (operation operand text : String) : Prop where
  isField_label : ∀ name ∈ label, IsField name.toList
  isField_operation : IsField operation.toList
  isField_operand : IsField operand.toList
  text_eq : ∃ gap gap' comment, IsGap gap ∧ IsGap gap' ∧ EndsField comment ∧
    text.toList = (label.getD "").toList ++ gap ++ operation.toList ++
      (gap' ++ (operand.toList ++ comment))

section Splits

variable {text : String} {l : Line}

/-- The text of a symbol is a field. -/
theorem isField_of_symbolProblem? {name : String} (h : symbolProblem? name = none) :
    IsField name.toList := by
  obtain ⟨⟨hletters, c, hc, -⟩, -⟩ := (symbolProblem?_eq_none_iff name).mp h
  exact ⟨List.ne_nil_of_mem hc, fun c hc => Text.isBlank_of_isAlphanum (hletters c hc)⟩

/-- What ends a field is kept apart from the next one. -/
theorem EndsField.isGap {gap field rest : List Char} (h : EndsField (gap ++ (field ++ rest)))
    (hgap : ∀ c ∈ gap, Text.isBlank c = true) (hfield : IsField field) : IsGap gap := by
  refine ⟨?_, hgap⟩
  rintro rfl
  obtain ⟨c, cs, rfl⟩ := List.exists_cons_of_ne_nil hfield.1
  have hblank := h c rfl
  rw [hfield.2 c List.mem_cons_self] at hblank
  cases hblank

/-- What follows the label is split into an operation and the rest. -/
theorem ofFields_eq_ok {label : Option String} {cs : List Char}
    (h : Line.ofFields label cs = .ok l) :
    IsField (nextField cs).1 ∧
      l = ⟨label, String.ofList (nextField cs).1, String.ofList (nextField (nextField cs).2).1,
        String.ofList (nextField cs).2⟩ := by
  unfold Line.ofFields at h
  simp only at h
  split at h
  · cases h
  · rename_i hnonempty
    refine ⟨⟨fun hnil => hnonempty (by rw [hnil]; rfl), fun c => isBlank_of_mem_nextField⟩, ?_⟩
    exact (Except.ok.inj h).symm

theorem splits_of_ofFields {label : Option String} {cs : List Char}
    (h : Line.ofFields label cs = .ok l) (hcs : EndsField cs)
    (htext : text.toList = (label.getD "").toList ++ cs)
    (hnone : label = none ↔ ∃ c ∈ text.toList.head?, Text.isBlank c = true)
    (hlabel : ∀ name ∈ label, symbolProblem? name = none) : l.Splits text := by
  obtain ⟨hoperation, rfl⟩ := ofFields_eq_ok h
  obtain ⟨gap, hgap, hfields⟩ := exists_gap_nextField cs
  obtain ⟨gap', hgap', hrest⟩ := exists_gap_nextField (nextField cs).2
  rw [hfields] at hcs
  refine ⟨⟨gap, hcs.isGap hgap hoperation, ?_⟩, hnone, ?_, ?_, ?_, ?_, ?_, ?_⟩
  · simp only [String.toList_ofList, List.append_assoc]
    rw [htext, ← hfields]
  · exact fun name hname => ⟨hlabel name hname, isField_of_symbolProblem? (hlabel name hname)⟩
  · simpa only [String.toList_ofList] using hoperation
  · simpa only [String.toList_ofList] using endsField_nextField cs
  · simp only [String.toList_ofList]
    exact ⟨gap', _, hgap', endsField_nextField _, hrest⟩
  · simpa only [String.toList_ofList] using fun c => isBlank_of_mem_nextField
  · simp only [String.toList_ofList]
    rw [← nextField_eq_nil_iff, ← String.toList_inj, String.toList_ofList]
    rfl

/-- A line that is split is put together again from its parts. -/
theorem splits_of_ofText? (h : Line.ofText? text = .ok l) : l.Splits text := by
  unfold Line.ofText? at h
  simp only at h
  split at h
  · rename_i hfirst
    have hblank : ∃ c ∈ text.toList.head?, Text.isBlank c = true := by
      cases hhead : text.toList.head? with
      | none => simp [hhead] at hfirst
      | some c => exact ⟨c, rfl, by simpa [hhead] using hfirst⟩
    refine splits_of_ofFields h ?_ rfl ⟨fun _ => hblank, fun _ => rfl⟩ nofun
    intro c hc
    obtain ⟨c', hc', hblank⟩ := hblank
    exact Option.some.inj (hc.symm.trans hc') ▸ hblank
  · rename_i hfirst
    have hvisible : ∀ c ∈ text.toList.head?, Text.isBlank c = false := by
      intro c hc
      rw [Option.mem_def.mp hc] at hfirst
      simpa using hfirst
    split at h
    · cases h
    · rename_i hchecked
      obtain ⟨gap, hgap, htext⟩ := exists_gap_nextField text.toList
      -- The line does not start with a blank, so its label stands right at the front.
      have hnil : gap = [] := by
        cases gap with
        | nil => rfl
        | cons c gap =>
          have hc := hvisible c (by rw [htext]; rfl)
          rw [hgap c List.mem_cons_self] at hc
          cases hc
      subst hnil
      refine splits_of_ofFields h (endsField_nextField _) ?_ ⟨nofun, fun hblank => ?_⟩ ?_
      · simpa using htext
      · obtain ⟨c, hc, hblank⟩ := hblank
        rw [hvisible c hc] at hblank
        cases hblank
      · intro name hname
        rw [← Option.some.inj hname]
        exact hchecked

theorem Line.Splits.laidOut (h : l.Splits text) (hne : l.operand ≠ "") :
    LaidOut l.label l.operation l.operand text := by
  obtain ⟨gap, hgap, htext⟩ := h.text_eq
  obtain ⟨gap', comment, hgap', hcomment, hrest⟩ := h.rest_eq
  have hoperand : IsField l.operand.toList :=
    ⟨fun hnil => hne (String.toList_inj.mp hnil), h.operand⟩
  have hends := h.rest
  rw [hrest] at hends htext
  exact ⟨fun name hname => (h.label name hname).2, h.operation, hoperand,
    gap, gap', comment, hgap, hends.isGap hgap' hoperand, hcomment, htext⟩

end Splits

namespace LaidOut

variable {label : Option String} {operation operand text : String}

/-- The fields of a line are found again, or there is something wrong with the label. -/
theorem ofText?_eq (h : LaidOut label operation operand text) :
    ∃ rest, Line.ofText? text =
      (label.bind symbolProblem?).elim (.ok ⟨label, operation, operand, rest⟩) .error := by
  obtain ⟨gap, gap', comment, hgap, hgap', hcomment, htext⟩ := h.text_eq
  refine ⟨String.ofList (gap' ++ (operand.toList ++ comment)), ?_⟩
  rw [ofText?_of_fields htext h.isField_label hgap h.isField_operation hgap'.endsField,
    nextField_append hgap'.2 h.isField_operand hcomment, String.ofList_toList]

theorem isComment_eq (h : LaidOut label operation operand text) :
    isComment text = ((label.getD "").toList.head? == some '*') := by
  obtain ⟨gap, gap', comment, hgap, -, -, htext⟩ := h.text_eq
  exact isComment_of_fields htext h.isField_label hgap h.isField_operation

end LaidOut

end MixComputer.Source
