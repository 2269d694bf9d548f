import MixComputer.Proofs.Text
import MixComputer.Source.Line
import Mathlib.Data.List.TakeWhile

/-!
Lines and their fields. A field is a run of characters that are no blanks, and ends at the next
blank. So the fields of a line are found again however many blanks stand between them. In
particular an operation and an operand with a space before each are one line, which is split into
these two.
-/
namespace MixComputer.Source

def IsGap (cs : List Char) : Prop := cs ≠ [] ∧ ∀ c ∈ cs, Text.isBlank c = true

def IsField (cs : List Char) : Prop := cs ≠ [] ∧ ∀ c ∈ cs, Text.isBlank c = false

/-- The text ends a field in front of it: it is empty, or starts with a blank. -/
def EndsField (cs : List Char) : Prop := ∀ c ∈ cs.head?, Text.isBlank c = true

section Fields

variable {gap field rest : List Char}

theorem isGap_space : IsGap [' '] :=
  ⟨List.cons_ne_nil _ _, fun _ hc => List.mem_singleton.mp hc ▸ Text.isBlank_space⟩

theorem endsField_nil : EndsField [] := fun _ hc => absurd hc (Option.not_mem_none _)

theorem endsField_cons {c : Char} (hc : Text.isBlank c = true) : EndsField (c :: rest) :=
  fun _ h => Option.some.inj h ▸ hc

theorem IsGap.endsField (h : IsGap gap) : EndsField (gap ++ rest) := by
  obtain ⟨c, gap, rfl⟩ := List.exists_cons_of_ne_nil h.1
  exact endsField_cons (h.2 c List.mem_cons_self)

/-- A field ends at the next blank. -/
theorem nextField_append (hgap : ∀ c ∈ gap, Text.isBlank c = true) (hfield : IsField field)
    (hrest : EndsField rest) : nextField (gap ++ (field ++ rest)) = (field, rest) := by
  obtain ⟨hne, hfield⟩ := hfield
  have hdrop : Text.dropBlanks (gap ++ (field ++ rest)) = field ++ rest := by
    rw [Text.dropBlanks, List.dropWhile_append_of_pos hgap]
    cases field with
    | nil => exact absurd rfl hne
    | cons c field =>
      have hc := hfield c List.mem_cons_self
      rw [List.cons_append, List.dropWhile_cons_of_neg (by simp [hc])]
  have hvisible : ∀ c ∈ field, (!Text.isBlank c) = true := by
    intro c hc
    rw [hfield c hc]
    rfl
  have htake : rest.takeWhile (!Text.isBlank ·) = [] := by
    cases rest with
    | nil => rfl
    | cons c rest => rw [List.takeWhile_cons_of_neg (by simp [hrest c rfl])]
  have hkeep : rest.dropWhile (!Text.isBlank ·) = rest := by
    cases rest with
    | nil => rfl
    | cons c rest => rw [List.dropWhile_cons_of_neg (by simp [hrest c rfl])]
  simp only [nextField, hdrop]
  rw [List.takeWhile_append_of_pos hvisible, List.dropWhile_append_of_pos hvisible, htake, hkeep,
    List.append_nil]

/-- Only blanks are passed over to find a field. -/
theorem exists_gap_nextField (cs : List Char) :
    ∃ gap, (∀ c ∈ gap, Text.isBlank c = true) ∧
      cs = gap ++ ((nextField cs).1 ++ (nextField cs).2) := by
  refine ⟨cs.takeWhile Text.isBlank, fun c hc => List.mem_takeWhile_imp hc, ?_⟩
  rw [nextField, List.takeWhile_append_dropWhile, Text.dropBlanks, List.takeWhile_append_dropWhile]

theorem isBlank_of_mem_nextField {cs : List Char} {c : Char} (h : c ∈ (nextField cs).1) :
    Text.isBlank c = false := by
  simpa using List.mem_takeWhile_imp h

theorem endsField_nextField (cs : List Char) : EndsField (nextField cs).2 := by
  intro c hc
  have hstop := List.head?_dropWhile_not (!Text.isBlank ·) (Text.dropBlanks cs)
  rw [nextField] at hc
  rw [Option.mem_def.mp hc] at hstop
  simpa using hstop

/-- There is no further field in a text of blanks, and only there. -/
theorem nextField_eq_nil_iff (cs : List Char) :
    (nextField cs).1 = [] ↔ ∀ c ∈ cs, Text.isBlank c = true := by
  rw [← List.dropWhile_eq_nil_iff, nextField]
  change _ ↔ Text.dropBlanks cs = []
  cases hdrop : Text.dropBlanks cs with
  | nil => simp
  | cons c rest =>
    have hc := List.head?_dropWhile_not Text.isBlank cs
    rw [← Text.dropBlanks, hdrop] at hc
    simp only [List.head?_cons] at hc
    simp [hc]

end Fields

section Lines

variable {text : String} {label : Option String} {operation : String} {gap rest : List Char}

/-- A line is split into its label, its operation and the rest, however wide the gap is. -/
theorem ofText?_of_fields
    (htext : text.toList = (label.getD "").toList ++ gap ++ operation.toList ++ rest)
    (hlabel : ∀ name ∈ label, IsField name.toList) (hgap : IsGap gap)
    (hoperation : IsField operation.toList) (hrest : EndsField rest) :
    Line.ofText? text = (label.bind symbolProblem?).elim
      (.ok ⟨label, operation, String.ofList (nextField rest).1, String.ofList rest⟩) .error := by
  have hfields (label : Option String) :
      Line.ofFields label (gap ++ (operation.toList ++ rest)) =
        .ok ⟨label, operation, String.ofList (nextField rest).1, String.ofList rest⟩ := by
    have hnonempty : operation.toList.isEmpty = false := List.isEmpty_eq_false_iff.mpr hoperation.1
    simp only [Line.ofFields, nextField_append hgap.2 hoperation hrest, hnonempty,
      Bool.false_eq_true, if_false, String.ofList_toList]
  rw [List.append_assoc] at htext
  cases label with
  | none =>
    have hfirst : (text.toList.head?.map Text.isBlank).getD false = true := by
      obtain ⟨c, gap, rfl⟩ := List.exists_cons_of_ne_nil hgap.1
      rw [htext]
      exact hgap.2 c List.mem_cons_self
    have hline : Line.ofText? text = Line.ofFields none text.toList := if_pos hfirst
    rw [hline, htext]
    exact hfields none
  | some name =>
    have hname := hlabel name rfl
    have hfirst : (text.toList.head?.map Text.isBlank).getD false = false := by
      obtain ⟨c, cs, hcs⟩ := List.exists_cons_of_ne_nil hname.1
      rw [htext, Option.getD_some, hcs]
      exact hname.2 c (hcs ▸ List.mem_cons_self)
    have hnext : nextField text.toList = (name.toList, gap ++ (operation.toList ++ rest)) := by
      rw [htext, Option.getD_some, List.append_assoc]
      have hno : ∀ c ∈ ([] : List Char), Text.isBlank c = true :=
        fun _ hc => absurd hc List.not_mem_nil
      exact nextField_append hno hname hgap.endsField
    simp only [Line.ofText?, hfirst, Bool.false_eq_true, if_false, hnext, String.ofList_toList,
      hfields, Option.bind_some]
    cases symbolProblem? name <;> rfl

/-- Such a line is a comment if its label starts with an asterisk. -/
theorem isComment_of_fields
    (htext : text.toList = (label.getD "").toList ++ gap ++ operation.toList ++ rest)
    (hlabel : ∀ name ∈ label, IsField name.toList) (hgap : IsGap gap)
    (hoperation : IsField operation.toList) :
    isComment text = ((label.getD "").toList.head? == some '*') := by
  have hvisible : text.toList.all Text.isBlank = false := by
    obtain ⟨c, cs, hcs⟩ := List.exists_cons_of_ne_nil hoperation.1
    have hc := hoperation.2 c (hcs ▸ List.mem_cons_self)
    refine List.all_eq_false.mpr ⟨c, ?_, by simp [hc]⟩
    rw [htext, hcs]
    exact List.mem_append_left _ (List.mem_append_right _ List.mem_cons_self)
  rw [isComment, hvisible, Bool.or_false, htext]
  cases label with
  | none =>
    obtain ⟨c, gap, rfl⟩ := List.exists_cons_of_ne_nil hgap.1
    have hc : c ≠ '*' := by
      rintro rfl
      have hblank : Text.isBlank '*' = false := by decide
      rw [hgap.2 '*' List.mem_cons_self] at hblank
      cases hblank
    simp [hc]
  | some name =>
    obtain ⟨c, cs, hcs⟩ := List.exists_cons_of_ne_nil (hlabel name rfl).1
    simp [hcs]

end Lines

section Written

variable {operation operand : List Char}

def writtenLine (operation operand : List Char) : String :=
  String.ofList (' ' :: (operation ++ ' ' :: operand))

theorem toList_writtenLine (operation operand : List Char) :
    (writtenLine operation operand).toList =
      ((none : Option String).getD "").toList ++ [' '] ++ (String.ofList operation).toList ++
        ' ' :: operand := by
  simp [writtenLine]

theorem isComment_writtenLine (hne : operation ≠ [])
    (hoperation : ∀ c ∈ operation, Text.isBlank c = false) :
    isComment (writtenLine operation operand) = false := by
  rw [isComment_of_fields (toList_writtenLine operation operand) nofun isGap_space]
  · rfl
  · rw [String.toList_ofList]
    exact ⟨hne, hoperation⟩

theorem ofText?_writtenLine (hne : operation ≠ [])
    (hoperation : ∀ c ∈ operation, Text.isBlank c = false) (hne' : operand ≠ [])
    (hoperand : ∀ c ∈ operand, Text.isBlank c = false) :
    Line.ofText? (writtenLine operation operand) =
      .ok ⟨none, String.ofList operation, String.ofList operand,
        String.ofList (' ' :: operand)⟩ := by
  have hnext : nextField (' ' :: operand) = (operand, []) := by
    have h := nextField_append isGap_space.2 ⟨hne', hoperand⟩ endsField_nil
    rwa [List.append_nil] at h
  rw [ofText?_of_fields (toList_writtenLine operation operand) nofun isGap_space _
    (endsField_cons Text.isBlank_space), hnext]
  · rfl
  · rw [String.toList_ofList]
    exact ⟨hne, hoperation⟩

theorem lines_writtenLine (hoperation : ∀ c ∈ operation, Text.isBlank c = false)
    (hoperand : ∀ c ∈ operand, Text.isBlank c = false) :
    Text.lines (writtenLine operation operand) = [writtenLine operation operand] := by
  have hnewline : ∀ c ∈ ' ' :: (operation ++ ' ' :: operand), c ≠ '\n' := by
    rintro c hc rfl
    have hblank : Text.isBlank '\n' = true := by decide
    simp only [List.mem_cons, List.mem_append, Char.reduceEq, false_or] at hc
    rcases hc with hc | hc
    · rw [hoperation _ hc] at hblank
      cases hblank
    · rw [hoperand _ hc] at hblank
      cases hblank
  rw [Text.lines, writtenLine, String.toList_ofList,
    Text.splitLines_of_no_newline (List.cons_ne_nil _ _) hnewline, List.map_singleton]

end Written

end MixComputer.Source
