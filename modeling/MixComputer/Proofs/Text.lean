import MixComputer.Text.Blank
import MixComputer.Text.Lines
import MixComputer.Text.Numeral

/-!
Numerals, blanks and lines. A decimal numeral is read as the number it was written for; letters
and digits are no blanks; a text without a newline is a single line, and any lines without
newlines are the lines of some text.
-/
namespace MixComputer.Text

theorem numeral_toDigits (n : Nat) : numeral (Nat.toDigits 10 n) = n := by
  have h : numeral (Nat.toDigits 10 n) = Nat.ofDigitChars 10 (Nat.toDigits 10 n) 0 := by
    rw [Nat.ofDigitChars_eq_foldl]
    rfl
  rw [h]
  exact Nat.ofDigitChars_ten_toDigits

theorem isAlphanum_of_isDigit {c : Char} (h : c.isDigit = true) : c.isAlphanum = true := by
  rw [Char.isAlphanum, h, Bool.or_true]

theorem isAlphanum_of_mem_toDigits {n : Nat} {c : Char} (h : c ∈ Nat.toDigits 10 n) :
    c.isAlphanum = true :=
  isAlphanum_of_isDigit (Nat.isDigit_of_mem_toDigits (by omega) (by omega) h)

theorem toNat_of_isAlpha {c : Char} (h : c.isAlpha = true) :
    (65 ≤ c.toNat ∧ c.toNat ≤ 90) ∨ (97 ≤ c.toNat ∧ c.toNat ≤ 122) := by
  obtain hupper | hlower := Bool.or_eq_true_iff.mp h
  · have hbounds : 'A'.val ≤ c.val ∧ c.val ≤ 'Z'.val := of_decide_eq_true hupper
    exact .inl hbounds
  · have hbounds := Bool.and_eq_true_iff.mp hlower
    exact .inr ⟨of_decide_eq_true hbounds.1, of_decide_eq_true hbounds.2⟩

/-- A letter is no digit. -/
theorem isDigit_of_isAlpha {c : Char} (h : c.isAlpha = true) : c.isDigit = false := by
  have hletter := toNat_of_isAlpha h
  refine Bool.eq_false_iff.mpr fun hdigit => ?_
  have hrange : 48 ≤ c.toNat ∧ c.toNat ≤ 57 := Char.isDigit_iff_toNat.mp hdigit
  omega

theorem isBlank_of_isAlphanum {c : Char} (h : c.isAlphanum = true) : isBlank c = false := by
  have hrange : (48 ≤ c.toNat ∧ c.toNat ≤ 57) ∨ (65 ≤ c.toNat ∧ c.toNat ≤ 90) ∨
      (97 ≤ c.toNat ∧ c.toNat ≤ 122) := by
    obtain halpha | hdigit := Bool.or_eq_true_iff.mp h
    · exact .inr (toNat_of_isAlpha halpha)
    · exact .inl (Char.isDigit_iff_toNat.mp hdigit)
  rw [isBlank, Ranges.contain, List.any_eq_false]
  intro r hr
  simp only [blankRanges, List.mem_cons, List.not_mem_nil, or_false] at hr
  simp only [Bool.and_eq_true, decide_eq_true_eq, not_and]
  rcases hr with rfl | rfl | rfl | rfl | rfl | rfl | rfl | rfl | rfl | rfl <;> omega

theorem isBlank_space : isBlank ' ' = true := by decide

/-- A text without a newline is one line. -/
theorem splitLines_of_no_newline {cs : List Char} (hne : cs ≠ []) (h : ∀ c ∈ cs, c ≠ '\n') :
    splitLines cs = [cs] := by
  induction cs with
  | nil => exact absurd rfl hne
  | cons c cs ih =>
    have hc := h c List.mem_cons_self
    have hcs : ∀ x ∈ cs, x ≠ '\n' := fun x hx => h x (List.mem_cons_of_mem c hx)
    rw [splitLines]
    · cases cs with
      | nil => rfl
      | cons c' cs => rw [ih (List.cons_ne_nil c' cs) hcs]
    · exact hc
    · rintro rest - rfl
      exact hcs '\n' List.mem_cons_self rfl

/-- A line ends at the newline behind it, and a carriage return in between is not part of it. -/
theorem splitLines_append {line : List Char} (h : '\n' ∉ line) (rest : List Char) :
    splitLines (line ++ '\r' :: '\n' :: rest) = line :: splitLines rest := by
  induction line with
  | nil => rfl
  | cons c line ih =>
    have hc : c ≠ '\n' := fun heq => h (heq ▸ List.mem_cons_self)
    have hline : '\n' ∉ line := fun hmem => h (List.mem_cons_of_mem c hmem)
    rw [List.cons_append, splitLines]
    · rw [ih hline]
    · exact hc
    · rintro other - heq
      cases line with
      | nil => cases heq
      | cons c' line => exact hline ((List.cons.inj heq).1 ▸ List.mem_cons_self)

/-- Every list of lines without newlines makes up a text. -/
theorem exists_lines {texts : List String} (h : ∀ line ∈ texts, '\n' ∉ line.toList) :
    ∃ text, lines text = texts := by
  suffices hchars : ∃ cs, (splitLines cs).map String.ofList = texts by
    obtain ⟨cs, hcs⟩ := hchars
    exact ⟨String.ofList cs, by rw [lines, String.toList_ofList, hcs]⟩
  induction texts with
  | nil => exact ⟨[], rfl⟩
  | cons line texts ih =>
    obtain ⟨cs, hcs⟩ := ih fun other hother => h other (List.mem_cons_of_mem line hother)
    refine ⟨line.toList ++ '\r' :: '\n' :: cs, ?_⟩
    rw [splitLines_append (h line List.mem_cons_self), List.map_cons, hcs, String.ofList_toList]

theorem newline_not_mem_of_mem_splitLines {cs line : List Char} (h : line ∈ splitLines cs) :
    '\n' ∉ line := by
  induction cs using splitLines.induct generalizing line with
  | case1 => exact absurd h List.not_mem_nil
  | case2 cs ih =>
    rcases List.mem_cons.mp h with rfl | h
    · exact List.not_mem_nil
    · exact ih h
  | case3 cs ih =>
    rcases List.mem_cons.mp h with rfl | h
    · exact List.not_mem_nil
    · exact ih h
  | case4 c cs hc hreturn first others hcs ih =>
    rw [splitLines, hcs] at h
    · rw [hcs] at ih
      rcases List.mem_cons.mp h with rfl | h
      · intro hmem
        rcases List.mem_cons.mp hmem with heq | hmem
        · exact hc heq.symm
        · exact ih List.mem_cons_self hmem
      · exact ih (List.mem_cons_of_mem first h)
    · exact hc
    · exact hreturn
  | case5 c cs hc hreturn hcs ih =>
    rw [splitLines, hcs] at h
    · rw [List.mem_singleton.mp h]
      exact fun hmem => hc (List.mem_singleton.mp hmem).symm
    · exact hc
    · exact hreturn

/-- A line of a text has no newline in it. -/
theorem newline_not_mem_of_mem_lines {text line : String} (h : line ∈ lines text) :
    '\n' ∉ line.toList := by
  obtain ⟨cs, hcs, rfl⟩ := List.mem_map.mp h
  rw [String.toList_ofList]
  exact newline_not_mem_of_mem_splitLines hcs

end MixComputer.Text
