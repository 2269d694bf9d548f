import MixComputer.Assembly.Reading
import MixComputer.Proofs.Source.Soundness

/-!
Reading and the grammar. If all runs of digits in a text are numbers of 63 bits, then what is read
from it is what the grammar says and nothing else, and the grammar says one thing at most.
-/
namespace MixComputer.Source

open Token (ofChars)

section Texts

variable {cs letters : List Char}

theorem isRun_of_word_mem (h : .word letters ∈ ofChars cs) :
    ∃ before after, IsRun cs letters before after := by
  obtain ⟨ts, us, heq⟩ := List.append_of_mem h
  have hapart := Token.apart_ofChars cs
  rw [heq] at hapart
  obtain ⟨hne, hletters, hnext, hus⟩ := hapart.of_append
  have htext := Token.flatMap_chars_ofChars cs
  rw [heq, List.flatMap_append, List.flatMap_cons] at htext
  refine ⟨_, _, htext.symm, hne, hletters, ?_, ?_⟩
  · obtain rfl | ⟨ts, t, rfl⟩ := ts.eq_nil_or_concat
    · exact fun c hc => absurd hc (Option.not_mem_none c)
    · rw [List.concat_eq_append] at hapart ⊢
      rw [List.append_assoc] at hapart
      have hlast := hapart.of_append
      rw [List.flatMap_append, List.flatMap_singleton, List.getLast?_append]
      intro c hc
      cases t with
      -- Two words side by side would have been one.
      | word _ => exact absurd hlast.2.2.1 id
      | doubleSlash =>
        cases hc
        rfl
      | mark _ =>
        cases hc
        exact hlast.1
  · intro c hc
    match us with
    | [] => cases hc
    | .word _ :: us => exact absurd hnext id
    | .doubleSlash :: us =>
      cases hc
      rfl
    | .mark _ :: us =>
      cases hc
      exact hus.1

theorem small_of_smallNumbers (h : SmallNumbers cs) : ∀ t ∈ ofChars cs, t.Small := by
  intro t ht
  cases t with
  | word letters =>
    obtain ⟨before, after, hrun⟩ := isRun_of_word_mem ht
    exact h letters before after hrun
  | doubleSlash | mark _ => exact True.intro

theorem WValue.ofChars?_of_standsAlone {w : WValue} (h : w.StandsAlone cs)
    (hproper : ∀ p ∈ w, p.Proper) : WValue.ofChars? cs = some w := by
  obtain ⟨rfl, rfl⟩ | hw := h
  · rfl
  · have hne : cs.isEmpty = false := List.isEmpty_eq_false_iff.mpr (WValue.ne_nil_of_writtenAs hw)
    rw [WValue.ofChars?, hne]
    exact (WValue.legible hw).read hproper

theorem WValue.standsAlone_of_ofChars? {w : WValue} (h : WValue.ofChars? cs = some w) :
    w.StandsAlone cs := by
  unfold WValue.ofChars? at h
  split at h
  · rename_i hempty
    cases h
    exact .inl ⟨rfl, List.isEmpty_iff.mp hempty⟩
  · have hw := WValue.writtenAs_of_ofTokens? (fun t ht => ht) h
    rw [Token.flatMap_chars_ofChars] at hw
    exact .inr hw

theorem WValue.ofChars?_iff (h : SmallNumbers cs) (w : WValue) :
    WValue.ofChars? cs = some w ↔ w.StandsAlone cs := by
  refine ⟨WValue.standsAlone_of_ofChars?, fun hw => WValue.ofChars?_of_standsAlone hw ?_⟩
  obtain ⟨rfl, -⟩ | hw := hw
  · exact fun p hp => absurd hp List.not_mem_nil
  · exact (WValue.legible hw).proper (small_of_smallNumbers h)

theorem Operand.ofChars?_iff (h : SmallNumbers cs) (o : Operand) :
    Operand.ofChars? cs = some o ↔ o.WrittenAs cs := by
  constructor
  · intro hread
    have ho := Operand.writtenAs_of_ofTokens? (fun t ht => ht) hread
    rwa [Token.flatMap_chars_ofChars] at ho
  · intro ho
    have hlegible := Operand.legible ho
    exact hlegible.read (hlegible.proper (small_of_smallNumbers h))

end Texts

end MixComputer.Source

namespace MixComputer.Assembly

open Source

theorem readOperand_eq_ok_iff (text : String) (o : Operand) :
    readOperand text = .ok o ↔ Operand.ofChars? text.toList = some o := by
  unfold readOperand
  split <;> simp_all

theorem readWValue_eq_ok_iff (text : String) (w : WValue) :
    readWValue text = .ok w ↔ WValue.ofChars? text.toList = some w := by
  unfold readWValue
  split <;> simp_all

/-- What is read is what the grammar says, and nothing else. A text without large numbers is read
as an operand, or as a value, if and only if it is written as one, and it is written as one only.
In particular each operand and each value is read from the text of its tokens. -/
theorem reads_grammar :
    (∀ text : String, SmallNumbers text.toList →
      (∀ o, readOperand text = .ok o ↔ o.WrittenAs text.toList) ∧
      (∀ o o' : Operand, o.WrittenAs text.toList → o'.WrittenAs text.toList → o = o') ∧
      (∀ w, readWValue text = .ok w ↔ w.StandsAlone text.toList) ∧
      ∀ w w' : WValue, w.StandsAlone text.toList → w'.StandsAlone text.toList → w = w') ∧
    (∀ o : Operand, o.Proper → readOperand (Token.text o.tokens) = .ok o) ∧
    ∀ w : WValue, (∀ p ∈ w, p.Proper) → readWValue (Token.text (w.tokens [])) = .ok w := by
  refine ⟨fun text hsmall => ?_, fun o ho => ?_, fun w hw => ?_⟩
  · have hoperand := Operand.ofChars?_iff hsmall
    have hvalue := WValue.ofChars?_iff hsmall
    refine ⟨fun o => (readOperand_eq_ok_iff text o).trans (hoperand o), fun o o' ho ho' => ?_,
      fun w => (readWValue_eq_ok_iff text w).trans (hvalue w), fun w w' hw hw' => ?_⟩
    · exact Option.some.inj (((hoperand o).mpr ho).symm.trans ((hoperand o').mpr ho'))
    · exact Option.some.inj (((hvalue w).mpr hw).symm.trans ((hvalue w').mpr hw'))
  · rw [readOperand_eq_ok_iff, Token.text, String.toList_ofList]
    exact (Operand.legible (Operand.writtenAs_tokens ho)).read ho
  · rw [readWValue_eq_ok_iff, Token.text, String.toList_ofList]
    refine WValue.ofChars?_of_standsAlone ?_ hw
    by_cases hempty : w = []
    · subst hempty
      exact .inl ⟨rfl, rfl⟩
    · obtain ⟨cs, heq, hwritten⟩ := WValue.writtenAs_tokens hempty hw []
      rw [heq, List.flatMap_nil, List.append_nil]
      exact .inr hwritten

def twoParts : WValue :=
  [⟨⟨false, .number 1, [(.multiply, .here)]⟩, none⟩,
    ⟨⟨true, .symbol "L", []⟩, some ⟨false, .number 4, []⟩⟩]

def twoPartLiteral : Operand :=
  ⟨.literal twoParts, some ⟨false, .number 2, []⟩, some ⟨false, .number 3, []⟩⟩

theorem proper_twoParts : ∀ p ∈ twoParts, p.Proper := by
  simp [twoParts, WPart.Proper, Expression.Proper, Atom.Proper]

theorem proper_twoPartLiteral : twoPartLiteral.Proper := by
  refine ⟨⟨List.cons_ne_nil _ _, proper_twoParts⟩, ?_, ?_⟩ <;>
    simp [twoPartLiteral, Expression.Proper, Atom.Proper]

/-- The literal with leading zeros and a sign that could be missing, and the text of its tokens. -/
theorem reads_grammar_literal :
    SmallNumbers "=+01**,-L(4)=,2(3)".toList ∧
      twoPartLiteral.WrittenAs "=+01**,-L(4)=,2(3)".toList ∧
      Token.text twoPartLiteral.tokens = "=1**,-L(4)=,2(3)" ∧
      readOperand "=1**,-L(4)=,2(3)" = .ok twoPartLiteral ∧
      Token.text (twoParts.tokens []) = "1**,-L(4)" ∧
      readWValue "1**,-L(4)" = .ok twoParts := by
  obtain ⟨hreads, hoperands, hvalues⟩ := reads_grammar
  have hsmall : SmallNumbers "=+01**,-L(4)=,2(3)".toList :=
    smallNumbers_of_length_le (by decide +kernel)
  have hread : readOperand "=+01**,-L(4)=,2(3)" = .ok twoPartLiteral :=
    (readOperand_eq_ok_iff _ _).mpr (by decide +kernel)
  have hoperand : Token.text twoPartLiteral.tokens = "=1**,-L(4)=,2(3)" := by decide +kernel
  have hvalue : Token.text (twoParts.tokens []) = "1**,-L(4)" := by decide +kernel
  refine ⟨hsmall, ((hreads _ hsmall).1 _).mp hread, hoperand, ?_, hvalue, ?_⟩
  · rw [← hoperand]
    exact hoperands _ proper_twoPartLiteral
  · rw [← hvalue]
    exact hvalues _ proper_twoParts

end MixComputer.Assembly
