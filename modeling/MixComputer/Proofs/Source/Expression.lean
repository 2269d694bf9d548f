import MixComputer.Proofs.Source.Token
import MixComputer.Proofs.Text
import MixComputer.Source.Expression

/-!
Writing expressions. The decimal numeral of a number is read as the number, and the tokens of an
expression are read as the expression, up to the first token that cannot continue it.
-/
namespace MixComputer.Source

namespace Atom

/-- Numbers have 63 bits, and a symbol is a word that is no number. -/
def Proper : Atom → Prop
  | number n => n < 0x8000000000000000
  | symbol name =>
    (∀ c ∈ name.toList, c.isAlphanum = true) ∧ name.toList.all Char.isDigit = false
  | here => True

def token : Atom → Token
  | number n => .word (Nat.toDigits 10 n)
  | symbol name => .word name.toList
  | here => .mark '*'

theorem ofToken?_token {a : Atom} (h : a.Proper) : ofToken? a.token = some a := by
  cases a with
  | number n =>
    have hdigits : (Nat.toDigits 10 n).all Char.isDigit = true :=
      List.all_eq_true.mpr fun _ => Nat.isDigit_of_mem_toDigits (by omega) (by omega)
    have hlt : n < 0x8000000000000000 := h
    simp only [ofToken?, token, ofWord?, hdigits, if_true, Text.numeral_toDigits, hlt]
  | symbol name =>
    obtain ⟨-, hword⟩ := h
    simp only [ofToken?, token, ofWord?, hword, Bool.false_eq_true, if_false, String.ofList_toList]
  | here => rfl

end Atom

namespace Operator

def token : Operator → Token
  | add => .mark '+'
  | subtract => .mark '-'
  | multiply => .mark '*'
  | divide => .mark '/'
  | divideFraction => .doubleSlash
  | field => .mark ':'

theorem ofToken?_token (op : Operator) : ofToken? op.token = some op := by
  cases op <;> rfl

theorem noWord_token (op : Operator) (ts : List Token) : Token.NoWord (op.token :: ts) := by
  cases op <;> exact True.intro

end Operator

namespace Token

theorem apart_atom {a : Atom} (h : a.Proper) {ts : List Token} (hts : Apart ts)
    (hnext : NoWord ts) : Apart (a.token :: ts) := by
  cases a with
  | number n =>
    exact ⟨Nat.toDigits_ne_nil, fun _ => Text.isAlphanum_of_mem_toDigits, hnext, hts⟩
  | symbol name =>
    obtain ⟨hletters, hword⟩ := h
    refine ⟨?_, hletters, hnext, hts⟩
    intro hnil
    rw [hnil] at hword
    cases hword
  | here => exact apart_mark rfl (by simp) hts

/-- A word before the text of an atom is no slash. -/
theorem head?_atom {a : Atom} (h : a.Proper) (ts : List Token) :
    ((a.token :: ts).flatMap chars).head? ≠ some '/' := by
  have hword {letters : List Char} (hne : letters ≠ [])
      (hletters : ∀ c ∈ letters, c.isAlphanum = true) (ts : List Token) :
      ((word letters :: ts).flatMap chars).head? ≠ some '/' := by
    cases letters with
    | nil => exact absurd rfl hne
    | cons c letters =>
      intro hslash
      obtain rfl : c = '/' := Option.some.inj hslash
      exact absurd (hletters '/' List.mem_cons_self) (by decide)
  cases a with
  | number n =>
    exact hword Nat.toDigits_ne_nil (fun _ => Text.isAlphanum_of_mem_toDigits) ts
  | symbol name =>
    refine hword ?_ h.1 ts
    intro hnil
    have hdigits := h.2
    rw [hnil] at hdigits
    cases hdigits
  | here => exact fun hslash => absurd hslash (by simp [Atom.token, chars])

theorem apart_operator (op : Operator) {a : Atom} (h : a.Proper) {ts : List Token}
    (hts : Apart (a.token :: ts)) : Apart (op.token :: a.token :: ts) := by
  cases op with
  | divide => exact ⟨rfl, fun _ => head?_atom h ts, hts⟩
  | divideFraction => exact hts
  | add => exact apart_mark rfl (by simp) hts
  | subtract => exact apart_mark rfl (by simp) hts
  | multiply => exact apart_mark rfl (by simp) hts
  | field => exact apart_mark rfl (by simp) hts

theorem visible_atom {a : Atom} (h : a.Proper) : a.token.Visible := by
  cases a with
  | number n => exact visible_word fun _ => Text.isAlphanum_of_mem_toDigits
  | symbol name => exact visible_word h.1
  | here => exact visible_mark (by decide)

theorem visible_operator (op : Operator) : op.token.Visible := by
  cases op with
  | divideFraction =>
    intro c hc
    simp only [Operator.token, chars, List.mem_cons, List.not_mem_nil, or_false, or_self] at hc
    rw [hc]
    decide
  | add => exact visible_mark (by decide)
  | subtract => exact visible_mark (by decide)
  | multiply => exact visible_mark (by decide)
  | divide => exact visible_mark (by decide)
  | field => exact visible_mark (by decide)

end Token

namespace Expression

def Proper (e : Expression) : Prop := e.first.Proper ∧ ∀ o ∈ e.rest, o.2.Proper

theorem proper_number {n : Nat} (h : n < 0x8000000000000000) (negative : Bool) :
    Proper ⟨negative, .number n, []⟩ := ⟨h, fun _ ho => absurd ho List.not_mem_nil⟩

def operationTokens : List (Operator × Atom) → List Token → List Token
  | [], ts => ts
  | o :: operations, ts => o.1.token :: o.2.token :: operationTokens operations ts

def tokens (e : Expression) (ts : List Token) : List Token :=
  let unsigned := e.first.token :: operationTokens e.rest ts
  if e.negative then .mark '-' :: unsigned else unsigned

def Ends (ts : List Token) : Prop := ts.head?.bind Operator.ofToken? = none

theorem readOperations_of_ends {ts : List Token} (h : Ends ts) :
    readOperations ts = ([], ts) := by
  match ts with
  | [] => rw [readOperations]; simp
  | [t] => rw [readOperations]; simp
  | t :: u :: ts =>
    have ht : Operator.ofToken? t = none := h
    rw [readOperations]
    simp only [ht]

theorem readOperations_operationTokens {operations : List (Operator × Atom)}
    (hproper : ∀ o ∈ operations, o.2.Proper) {ts : List Token} (h : Ends ts) :
    readOperations (operationTokens operations ts) = (operations, ts) := by
  induction operations with
  | nil => exact readOperations_of_ends h
  | cons o operations ih =>
    have ho := hproper o List.mem_cons_self
    have hrest := ih fun o' ho' => hproper o' (List.mem_cons_of_mem o ho')
    rw [operationTokens, readOperations]
    simp only [Operator.ofToken?_token, Atom.ofToken?_token ho, hrest]

/-- The tokens of an expression are read as the expression. -/
theorem read?_tokens {e : Expression} (hproper : e.Proper) {ts : List Token} (h : Ends ts) :
    read? (e.tokens ts) = some (e, ts) := by
  obtain ⟨negative, first, operations⟩ := e
  obtain ⟨hfirst, hrest⟩ := hproper
  have hunsigned : readUnsigned? negative (first.token :: operationTokens operations ts) =
      some (⟨negative, first, operations⟩, ts) := by
    simp only [readUnsigned?, Atom.ofToken?_token hfirst,
      readOperations_operationTokens hrest h, Option.map_some]
  cases negative with
  | true => exact hunsigned
  | false =>
    rw [← hunsigned]
    cases first <;> rfl

theorem apart_operationTokens {operations : List (Operator × Atom)}
    (hproper : ∀ o ∈ operations, o.2.Proper) {ts : List Token} (hts : Token.Apart ts)
    (hnext : Token.NoWord ts) :
    Token.Apart (operationTokens operations ts) ∧
      Token.NoWord (operationTokens operations ts) := by
  induction operations with
  | nil => exact ⟨hts, hnext⟩
  | cons o operations ih =>
    have ho := hproper o List.mem_cons_self
    obtain ⟨hrest, hword⟩ := ih fun o' ho' => hproper o' (List.mem_cons_of_mem o ho')
    exact ⟨Token.apart_operator o.1 ho (Token.apart_atom ho hrest hword), o.1.noWord_token _⟩

theorem apart_tokens {e : Expression} (hproper : e.Proper) {ts : List Token}
    (hts : Token.Apart ts) (hnext : Token.NoWord ts) : Token.Apart (e.tokens ts) := by
  obtain ⟨hrest, hword⟩ := apart_operationTokens hproper.2 hts hnext
  have hunsigned := Token.apart_atom hproper.1 hrest hword
  unfold tokens
  cases e.negative with
  | true => exact Token.apart_mark rfl (by simp) hunsigned
  | false => exact hunsigned

section Visible

variable {ts : List Token} (hts : ∀ t ∈ ts, t.Visible)

include hts

theorem visible_operationTokens {operations : List (Operator × Atom)}
    (hproper : ∀ o ∈ operations, o.2.Proper) :
    ∀ t ∈ operationTokens operations ts, t.Visible := by
  induction operations with
  | nil => exact hts
  | cons o operations ih =>
    have hrest := ih fun o' ho' => hproper o' (List.mem_cons_of_mem o ho')
    intro t ht
    simp only [operationTokens, List.mem_cons] at ht
    rcases ht with rfl | rfl | ht
    · exact Token.visible_operator o.1
    · exact Token.visible_atom (hproper o List.mem_cons_self)
    · exact hrest t ht

/-- There is no blank in an expression. -/
theorem visible_tokens {e : Expression} (hproper : e.Proper) :
    ∀ t ∈ e.tokens ts, t.Visible := by
  have hunsigned : ∀ t ∈ e.first.token :: operationTokens e.rest ts, t.Visible := by
    intro t ht
    rcases List.mem_cons.mp ht with rfl | ht
    · exact Token.visible_atom hproper.1
    · exact visible_operationTokens hts hproper.2 t ht
  unfold tokens
  cases e.negative with
  | false => exact hunsigned
  | true =>
    intro t ht
    rcases List.mem_cons.mp ht with rfl | ht
    · exact Token.visible_mark (by decide)
    · exact hunsigned t ht

end Visible

end Expression

end MixComputer.Source
