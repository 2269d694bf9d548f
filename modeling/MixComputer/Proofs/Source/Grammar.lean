import MixComputer.Proofs.Source.Operand
import MixComputer.Proofs.Source.Symbol
import Mathlib.Data.List.Induction

/-!
The grammar of operands, over characters and with no order in which anything is tried. A text is an
operand if it is put together in this way:

    operand    := a-part [ "," expression ] [ "(" expression ")" ]
    a-part     := "=" w-value "=" | expression | nothing
    w-value    := expression [ "(" expression ")" ] { "," expression [ "(" expression ")" ] }
    expression := [ "+" | "-" ] atom { operator atom }
    operator   := "+" | "-" | "*" | "/" | "//" | ":"
    atom       := number | symbol | "*"

Numbers and symbols are runs of letters and digits, and a run without a letter is a number. No
letter or digit can come after a run, so runs are as long as possible. Whatever can be said in the
grammar has a form of its own, the text of its tokens.
-/
namespace MixComputer.Source

/-- The texts of an atom. A number may have zeros in front. -/
inductive Atom.WrittenAs : Atom → List Char → Prop
  | number {digits : List Char} (hne : digits ≠ []) (hdigits : ∀ c ∈ digits, c.isDigit = true) :
      WrittenAs (.number (Text.numeral digits)) digits
  | symbol {name : String} (hname : IsName name) : WrittenAs (.symbol name) name.toList
  | here : WrittenAs .here ['*']

namespace Expression

inductive SignWrittenAs : (negative : Bool) → List Char → Prop
  | missing : SignWrittenAs false []
  | plus : SignWrittenAs false ['+']
  | minus : SignWrittenAs true ['-']

inductive OperationsWrittenAs : List (Operator × Atom) → List Char → Prop
  | none : OperationsWrittenAs [] []
  | more {op : Operator} {a : Atom} {operations : List (Operator × Atom)} {cs ds : List Char}
      (ha : a.WrittenAs cs) (hmore : OperationsWrittenAs operations ds) :
      OperationsWrittenAs ((op, a) :: operations) (op.text.toList ++ (cs ++ ds))

inductive WrittenAs : Expression → List Char → Prop
  | mk {negative : Bool} {first : Atom} {operations : List (Operator × Atom)}
      {cs ds es : List Char} (hsign : SignWrittenAs negative cs) (hfirst : first.WrittenAs ds)
      (hrest : OperationsWrittenAs operations es) :
      WrittenAs ⟨negative, first, operations⟩ (cs ++ (ds ++ es))

end Expression

inductive FieldWrittenAs : Option Expression → List Char → Prop
  | missing : FieldWrittenAs none []
  | given {e : Expression} {cs : List Char} (he : e.WrittenAs cs) :
      FieldWrittenAs (some e) ('(' :: (cs ++ [')']))

inductive IndexWrittenAs : Option Expression → List Char → Prop
  | missing : IndexWrittenAs none []
  | given {e : Expression} {cs : List Char} (he : e.WrittenAs cs) :
      IndexWrittenAs (some e) (',' :: cs)

inductive WPart.WrittenAs : WPart → List Char → Prop
  | mk {value : Expression} {field : Option Expression} {cs ds : List Char}
      (hvalue : value.WrittenAs cs) (hfield : FieldWrittenAs field ds) :
      WrittenAs ⟨value, field⟩ (cs ++ ds)

inductive WValue.WrittenAs : WValue → List Char → Prop
  | one {p : WPart} {cs : List Char} (hp : p.WrittenAs cs) : WrittenAs [p] cs
  | more {p : WPart} {w : WValue} {cs ds : List Char} (hp : p.WrittenAs cs)
      (hw : WrittenAs w ds) : WrittenAs (p :: w) (cs ++ ',' :: ds)

inductive AddressPart.WrittenAs : AddressPart → List Char → Prop
  | empty : WrittenAs .empty []
  | expression {e : Expression} {cs : List Char} (he : e.WrittenAs cs) :
      WrittenAs (.expression e) cs
  | literal {w : WValue} {cs : List Char} (hw : w.WrittenAs cs) :
      WrittenAs (.literal w) ('=' :: (cs ++ ['=']))

inductive Operand.WrittenAs : Operand → List Char → Prop
  | mk {address : AddressPart} {index field : Option Expression} {cs ds es : List Char}
      (haddress : address.WrittenAs cs) (hindex : IndexWrittenAs index ds)
      (hfield : FieldWrittenAs field es) : WrittenAs ⟨address, index, field⟩ (cs ++ (ds ++ es))

def WValue.StandsAlone (w : WValue) (cs : List Char) : Prop := w = [] ∧ cs = [] ∨ w.WrittenAs cs

section Characters

variable {cs : List Char}

theorem Atom.ne_nil_of_writtenAs {a : Atom} (h : a.WrittenAs cs) : cs ≠ [] := by
  cases h with
  | number hne => exact hne
  | symbol hname =>
    obtain ⟨-, c, hc, -⟩ := hname
    exact List.ne_nil_of_mem hc
  | here => exact List.cons_ne_nil _ _

theorem Atom.mem_writtenAs {a : Atom} (h : a.WrittenAs cs) :
    ∀ c ∈ cs, c.isAlphanum = true ∨ c = '*' := by
  cases h with
  | number _ hdigits => exact fun c hc => .inl (Text.isAlphanum_of_isDigit (hdigits c hc))
  | symbol hname => exact fun c hc => .inl (hname.1 c hc)
  | here => exact fun c hc => .inr (List.mem_singleton.mp hc)

theorem Atom.head?_ne_slash {a : Atom} (h : a.WrittenAs cs) (ds : List Char) :
    (cs ++ ds).head? ≠ some '/' := by
  have hmem := Atom.mem_writtenAs h
  cases cs with
  | nil => exact absurd rfl (Atom.ne_nil_of_writtenAs h)
  | cons c cs =>
    intro hslash
    obtain rfl : c = '/' := Option.some.inj hslash
    exact absurd (hmem '/' List.mem_cons_self) (by decide)

theorem Expression.ne_nil_of_writtenAs {e : Expression} (h : e.WrittenAs cs) : cs ≠ [] := by
  obtain ⟨-, hfirst, -⟩ := h
  exact List.append_ne_nil_of_right_ne_nil _
    (List.append_ne_nil_of_left_ne_nil (Atom.ne_nil_of_writtenAs hfirst) _)

theorem WValue.ne_nil_of_writtenAs {w : WValue} (h : w.WrittenAs cs) : cs ≠ [] := by
  have hpart {p : WPart} {cs : List Char} (hp : p.WrittenAs cs) : cs ≠ [] := by
    obtain ⟨hvalue, -⟩ := hp
    exact List.append_ne_nil_of_left_ne_nil (Expression.ne_nil_of_writtenAs hvalue) _
  cases h with
  | one hp => exact hpart hp
  | more hp _ => exact List.append_ne_nil_of_left_ne_nil (hpart hp) _

def Inner (c : Char) : Prop := c ≠ ',' ∧ c ≠ '='

instance : DecidablePred Inner := fun c => inferInstanceAs (Decidable (c ≠ ',' ∧ c ≠ '='))

theorem inner_of_all (h : cs.all (fun c => decide (Inner c)) = true) : ∀ c ∈ cs, Inner c :=
  fun c hc => of_decide_eq_true (List.all_eq_true.mp h c hc)

theorem Atom.inner_of_writtenAs {a : Atom} (h : a.WrittenAs cs) : ∀ c ∈ cs, Inner c := by
  intro c hc
  obtain hletter | rfl := Atom.mem_writtenAs h c hc
  · constructor
    · rintro rfl
      exact absurd hletter (by decide)
    · rintro rfl
      exact absurd hletter (by decide)
  · exact ⟨by decide, by decide⟩

namespace Expression

theorem inner_of_operationsWrittenAs {operations : List (Operator × Atom)}
    (h : OperationsWrittenAs operations cs) : ∀ c ∈ cs, Inner c := by
  induction h with
  | none => exact fun c hc => absurd hc List.not_mem_nil
  | @more op a operations cs ds ha hmore ih =>
    have hop : ∀ c ∈ op.text.toList, Inner c := inner_of_all (by cases op <;> decide)
    simp only [List.forall_mem_append]
    exact ⟨hop, Atom.inner_of_writtenAs ha, ih⟩

theorem inner_of_writtenAs {e : Expression} (h : e.WrittenAs cs) : ∀ c ∈ cs, Inner c := by
  obtain ⟨hsign, hfirst, hrest⟩ := h
  simp only [List.forall_mem_append]
  refine ⟨?_, Atom.inner_of_writtenAs hfirst, inner_of_operationsWrittenAs hrest⟩
  exact inner_of_all (by cases hsign <;> decide)

end Expression

theorem WPart.inner_of_writtenAs {p : WPart} (h : p.WrittenAs cs) : ∀ c ∈ cs, Inner c := by
  obtain ⟨hvalue, hfield⟩ := h
  refine List.forall_mem_append.mpr ⟨Expression.inner_of_writtenAs hvalue, ?_⟩
  cases hfield with
  | missing => exact fun c hc => absurd hc List.not_mem_nil
  | given he =>
    have hinner := Expression.inner_of_writtenAs he
    refine List.forall_mem_cons.mpr ⟨⟨by decide, by decide⟩, ?_⟩
    refine List.forall_mem_append.mpr ⟨hinner, List.forall_mem_singleton.mpr ?_⟩
    exact ⟨by decide, by decide⟩

/-- There is no equals sign in a value. -/
theorem WValue.ne_equals_of_writtenAs {w : WValue} (h : w.WrittenAs cs) : '=' ∉ cs := by
  induction h with
  | one hp => exact fun hmem => (WPart.inner_of_writtenAs hp '=' hmem).2 rfl
  | more hp _ ih =>
    intro hmem
    obtain hmem | hmem := List.mem_append.mp hmem
    · exact (WPart.inner_of_writtenAs hp '=' hmem).2 rfl
    · exact ih (List.mem_of_ne_of_mem (by decide) hmem)

end Characters

section Runs

/-- A run of letters and digits in a text that is as long as possible. -/
structure IsRun (cs run : List Char) (before after : List Char) : Prop where
  eq : cs = before ++ (run ++ after)
  nonempty : run ≠ []
  letters : ∀ c ∈ run, c.isAlphanum = true
  left : ∀ c ∈ before.getLast?, c.isAlphanum = false
  right : ∀ c ∈ after.head?, c.isAlphanum = false

/-- All runs that have no letter stand for numbers of 63 bits. -/
def SmallNumbers (cs : List Char) : Prop :=
  ∀ run before after, IsRun cs run before after → (∀ c ∈ run, c.isDigit = true) →
    Text.numeral run < 0x8000000000000000

variable {cs : List Char}

theorem numeral_lt_of_digits (hdigits : ∀ c ∈ cs, c.isDigit = true) :
    Text.numeral cs < Nat.pow 10 cs.length := by
  induction cs using List.reverseRecOn with
  | nil => decide
  | append_singleton cs c ih =>
    obtain ⟨hcs, hc⟩ := List.forall_mem_append.mp hdigits
    have hbefore := ih hcs
    have hdigit : 48 ≤ c.toNat ∧ c.toNat ≤ 57 :=
      Char.isDigit_iff_toNat.mp (hc c List.mem_cons_self)
    have hvalue : Text.digitValue c ≤ 9 := by
      change c.toNat - 48 ≤ 9
      omega
    have hnumeral : Text.numeral (cs ++ [c]) = 10 * Text.numeral cs + Text.digitValue c :=
      List.foldl_append
    have hpower : Nat.pow 10 (cs.length + 1) = Nat.pow 10 cs.length * 10 := rfl
    rw [hnumeral, List.length_append, List.length_singleton, hpower]
    omega

/-- There are no large numbers in a short text. -/
theorem smallNumbers_of_length_le (h : cs.length ≤ 18) : SmallNumbers cs := by
  intro run before after hrun hdigits
  have hlength : run.length ≤ 18 := by
    rw [hrun.eq, List.length_append, List.length_append] at h
    omega
  have hlt := numeral_lt_of_digits hdigits
  have hbound : Nat.pow 10 run.length ≤ Nat.pow 10 18 :=
    Nat.pow_le_pow_right (by decide) hlength
  exact Nat.lt_of_lt_of_le hlt (Nat.le_trans hbound (by decide))

end Runs

section Written

variable {ts : List Token}

def WPart.Proper (p : WPart) : Prop := p.value.Proper ∧ ∀ e ∈ p.field, e.Proper

def AddressPart.Proper : AddressPart → Prop
  | .empty => True
  | .expression e => e.Proper
  | .literal w => w ≠ [] ∧ ∀ p ∈ w, p.Proper

def Operand.Proper (o : Operand) : Prop :=
  o.address.Proper ∧ (∀ e ∈ o.index, e.Proper) ∧ ∀ e ∈ o.field, e.Proper

def WPart.tokens (p : WPart) (ts : List Token) : List Token :=
  p.value.tokens (fieldTokens p.field ++ ts)

def WValue.tokens : WValue → List Token → List Token
  | [], ts => ts
  | [p], ts => p.tokens ts
  | p :: q :: w, ts => p.tokens (.mark ',' :: WValue.tokens (q :: w) ts)

def AddressPart.tokens : AddressPart → List Token → List Token
  | .empty, ts => ts
  | .expression e, ts => e.tokens ts
  | .literal w, ts => .mark '=' :: w.tokens (.mark '=' :: ts)

def Operand.tokens (o : Operand) : List Token :=
  o.address.tokens (indexTokens o.index (fieldTokens o.field))

theorem Atom.writtenAs_token {a : Atom} (h : a.Proper) : a.WrittenAs a.token.chars := by
  cases a with
  | number n =>
    have hdigits : ∀ c ∈ Nat.toDigits 10 n, c.isDigit = true :=
      fun _ => Nat.isDigit_of_mem_toDigits (by omega) (by omega)
    have hwritten := WrittenAs.number Nat.toDigits_ne_nil hdigits
    rwa [Text.numeral_toDigits] at hwritten
  | symbol name =>
    obtain ⟨hletters, hword⟩ := h
    obtain ⟨c, hc, hdigit⟩ := List.all_eq_false.mp hword
    exact .symbol ⟨hletters, c, hc,
      isAlpha_of_not_isDigit (hletters c hc) (Bool.eq_false_iff.mpr hdigit)⟩
  | here => exact .here

theorem Operator.chars_token (op : Operator) : op.token.chars = op.text.toList := by
  cases op <;> decide

namespace Expression

theorem writtenAs_operationTokens {operations : List (Operator × Atom)}
    (h : ∀ o ∈ operations, o.2.Proper) (ts : List Token) :
    ∃ cs, (operationTokens operations ts).flatMap Token.chars = cs ++ ts.flatMap Token.chars ∧
      OperationsWrittenAs operations cs := by
  induction operations with
  | nil => exact ⟨[], rfl, .none⟩
  | cons o operations ih =>
    obtain ⟨cs, heq, hmore⟩ := ih fun o' ho' => h o' (List.mem_cons_of_mem o ho')
    refine ⟨_, ?_, .more (Atom.writtenAs_token (h o List.mem_cons_self)) hmore⟩
    rw [operationTokens, List.flatMap_cons, List.flatMap_cons, heq, Operator.chars_token]
    simp only [List.append_assoc]

theorem writtenAs_tokens {e : Expression} (h : e.Proper) (ts : List Token) :
    ∃ cs, (e.tokens ts).flatMap Token.chars = cs ++ ts.flatMap Token.chars ∧ e.WrittenAs cs := by
  obtain ⟨negative, first, operations⟩ := e
  obtain ⟨cs, heq, hrest⟩ := writtenAs_operationTokens h.2 ts
  have hfirst := Atom.writtenAs_token h.1
  cases negative with
  | false =>
    refine ⟨_, ?_, .mk .missing hfirst hrest⟩
    simp only [tokens, Bool.false_eq_true, if_false, List.flatMap_cons, heq, List.nil_append,
      List.append_assoc]
  | true =>
    refine ⟨_, ?_, .mk .minus hfirst hrest⟩
    simp only [tokens, if_true, List.flatMap_cons, heq, Token.chars, List.append_assoc]

end Expression

theorem fieldWrittenAs_tokens {field : Option Expression} (h : ∀ e ∈ field, e.Proper) :
    FieldWrittenAs field ((fieldTokens field).flatMap Token.chars) := by
  cases field with
  | none => exact .missing
  | some e =>
    obtain ⟨cs, heq, he⟩ := Expression.writtenAs_tokens (h e rfl) [.mark ')']
    rw [fieldTokens, List.flatMap_cons, heq]
    exact .given he

theorem indexWrittenAs_tokens {index : Option Expression} (h : ∀ e ∈ index, e.Proper)
    (ts : List Token) :
    ∃ cs, (indexTokens index ts).flatMap Token.chars = cs ++ ts.flatMap Token.chars ∧
      IndexWrittenAs index cs := by
  cases index with
  | none => exact ⟨[], rfl, .missing⟩
  | some e =>
    obtain ⟨cs, heq, he⟩ := Expression.writtenAs_tokens (h e rfl) ts
    refine ⟨',' :: cs, ?_, .given he⟩
    rw [indexTokens, List.flatMap_cons, heq]
    rfl

theorem WPart.writtenAs_tokens {p : WPart} (h : p.Proper) (ts : List Token) :
    ∃ cs, (p.tokens ts).flatMap Token.chars = cs ++ ts.flatMap Token.chars ∧ p.WrittenAs cs := by
  obtain ⟨cs, heq, hvalue⟩ := Expression.writtenAs_tokens h.1 (fieldTokens p.field ++ ts)
  refine ⟨_, ?_, .mk hvalue (fieldWrittenAs_tokens h.2)⟩
  rw [WPart.tokens, heq, List.flatMap_append, List.append_assoc]

theorem WValue.writtenAs_tokens {w : WValue} (hne : w ≠ []) (h : ∀ p ∈ w, p.Proper)
    (ts : List Token) :
    ∃ cs, (w.tokens ts).flatMap Token.chars = cs ++ ts.flatMap Token.chars ∧ w.WrittenAs cs := by
  induction w with
  | nil => exact absurd rfl hne
  | cons p w ih =>
    have hp := h p List.mem_cons_self
    cases w with
    | nil =>
      obtain ⟨cs, heq, hwritten⟩ := WPart.writtenAs_tokens hp ts
      exact ⟨cs, heq, .one hwritten⟩
    | cons q w =>
      obtain ⟨ds, heq', hmore⟩ :=
        ih (List.cons_ne_nil q w) fun p' hp' => h p' (List.mem_cons_of_mem p hp')
      obtain ⟨cs, heq, hwritten⟩ :=
        WPart.writtenAs_tokens hp (.mark ',' :: WValue.tokens (q :: w) ts)
      refine ⟨cs ++ ',' :: ds, ?_, .more hwritten hmore⟩
      rw [WValue.tokens, heq, List.flatMap_cons, heq', List.append_assoc]
      rfl

theorem AddressPart.writtenAs_tokens {address : AddressPart} (h : address.Proper)
    (ts : List Token) :
    ∃ cs, (address.tokens ts).flatMap Token.chars = cs ++ ts.flatMap Token.chars ∧
      address.WrittenAs cs := by
  cases address with
  | empty => exact ⟨[], rfl, .empty⟩
  | expression e =>
    obtain ⟨cs, heq, he⟩ := Expression.writtenAs_tokens h ts
    exact ⟨cs, heq, .expression he⟩
  | literal w =>
    obtain ⟨cs, heq, hw⟩ := WValue.writtenAs_tokens h.1 h.2 (.mark '=' :: ts)
    refine ⟨'=' :: (cs ++ ['=']), ?_, .literal hw⟩
    rw [AddressPart.tokens, List.flatMap_cons, heq, List.flatMap_cons]
    simp only [Token.chars, List.cons_append, List.nil_append, List.append_assoc]

/-- Every operand has a text. -/
theorem Operand.writtenAs_tokens {o : Operand} (h : o.Proper) :
    o.WrittenAs (o.tokens.flatMap Token.chars) := by
  obtain ⟨address, index, field⟩ := o
  obtain ⟨haddress, hindex, hfield⟩ := h
  obtain ⟨ds, heq', hindex⟩ := indexWrittenAs_tokens hindex (fieldTokens field)
  obtain ⟨cs, heq, haddress⟩ :=
    AddressPart.writtenAs_tokens haddress (indexTokens index (fieldTokens field))
  rw [Operand.tokens, heq, heq']
  exact .mk haddress hindex (fieldWrittenAs_tokens hfield)

end Written

end MixComputer.Source
