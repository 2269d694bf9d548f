import MixComputer.Proofs.Arithmetic
import MixComputer.Proofs.Assembly.Evaluation
import MixComputer.Proofs.Machine.Operand

/-!
Expressions and the machine. An operator of an expression means what an operation of the machine
does with a word of memory, once rA and rX are loaded with the value on its left. The expression
has a value if the machine says that its result is exact, and then a register holds that value;
and the expression is refused if the machine says that it is not.
-/
namespace MixComputer

open Source Assembly

namespace Source

def Expression.followedBy (e : Expression) (op : Operator) (right : Atom) : Expression :=
  { e with rest := e.rest ++ [(op, right)] }

namespace Operator

/-- The operation of the machine that does what an operator means. There is none for `:`. -/
def operation? : Operator → Option Operation
  | add => some .add
  | subtract => some .sub
  | multiply => some .mul
  | divide => some .div
  | divideFraction => some .div
  | field => none

/-- Registers that are ready for an operation on `a`. The dividend of a quotient of whole numbers
is in rX, below a zero in rA that has its sign. -/
def Loaded (op : Operator) (a : Int) (s : Registers) : Prop :=
  match op with
  | multiply => s.a.value = a
  | divide => s.overflow = false ∧ s.a.isZero = true ∧ (a ≠ 0 → s.a.negative = decide (a < 0)) ∧
      s.x.value = a.natAbs
  | divideFraction => s.overflow = false ∧ s.a.value = a ∧ s.x.isZero = true
  | _ => s.overflow = false ∧ s.a.value = a

/-- Whether the result is exact: a product is in rX alone, and all else has not overflowed. -/
def Exact (op : Operator) (s : Registers) : Prop :=
  match op with
  | multiply => s.a.isZero = true
  | _ => s.overflow = false

def result (op : Operator) (s : Registers) : Word :=
  match op with
  | multiply => s.x
  | _ => s.a

def Refuses (op : Operator) (error : Error) : Prop :=
  (∃ v, error = .outOfRange .expression v) ∨
    (op = divide ∨ op = divideFraction) ∧ error = .divisionByZero

structure Agrees (op : Operator) (outcome : Except Error Int) (s : Registers) : Prop where
  value : ∀ v, outcome = .ok v ↔ op.Exact s ∧ (op.result s).value = v
  refusal : (∃ error, op.Refuses error ∧ outcome = .error error) ↔ ¬ op.Exact s

variable {op : Operator} {a b x : Int} {s : Registers}

/-- An exact result is one that fits into a word. -/
theorem agrees_of_result (hx : exactResult? op a b = some x) (hexact : op.Exact s ↔ Word.Fits x)
    (hvalue : Word.Fits x → (op.result s).value = x) : op.Agrees (apply op a b) s := by
  have happly : apply op a b = checkRange .expression x := by
    simp only [apply, hx]
  rw [happly]
  by_cases hfits : Word.Fits x
  · have hchecked : checkRange .expression x = .ok x := if_pos hfits
    have hexact' : op.Exact s := hexact.mpr hfits
    rw [hchecked]
    refine ⟨fun v => ?_, ?_⟩
    · rw [hvalue hfits, Except.ok.injEq]
      exact (and_iff_right hexact').symm
    · simp [hexact']
  · have hchecked : checkRange .expression x = .error (.outOfRange .expression x) := if_neg hfits
    have hnot : ¬ op.Exact s := mt hexact.mp hfits
    rw [hchecked]
    refine ⟨fun v => ?_, ?_⟩
    · simp [hnot]
    · exact iff_of_true ⟨_, .inl ⟨x, rfl⟩, rfl⟩ hnot

/-- Nor is there a result if the divisor is zero. -/
theorem agrees_of_zero (hdivision : op = divide ∨ op = divideFraction) (hnot : ¬ op.Exact s) :
    op.Agrees (apply op a 0) s := by
  have happly : apply op a 0 = .error .divisionByZero := by
    obtain rfl | rfl := hdivision <;> rfl
  rw [happly]
  refine ⟨fun v => ?_, ?_⟩
  · simp [hnot]
  · exact iff_of_true ⟨_, .inr ⟨hdivision, rfl⟩, rfl⟩ hnot

end Operator

end Source

namespace Assembly.Scope

theorem continueFrom_append (s : Scope) (v : Int) (operations others : List (Operator × Atom)) :
    s.continueFrom v (operations ++ others) =
      s.continueFrom v operations >>= fun w => s.continueFrom w others := by
  induction operations generalizing v with
  | nil => rfl
  | cons o operations ih =>
    rw [List.cons_append, continueFrom, continueFrom]
    cases s.atom o.2 with
    | error error => rfl
    | ok b =>
      change (apply o.1 v b >>= fun v => s.continueFrom v (operations ++ others)) =
        (apply o.1 v b >>= fun v => s.continueFrom v operations) >>= _
      cases apply o.1 v b with
      | error error => rfl
      | ok w => exact ih w

/-- The last operator of an expression applies to the value of all that is before it. -/
theorem evaluate_followedBy (s : Scope) {e : Expression} {op : Operator} {right : Atom} {a b : Int}
    (he : s.evaluate e = .ok a) (hright : s.atom right = .ok b) :
    s.evaluate (e.followedBy op right) = apply op a b := by
  obtain ⟨first, hfirst, hrest⟩ := (bind_eq_ok_iff _ _ _).mp he
  rw [evaluate, Expression.followedBy, hfirst]
  change s.continueFrom _ (e.rest ++ [(op, right)]) = _
  rw [continueFrom_append, hrest]
  change s.continueFrom a [(op, right)] = _
  rw [continueFrom, hright]
  change (apply op a b >>= fun v => s.continueFrom v []) = _
  cases apply op a b <;> rfl

end Assembly.Scope

namespace Machine

variable {σ : Type} {m : Machine σ} {op : Operator} {operation : Operation} {a : Int} {v : Word}

section Operations

/-- The sum of rA and a number. -/
theorem agrees_addTo {n b : Int} (hop : op = .add ∧ n = b ∨ op = .subtract ∧ n = -b)
    (hload : op.Loaded a m.registers) :
    op.Agrees (apply op a b) (m.addTo .a n).registers := by
  have hloaded : m.registers.overflow = false ∧ m.registers.a.value = a := by
    obtain ⟨rfl, -⟩ | ⟨rfl, -⟩ := hop <;> exact hload
  obtain ⟨hoff, hvalue⟩ := hloaded
  have hsum : exactResult? op a b = some (m.registers.a.value + n) := by
    obtain ⟨rfl, rfl⟩ | ⟨rfl, rfl⟩ := hop
    · rw [hvalue]
      rfl
    · rw [hvalue, ← Int.sub_eq_add_neg]
      rfl
  have hoverflow : (m.addTo .a n).registers.overflow = Arithmetic.overflows m.registers.a n := by
    change (m.registers.overflow || Arithmetic.overflows m.registers.a n) = _
    rw [hoff, Bool.false_or]
  have hresult : (m.addTo .a n).registers.a = Arithmetic.add m.registers.a n :=
    (Registers.get_set m.registers .a .a _).trans (if_pos rfl)
  refine Operator.agrees_of_result hsum ?_ fun hfits => ?_
  · rw [← Arithmetic.overflows_eq_false_iff, ← hoverflow]
    obtain ⟨rfl, -⟩ | ⟨rfl, -⟩ := hop <;> exact Iff.rfl
  · have hsumValue := Arithmetic.value_add hfits
    rw [← hresult] at hsumValue
    obtain ⟨rfl, -⟩ | ⟨rfl, -⟩ := hop <;> exact hsumValue

theorem a_setPair (m : Machine σ) (words : Word × Word) :
    (m.setPair words).registers.a = words.1 := m.registers.a_withPair words

theorem x_setPair (m : Machine σ) (words : Word × Word) :
    (m.setPair words).registers.x = words.2 := m.registers.x_withPair words

theorem agrees_multiply (hload : Operator.Loaded .multiply a m.registers) :
    Operator.Agrees .multiply (apply .multiply a v.value)
      (m.setPair (Arithmetic.multiply m.registers.a v)).registers := by
  have hvalue : m.registers.a.value = a := hload
  subst hvalue
  refine Operator.agrees_of_result (x := m.registers.a.value * v.value) rfl ?_ fun hfits => ?_
  · rw [Operator.Exact, a_setPair]
    exact Arithmetic.isZero_multiply_iff
  · rw [Operator.result, x_setPair]
    exact Arithmetic.value_multiply hfits

/-- What rA and rX hold for a division. -/
theorem exactResult?_of_loaded {s : Registers} (hdivision : op = .divide ∨ op = .divideFraction)
    (hload : op.Loaded a s) {b : Int} (hb : b ≠ 0) :
    exactResult? op a b = some ((Arithmetic.dividend s.a s.x).tdiv b) := by
  obtain rfl | rfl := hdivision
  · obtain ⟨-, hzero, hsign, hx⟩ := hload
    have hzero' : s.a.magnitude = 0 := eq_of_beq hzero
    have hmagnitude : s.x.magnitude = a.natAbs := by
      rw [← Word.natAbs_value, hx, Int.natAbs_natCast]
    have hdividend : Arithmetic.dividend s.a s.x = a := by
      rw [Arithmetic.dividend, Arithmetic.pair, hzero', Nat.zero_mul, Nat.zero_add, hmagnitude]
      by_cases ha : a = 0
      · subst ha
        cases s.a.negative <;> rfl
      · rw [hsign ha]
        by_cases hneg : a < 0
        · simp only [Word.signed, hneg, decide_true, if_true]
          omega
        · simp only [Word.signed, hneg, decide_false, Bool.false_eq_true, if_false]
          omega
    rw [hdividend]
    exact if_neg hb
  · obtain ⟨-, rfl, hzero⟩ := hload
    have hzero' : s.x.magnitude = 0 := eq_of_beq hzero
    have hdividend : Arithmetic.dividend s.a s.x = s.a.value * weight 5 := by
      have hunit : (weight 5 : Int) = Word.signed false (weight 5) := rfl
      rw [Arithmetic.dividend, Arithmetic.pair, hzero', Nat.add_zero, Word.value_eq_signed, hunit,
        Word.signed_mul, Bool.bne_false]
    rw [hdividend]
    exact if_neg hb

theorem agrees_divide (hdivision : op = .divide ∨ op = .divideFraction)
    (hload : op.Loaded a m.registers) :
    op.Agrees (apply op a v.value) (m.divide v).registers := by
  have hoff : m.registers.overflow = false := by
    obtain rfl | rfl := hdivision <;> exact hload.1
  have hexact (s : Registers) : op.Exact s ↔ s.overflow = false := by
    obtain rfl | rfl := hdivision <;> exact Iff.rfl
  have hresult (s : Registers) : op.result s = s.a := by
    obtain rfl | rfl := hdivision <;> rfl
  have hlost (h : Arithmetic.divide? m.registers.a m.registers.x v = none) :
      ¬ op.Exact (m.divide v).registers := by
    rw [hexact, divide, h]
    intro hoff
    cases hoff
  by_cases hv : v.value = 0
  · have hnot : ¬ m.registers.a.magnitude < v.magnitude := by
      rw [v.value_eq_zero_iff.mp hv]
      exact Nat.not_lt_zero _
    rw [hv]
    exact Operator.agrees_of_zero hdivision (hlost (Arithmetic.divide?_eq_none hnot))
  · refine Operator.agrees_of_result (exactResult?_of_loaded hdivision hload hv) ?_ ?_
    · rw [Arithmetic.fits_quotient_iff hv]
      constructor
      · intro h
        exact Classical.byContradiction fun hnot => hlost (Arithmetic.divide?_eq_none hnot) h
      · intro h
        obtain ⟨remainder, hdivide⟩ := Arithmetic.divide?_eq_some (x := m.registers.x) h
        rw [hexact, divide, hdivide]
        exact hoff
    · intro hfits
      have hless := (Arithmetic.fits_quotient_iff hv).mp hfits
      obtain ⟨remainder, hdivide⟩ := Arithmetic.divide?_eq_some (x := m.registers.x) hless
      rw [Arithmetic.tdiv_dividend] at hfits ⊢
      rw [hresult, divide, hdivide, a_setPair]
      exact Word.value_wrap _ ((Word.fits_signed_iff _ _).mp hfits)

end Operations

section Step

/-- The next instruction applies an operation to the word `v`, the field of a word in memory. -/
def Applies (m : Machine σ) (operation : Operation) (v : Word) : Prop :=
  ∃ i f l, m.fetch = .ok i ∧ i.operation = operation ∧ i.spec? = some f ∧
    m.location? (m.effectiveAddress i) = some l ∧ f.extract (m.content l) = v

variable [Peripherals σ]

/-- Such a step goes through, and leaves the registers that the operation leaves. -/
theorem agrees_of_applies (next : Word → Machine σ) {outcome : Except Error Int}
    (hbytes : operation.usage = .bytes)
    (hperform : ∀ i : Instruction, i.operation = operation →
      m.advance.perform m.pc i = m.advance.atLocation m.pc (m.effectiveAddress i) fun l =>
        (next (i.spec.extract (m.content l))).proceed)
    (hnext : m.Applies operation v) (h : op.Agrees outcome (next v).registers) :
    m.step.2 = .ok .proceed ∧ op.Agrees outcome m.step.1.registers := by
  obtain ⟨i, f, l, hfetch, hop, hspec, hlocation, rfl⟩ := hnext
  have hat : m.AppliesAt operation f l := ⟨i, hfetch, hop, hspec, hlocation⟩
  obtain ⟨j, -, -, hstep⟩ := hat.exists_step hbytes
    (fun f l => (next (f.extract (m.content l))).proceed) hperform
  rw [hstep]
  exact ⟨rfl, h⟩

/-- What an operator of an expression makes of two values is what the machine makes of them. With
the value on the left in its registers, it goes through a step with the operation of the operator
and a word that has the value on the right. The expression has a value if the result of the step
is exact, and it is the value of the result; if not, the expression is refused. -/
theorem evaluate_agrees {s : Scope} {e : Expression} {right : Atom}
    (he : s.evaluate e = .ok a) (hright : s.atom right = .ok v.value)
    (hop : op.operation? = some operation) (hload : op.Loaded a m.registers)
    (hnext : m.Applies operation v) :
    m.step.2 = .ok .proceed ∧
      op.Agrees (s.evaluate (e.followedBy op right)) m.step.1.registers := by
  rw [s.evaluate_followedBy he hright]
  cases op with
  | add =>
    obtain rfl := Option.some.inj hop
    refine agrees_of_applies (fun v => m.advance.addTo .a v.value) rfl ?_ hnext
      (agrees_addTo (.inl ⟨rfl, rfl⟩) hload)
    intro i hi
    rw [perform, hi]
    rfl
  | subtract =>
    obtain rfl := Option.some.inj hop
    refine agrees_of_applies (fun v => m.advance.addTo .a v.negated.value) rfl ?_ hnext
      (agrees_addTo (.inr ⟨rfl, v.value_negated⟩) hload)
    intro i hi
    rw [perform, hi]
    rfl
  | multiply =>
    obtain rfl := Option.some.inj hop
    refine agrees_of_applies
      (fun v => m.advance.setPair (Arithmetic.multiply m.registers.a v)) rfl ?_ hnext
      (agrees_multiply hload)
    intro i hi
    rw [perform, hi]
    rfl
  | divide =>
    obtain rfl := Option.some.inj hop
    refine agrees_of_applies m.advance.divide rfl ?_ hnext (agrees_divide (.inl rfl) hload)
    intro i hi
    rw [perform, hi]
    rfl
  | divideFraction =>
    obtain rfl := Option.some.inj hop
    refine agrees_of_applies m.advance.divide rfl ?_ hnext (agrees_divide (.inr rfl) hload)
    intro i hi
    rw [perform, hi]
    rfl
  | field => cases hop

end Step

def beforeDivision : Machine Unattached :=
  (ofImage ⟨2, .halt, none⟩ Unattached.mk
    [Word.wrap false 262468, Word.wrap false 2]).setRegisters
    ((Registers.initial.setA (Word.wrap true 0)).setX (Word.wrap false 7))

theorem applies_beforeDivision : beforeDivision.Applies .div (Word.wrap false 2) :=
  ⟨⟨.div, 0, 5, ⟨false, 1⟩⟩, Field.whole, 1, rfl, rfl, rfl, rfl, rfl⟩

/-- `-7/2` is `-3`. -/
theorem evaluate_agrees_quotient :
    (⟨SymbolTable.empty, 0⟩ : Scope).evaluate ⟨true, .number 7, []⟩ = .ok (-7) ∧
      (⟨SymbolTable.empty, 0⟩ : Scope).atom (.number 2) = .ok (Word.wrap false 2).value ∧
      Operator.operation? .divide = some .div ∧
      Operator.Loaded .divide (-7) beforeDivision.registers ∧
      beforeDivision.Applies .div (Word.wrap false 2) ∧
      beforeDivision.step.2 = .ok .proceed ∧
      (⟨SymbolTable.empty, 0⟩ : Scope).evaluate ⟨true, .number 7, [(.divide, .number 2)]⟩ =
        .ok (-3) ∧
      beforeDivision.step.1.registers.overflow = false ∧
      beforeDivision.step.1.registers.a.value = -3 := by
  have he : (⟨SymbolTable.empty, 0⟩ : Scope).evaluate ⟨true, .number 7, []⟩ = .ok (-7) := rfl
  have hright : (⟨SymbolTable.empty, 0⟩ : Scope).atom (.number 2) =
      .ok (Word.wrap false 2).value := rfl
  have hload : Operator.Loaded .divide (-7) beforeDivision.registers := by
    refine ⟨rfl, rfl, fun _ => rfl, rfl⟩
  have hvalue : (⟨SymbolTable.empty, 0⟩ : Scope).evaluate
      ⟨true, .number 7, [(.divide, .number 2)]⟩ = .ok (-3) := rfl
  obtain ⟨hok, hagrees⟩ := evaluate_agrees he hright rfl hload applies_beforeDivision
  obtain ⟨hexact, hresult⟩ := (hagrees.value (-3)).mp hvalue
  exact ⟨he, hright, rfl, hload, applies_beforeDivision, hok, hvalue, hexact, hresult⟩

end Machine

end MixComputer
