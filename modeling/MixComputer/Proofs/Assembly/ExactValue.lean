import MixComputer.Proofs.Assembly.Evaluation
import MixComputer.Proofs.Guarded.Evaluation

/-!
Values of expressions as numbers of any size. Whatever an expression says, its operators can be
applied from the left to numbers without a bound, and everything that the assembler objects to is
something that happens on the way: an atom without a value, a divisor of zero, a number that has no
room in a word. An expression has a value if nothing of the kind happens, and then it is the last
number; if not, the first thing that happens is the error. Numbers of 64 bits see no difference.
-/
namespace MixComputer

namespace Source

def Operator.exactValue : Operator → Int → Int → Int
  | add, a, b => a + b
  | subtract, a, b => a - b
  | multiply, a, b => a * b
  | divide, a, b => a.tdiv b
  | divideFraction, a, b => (a * weight 5).tdiv b
  | field, a, b => 8 * a + b

def Operator.divides : Operator → Bool
  | divide | divideFraction => true
  | _ => false

def Expression.atoms (e : Expression) : List Atom := e.first :: e.rest.map Prod.snd

end Source

namespace Assembly

open Source

/-- The result of a computation that has met the given errors on its way to a value. -/
def outcome (errors : List Error) (v : Int) : Except Error Int :=
  match errors with
  | [] => .ok v
  | error :: _ => .error error

theorem outcome_eq_ok_iff {errors : List Error} {v w : Int} :
    outcome errors v = .ok w ↔ errors = [] ∧ v = w := by
  cases errors <;> simp [outcome]

theorem outcome_eq_error_iff {errors : List Error} {v : Int} {error : Error} :
    outcome errors v = .error error ↔ errors.head? = some error := by
  cases errors <;> simp [outcome]

/-- One computation after another, where the second begins with the value of the first. -/
theorem outcome_bind (errors more : List Error) (v w : Int) {next : Int → Except Error Int}
    (h : next v = outcome more w) : outcome errors v >>= next = outcome (errors ++ more) w := by
  cases errors with
  | nil => exact h
  | cons error errors => rfl

def rangeErrors (quantity : Quantity) (v : Int) : List Error :=
  if Word.Fits v then [] else [.outOfRange quantity v]

theorem rangeErrors_eq_nil_iff {quantity : Quantity} {v : Int} :
    rangeErrors quantity v = [] ↔ Word.Fits v := by
  simp [rangeErrors]

theorem checkRange_eq_outcome (quantity : Quantity) (v : Int) :
    checkRange quantity v = outcome (rangeErrors quantity v) v := by
  unfold checkRange rangeErrors
  split <;> rfl

def operatorErrors (op : Operator) (a b : Int) : List Error :=
  if op.divides = true ∧ b = 0 then [.divisionByZero]
  else rangeErrors .expression (op.exactValue a b)

theorem operatorErrors_eq_nil_iff {op : Operator} {a b : Int} :
    operatorErrors op a b = [] ↔
      (op.divides = true → b ≠ 0) ∧ Word.Fits (op.exactValue a b) := by
  unfold operatorErrors
  split
  · rename_i hzero
    simp [hzero.1, hzero.2]
  · rename_i hzero
    rw [rangeErrors_eq_nil_iff]
    exact (and_iff_right fun hdivides hb => hzero ⟨hdivides, hb⟩).symm

theorem apply_eq_outcome (op : Operator) (a b : Int) :
    apply op a b = outcome (operatorErrors op a b) (op.exactValue a b) := by
  by_cases hzero : op.divides = true ∧ b = 0
  · obtain ⟨hdivides, rfl⟩ := hzero
    rw [operatorErrors, if_pos ⟨hdivides, rfl⟩]
    cases op <;> first | rfl | cases hdivides
  · have hresult : exactResult? op a b = some (op.exactValue a b) := by
      cases op with
      | add | subtract | multiply | field => rfl
      | divide | divideFraction => exact if_neg fun hb => hzero ⟨rfl, hb⟩
    rw [operatorErrors, if_neg hzero, apply, hresult]
    exact checkRange_eq_outcome _ _

namespace Scope

variable {s : Scope} {e : Expression} {a : Atom}

/-- All that may stand in an expression fits into a word. -/
structure WithinWords (s : Scope) : Prop where
  symbols : ∀ name v, s.symbols.get? name = some v → Word.Fits v
  here : Word.Fits s.here

def Knows (s : Scope) : Atom → Prop
  | .number n => n < weight 5
  | .here => True
  | .symbol name => ∃ v, s.symbols.get? name = some v

/-- The value of an atom. The value of a number may be too large, and a symbol that is not defined
may as well stand for zero. -/
def exactAtom (s : Scope) : Atom → Int
  | .number n => n
  | .here => s.here
  | .symbol name => (s.symbols.get? name).getD 0

def atomErrors (s : Scope) : Atom → List Error
  | .number n => rangeErrors .number n
  | .here => []
  | .symbol name => if (s.symbols.get? name).isSome then [] else [.futureReference name]

theorem atom_eq_outcome (s : Scope) (a : Atom) :
    s.atom a = outcome (s.atomErrors a) (s.exactAtom a) := by
  cases a with
  | number n => exact checkRange_eq_outcome _ _
  | here => rfl
  | symbol name =>
    simp only [atom, atomErrors, exactAtom]
    cases s.symbols.get? name <;> rfl

theorem atomErrors_eq_nil_iff : s.atomErrors a = [] ↔ s.Knows a := by
  cases a with
  | number n => exact rangeErrors_eq_nil_iff
  | here => simp [atomErrors, Knows]
  | symbol name => simp [atomErrors, Knows, Option.isSome_iff_exists]

def exactStep (s : Scope) (v : Int) (operation : Operator × Atom) : Int :=
  operation.1.exactValue v (s.exactAtom operation.2)

def exactFirst (s : Scope) (e : Expression) : Int :=
  if e.negative then -s.exactAtom e.first else s.exactAtom e.first

/-- The number that the first `k` operators make. -/
def exactAfter (s : Scope) (e : Expression) (k : Nat) : Int :=
  (e.rest.take k).foldl s.exactStep (s.exactFirst e)

def exactValue (s : Scope) (e : Expression) : Int := e.rest.foldl s.exactStep (s.exactFirst e)

/-- All that is wrong with operators and their atoms, from left to right: first the atom, then a
divisor of zero or a result without room. -/
def operationErrors (s : Scope) (v : Int) : List (Operator × Atom) → List Error
  | [] => []
  | operation :: rest =>
    s.atomErrors operation.2 ++ (operatorErrors operation.1 v (s.exactAtom operation.2) ++
      s.operationErrors (s.exactStep v operation) rest)

def errors (s : Scope) (e : Expression) : List Error :=
  s.atomErrors e.first ++ s.operationErrors (s.exactFirst e) e.rest

theorem continueFrom_eq_outcome (s : Scope) (v : Int) (rest : List (Operator × Atom)) :
    s.continueFrom v rest = outcome (s.operationErrors v rest) (rest.foldl s.exactStep v) := by
  induction rest generalizing v with
  | nil => rfl
  | cons operation rest ih =>
    obtain ⟨op, right⟩ := operation
    rw [continueFrom, atom_eq_outcome, operationErrors]
    refine outcome_bind _ _ _ _ ?_
    rw [apply_eq_outcome]
    exact outcome_bind _ _ _ _ (ih _)

theorem evaluate_eq_outcome (s : Scope) (e : Expression) :
    s.evaluate e = outcome (s.errors e) (s.exactValue e) := by
  rw [evaluate, atom_eq_outcome]
  exact outcome_bind _ _ _ _ (s.continueFrom_eq_outcome _ _)

theorem WithinWords.fits_exactAtom (h : s.WithinWords) (ha : s.Knows a) :
    Word.Fits (s.exactAtom a) := by
  cases a with
  | number n => exact ha
  | here => exact h.here
  | symbol name =>
    obtain ⟨v, hv⟩ := ha
    rw [exactAtom, hv]
    exact h.symbols name v hv

theorem WithinWords.fits_exactFirst (h : s.WithinWords) (ha : s.Knows e.first) :
    Word.Fits (s.exactFirst e) := Guarded.fits_signed (h.fits_exactAtom ha) e.negative

/-- Nothing is wrong with an expression: each atom has a value, no divisor is zero, and the number
fits into a word at the beginning and after each operator. -/
structure Admits (s : Scope) (e : Expression) : Prop where
  atoms : ∀ a ∈ e.atoms, s.Knows a
  divisors : ∀ o ∈ e.rest, o.1.divides = true → s.exactAtom o.2 ≠ 0
  values : ∀ k, Word.Fits (s.exactAfter e k)

/-- The numbers on the way are the first one and those that come after it. -/
theorem forall_exact_cons {P : Int → Prop} (s : Scope) (v : Int) (o : Operator × Atom)
    (rest : List (Operator × Atom)) :
    (∀ k, P (((o :: rest).take k).foldl s.exactStep v)) ↔
      P v ∧ ∀ k, P ((rest.take k).foldl s.exactStep (s.exactStep v o)) := by
  constructor
  · exact fun h => ⟨h 0, fun k => h (k + 1)⟩
  · rintro ⟨hfirst, hlater⟩ k
    cases k with
    | zero => exact hfirst
    | succ k => exact hlater k

theorem operationErrors_eq_nil_iff {v : Int} (hv : Word.Fits v) (rest : List (Operator × Atom)) :
    s.operationErrors v rest = [] ↔
      (∀ o ∈ rest, s.Knows o.2) ∧ (∀ o ∈ rest, o.1.divides = true → s.exactAtom o.2 ≠ 0) ∧
        ∀ k, Word.Fits ((rest.take k).foldl s.exactStep v) := by
  induction rest generalizing v with
  | nil => simp [operationErrors, hv]
  | cons o rest ih =>
    rw [operationErrors, List.append_eq_nil_iff, List.append_eq_nil_iff, atomErrors_eq_nil_iff,
      operatorErrors_eq_nil_iff, forall_exact_cons, List.forall_mem_cons, List.forall_mem_cons]
    -- The value of the operator is where the induction goes on.
    constructor
    · rintro ⟨hknown, ⟨hdivisor, hfits⟩, hrest⟩
      obtain ⟨hknowns, hdivisors, hvalues⟩ := (ih hfits).mp hrest
      exact ⟨⟨hknown, hknowns⟩, ⟨hdivisor, hdivisors⟩, hv, hvalues⟩
    · rintro ⟨⟨hknown, hknowns⟩, ⟨hdivisor, hdivisors⟩, -, hvalues⟩
      exact ⟨hknown, ⟨hdivisor, hvalues 0⟩, (ih (hvalues 0)).mpr ⟨hknowns, hdivisors, hvalues⟩⟩

theorem WithinWords.errors_eq_nil_iff (h : s.WithinWords) : s.errors e = [] ↔ s.Admits e := by
  rw [errors, List.append_eq_nil_iff, atomErrors_eq_nil_iff]
  constructor
  · rintro ⟨hknown, hrest⟩
    obtain ⟨hknowns, hdivisors, hvalues⟩ :=
      (operationErrors_eq_nil_iff (h.fits_exactFirst hknown) e.rest).mp hrest
    exact ⟨List.forall_mem_cons.mpr ⟨hknown, List.forall_mem_map.mpr hknowns⟩, hdivisors, hvalues⟩
  · rintro ⟨hatoms, hdivisors, hvalues⟩
    obtain ⟨hknown, hknowns⟩ := List.forall_mem_cons.mp hatoms
    exact ⟨hknown, (operationErrors_eq_nil_iff (h.fits_exactFirst hknown) e.rest).mpr
      ⟨List.forall_mem_map.mp hknowns, hdivisors, hvalues⟩⟩

/-- The value of an expression fits into a word. -/
theorem WithinWords.fits_evaluate (h : s.WithinWords) {v : Int} (hv : s.evaluate e = .ok v) :
    Word.Fits v := by
  rw [evaluate_eq_outcome, outcome_eq_ok_iff, h.errors_eq_nil_iff] at hv
  obtain ⟨hadmits, rfl⟩ := hv
  have hlast := hadmits.values e.rest.length
  rwa [exactAfter, List.take_length] at hlast

/-- Evaluation is exact. An expression has a value if and only if nothing is wrong with it, and it
is what the operators make of unbounded numbers, strictly from the left; if not, the error is the
first from the left. Numbers of 64 bits, and of 128 for a fraction, give the same and never
overflow. -/
theorem evaluate_exact {s : Scope} (h : s.WithinWords) (e : Expression) :
    (∀ v, s.evaluate e = .ok v ↔ s.Admits e ∧ s.exactValue e = v) ∧
      (∀ error, s.evaluate e = .error error ↔ (s.errors e).head? = some error) ∧
      ∀ symbols : Guarded.Table Int, (∀ name, symbols.get? name = s.symbols.get? name) →
        Guarded.evaluate symbols s.here e = .ok (s.evaluate e) := by
  refine ⟨fun v => ?_, fun error => ?_, fun symbols hsymbols => ?_⟩
  · rw [evaluate_eq_outcome, outcome_eq_ok_iff, h.errors_eq_nil_iff]
  · rw [evaluate_eq_outcome, outcome_eq_error_iff]
  · have hhere := Guarded.fits_iff.mp h.here
    exact Guarded.evaluate_eq ⟨hsymbols, h.symbols, by omega⟩ e

def oneSymbol : Scope := ⟨⟨[("X", 1)]⟩, 1⟩

theorem withinWords_oneSymbol : oneSymbol.WithinWords := by
  refine ⟨fun name v hv => ?_, by decide +kernel⟩
  have hone : v = 1 := by
    simp only [oneSymbol, SymbolTable.get?, List.lookup_cons, List.lookup_nil] at hv
    split at hv <;> simp_all
  subst hone
  decide +kernel

/-- The quotient of `-X//7` is cut towards zero, and then there is no `Y` to multiply it with. -/
theorem evaluate_exact_fraction :
    oneSymbol.WithinWords ∧
      oneSymbol.Admits ⟨true, .symbol "X", [(.divideFraction, .number 7)]⟩ ∧
      oneSymbol.exactValue ⟨true, .symbol "X", [(.divideFraction, .number 7)]⟩ = -153391689 ∧
      oneSymbol.evaluate
          ⟨true, .symbol "X", [(.divideFraction, .number 7), (.multiply, .symbol "Y")]⟩ =
        .error (.futureReference "Y") ∧
      Guarded.evaluate (Guarded.Table.empty.put "X" 1) 1
        ⟨true, .symbol "X", [(.divideFraction, .number 7)]⟩ = .ok (.ok (-153391689)) := by
  have hwithin := withinWords_oneSymbol
  have hvalue : oneSymbol.evaluate ⟨true, .symbol "X", [(.divideFraction, .number 7)]⟩ =
      .ok (-153391689) := by decide +kernel
  have hsymbols : ∀ name,
      (Guarded.Table.empty.put "X" (1 : Int)).get? name = oneSymbol.symbols.get? name :=
    (Guarded.Table.holds_empty.put rfl 1).get?
  obtain ⟨hadmits, hexact⟩ := ((evaluate_exact hwithin _).1 _).mp hvalue
  refine ⟨hwithin, hadmits, hexact, ((evaluate_exact hwithin _).2.1 _).mpr (by decide +kernel), ?_⟩
  rw [← hvalue]
  exact (evaluate_exact hwithin _).2.2 _ hsymbols

end Scope

end Assembly

end MixComputer
