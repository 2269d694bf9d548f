import MixComputer.Assembly.Evaluation
import MixComputer.Proofs.Computation
import MixComputer.Proofs.Word

/-!
Values do not depend on what is defined later. If an expression, a w-value or an operand has a
value under some symbols, it has the same value under every table that continues theirs.
-/
namespace MixComputer

namespace SymbolTable

def Extends (t u : SymbolTable) : Prop := t.entries <+: u.entries

theorem Extends.refl (t : SymbolTable) : t.Extends t := List.prefix_refl t.entries

theorem Extends.trans {t u v : SymbolTable} (h : t.Extends u) (h' : u.Extends v) :
    t.Extends v := List.IsPrefix.trans h h'

theorem Extends.get? {t u : SymbolTable} (h : t.Extends u) {name : String} {v : Int}
    (hv : t.get? name = some v) : u.get? name = some v := by
  obtain ⟨more, hmore⟩ := h
  rw [SymbolTable.get?] at hv ⊢
  rw [← hmore, List.lookup_append, hv]
  rfl

theorem insert_eq_ok_iff (t u : SymbolTable) (name : String) (v : Int) :
    t.insert name v = .ok u ↔ t.get? name = none ∧ u = ⟨t.entries ++ [(name, v)]⟩ := by
  unfold insert
  cases h : t.get? name with
  | none => simp [eq_comm]
  | some old => simp

theorem extends_insert {t u : SymbolTable} {name : String} {v : Int}
    (h : t.insert name v = .ok u) : t.Extends u := by
  obtain ⟨-, rfl⟩ := (insert_eq_ok_iff t u name v).mp h
  exact List.prefix_append t.entries [(name, v)]

theorem get?_insert {t u : SymbolTable} {name : String} {v : Int}
    (h : t.insert name v = .ok u) : u.get? name = some v := by
  obtain ⟨hnone, rfl⟩ := (insert_eq_ok_iff t u name v).mp h
  rw [get?] at hnone ⊢
  rw [List.lookup_append, hnone]
  simp

theorem get?_insert_ne {t u : SymbolTable} {name other : String} {v : Int}
    (h : t.insert name v = .ok u) (hne : other ≠ name) : u.get? other = t.get? other := by
  obtain ⟨-, rfl⟩ := (insert_eq_ok_iff t u name v).mp h
  rw [get?, get?, List.lookup_append, List.lookup_cons, beq_eq_false_iff_ne.mpr hne]
  simp

end SymbolTable

namespace Assembly

open Source

theorem checkRange_eq_ok_iff (quantity : Quantity) (v w : Int) :
    checkRange quantity v = .ok w ↔ Word.Fits v ∧ w = v := by
  unfold checkRange
  by_cases h : Word.Fits v
  · simp [h, eq_comm]
  · simp [h]

namespace Scope

/-- The second scope is the same line later, when more may be defined. -/
structure Extends (s t : Scope) : Prop where
  symbols : s.symbols.Extends t.symbols
  here : s.here = t.here

variable {s t : Scope}

theorem Extends.atom (h : s.Extends t) {a : Atom} {v : Int} (hv : s.atom a = .ok v) :
    t.atom a = .ok v := by
  cases a with
  | number n => exact hv
  | here => rw [← hv, Scope.atom, Scope.atom, h.here]
  | symbol name =>
    simp only [Scope.atom] at hv ⊢
    cases hs : s.symbols.get? name with
    | none => simp [hs] at hv
    | some value =>
      rw [h.symbols.get? hs]
      simpa [hs] using hv

theorem Extends.continueFrom (h : s.Extends t) {rest : List (Operator × Atom)} {v w : Int}
    (hw : s.continueFrom v rest = .ok w) : t.continueFrom v rest = .ok w := by
  induction rest generalizing v with
  | nil => exact hw
  | cons first rest ih =>
    obtain ⟨op, right⟩ := first
    obtain ⟨b, hb, hw⟩ := (bind_eq_ok_iff _ _ _).mp hw
    obtain ⟨c, hc, hw⟩ := (bind_eq_ok_iff _ _ _).mp hw
    exact (bind_eq_ok_iff _ _ _).mpr ⟨b, h.atom hb,
      (bind_eq_ok_iff _ _ _).mpr ⟨c, hc, ih hw⟩⟩

theorem Extends.evaluate (h : s.Extends t) {e : Expression} {v : Int}
    (hv : s.evaluate e = .ok v) : t.evaluate e = .ok v := by
  obtain ⟨first, hfirst, hv⟩ := (bind_eq_ok_iff _ _ _).mp hv
  exact (bind_eq_ok_iff _ _ _).mpr ⟨first, h.atom hfirst, h.continueFrom hv⟩

theorem Extends.fieldOf (h : s.Extends t) {e : Option Expression} {f : Field}
    (hf : s.fieldOf e = .ok f) : t.fieldOf e = .ok f := by
  cases e with
  | none => exact hf
  | some e =>
    obtain ⟨code, hcode, hf⟩ := (bind_eq_ok_iff _ _ _).mp hf
    exact (bind_eq_ok_iff _ _ _).mpr ⟨code, h.evaluate hcode, hf⟩

theorem Extends.storeParts (h : s.Extends t) {parts : WValue} {w v : Word}
    (hv : s.storeParts w parts = .ok v) : t.storeParts w parts = .ok v := by
  induction parts generalizing w with
  | nil => exact hv
  | cons part parts ih =>
    obtain ⟨a, ha, hv⟩ := (bind_eq_ok_iff _ _ _).mp hv
    obtain ⟨f, hf, hv⟩ := (bind_eq_ok_iff _ _ _).mp hv
    obtain ⟨b, hb, hv⟩ := (bind_eq_ok_iff _ _ _).mp hv
    exact (bind_eq_ok_iff _ _ _).mpr ⟨a, h.evaluate ha,
      (bind_eq_ok_iff _ _ _).mpr ⟨f, h.fieldOf hf,
        (bind_eq_ok_iff _ _ _).mpr ⟨b, hb, ih hv⟩⟩⟩

theorem Extends.word (h : s.Extends t) {parts : WValue} {v : Word}
    (hv : s.word parts = .ok v) : t.word parts = .ok v := h.storeParts hv

/-- An expression that is a lone symbol has the value of the symbol, negated if it has a sign. -/
theorem evaluate_loneSymbol {e : Expression} {name : String} {negative : Bool} {v : Int}
    (he : e.loneSymbol? = some (name, negative)) (hv : s.symbols.get? name = some v) :
    s.evaluate e = .ok (if negative then -v else v) := by
  obtain ⟨sign, first, rest⟩ := e
  cases first with
  | number n => simp [Expression.loneSymbol?] at he
  | here => simp [Expression.loneSymbol?] at he
  | symbol other =>
    cases rest with
    | cons operation rest => simp [Expression.loneSymbol?] at he
    | nil =>
      simp only [Expression.loneSymbol?, Option.some.injEq, Prod.mk.injEq] at he
      obtain ⟨rfl, rfl⟩ := he
      simp [evaluate, atom, hv, continueFrom, bind, Except.bind]

theorem atom_number {n : Nat} (h : n < weight 5) (s : Scope) :
    s.atom (.number n) = .ok (n : Int) := (checkRange_eq_ok_iff _ _ _).mpr ⟨h, rfl⟩

/-- A numeral with or without a sign. -/
theorem evaluate_number {n : Nat} (h : n < weight 5) (s : Scope) (negative : Bool) :
    s.evaluate ⟨negative, .number n, []⟩ = .ok (if negative then -(n : Int) else n) :=
  (bind_eq_ok_iff _ _ _).mpr ⟨n, atom_number h s, rfl⟩

/-- The bounds of a field make its code. -/
theorem evaluate_bounds (f : Field) (s : Scope) :
    s.evaluate ⟨false, .number f.left, [(.field, .number f.right)]⟩ = .ok (f.code : Int) := by
  have hleft := f.left_le
  have hright := f.right_le
  have hfits : Word.Fits (8 * (f.left : Int) + f.right) := by
    rw [Word.Fits, weight_five]
    omega
  refine (bind_eq_ok_iff _ _ _).mpr ⟨f.left, atom_number (by rw [weight_five]; omega) s, ?_⟩
  refine (bind_eq_ok_iff _ _ _).mpr ⟨f.right, atom_number (by rw [weight_five]; omega) s, ?_⟩
  refine (bind_eq_ok_iff _ _ _).mpr ⟨f.code, ?_, rfl⟩
  change checkRange .expression (8 * (f.left : Int) + f.right) = .ok (f.code : Int)
  refine (checkRange_eq_ok_iff _ _ _).mpr ⟨hfits, ?_⟩
  rw [Field.code]
  omega

end Scope

end Assembly

end MixComputer
