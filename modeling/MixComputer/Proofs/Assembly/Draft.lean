import MixComputer.Assembly.Draft
import MixComputer.Proofs.Assembly.Evaluation
import MixComputer.Proofs.Memory
import Mathlib.Data.List.Perm.Basic

/-!
What the operations on a draft change. Nothing that is done to a draft undefines a symbol,
withdraws a report or changes the size of memory; `Leads` collects these facts. The uses of
undefined symbols are kept by symbol, but are the same uses in another order.
-/
namespace MixComputer.Assembly

open Source

def Future.uses (f : Future) : List (String × Patch) :=
  (f.first :: f.others).map fun patch => (f.name, patch)

namespace Draft

/-- The second draft may come after the first. -/
structure Leads (d d' : Draft) : Prop where
  size : d'.memory.size = d.memory.size
  symbols : d.symbols.Extends d'.symbols
  reports : d.reports <+: d'.reports

theorem Leads.refl (d : Draft) : d.Leads d :=
  ⟨rfl, SymbolTable.Extends.refl d.symbols, List.prefix_refl d.reports⟩

theorem Leads.trans {d d' d'' : Draft} (h : d.Leads d') (h' : d'.Leads d'') : d.Leads d'' :=
  ⟨h'.size.trans h.size, h.symbols.trans h'.symbols, h.reports.trans h'.reports⟩

theorem leads_foldl {α : Type} {step : Draft → α → Draft}
    (hstep : ∀ (d : Draft) (a : α), d.Leads (step d a)) (as : List α) (d : Draft) :
    d.Leads (as.foldl step d) :=
  List.foldlRecOn as step (Leads.refl d) fun d' h a _ => h.trans (hstep d' a)

/-- The scope of a line is extended by the scope of the same line under later symbols. -/
theorem Leads.scope {d d' : Draft} (h : d.Leads d') :
    d.scope.Extends ⟨d'.symbols, d.location⟩ := ⟨h.symbols, rfl⟩

def Clean (d : Draft) : Prop := ∀ r ∈ d.reports, r.severity ≠ .error

theorem Leads.clean {d d' : Draft} (h : d.Leads d') (hclean : d'.Clean) : d.Clean :=
  fun r hr => hclean r (h.reports.subset hr)

theorem not_clean_report_error (d : Draft) (line : Nat) (error : Error) :
    ¬ (d.report line .error error).Clean := by
  intro h
  have hmem : (⟨line, .error, error⟩ : Report) ∈ (d.report line .error error).reports :=
    List.mem_append_right d.reports (List.mem_singleton.mpr rfl)
  exact h _ hmem rfl

/-- Nothing is put into memory, and nothing that has been done is undone. -/
structure Quiet (d d' : Draft) : Prop where
  memory : d'.memory = d.memory
  literals : d'.literals = d.literals
  futures : d'.futures = d.futures
  symbols : d.symbols.Extends d'.symbols
  reports : d.reports <+: d'.reports

theorem Quiet.refl (d : Draft) : d.Quiet d :=
  ⟨rfl, rfl, rfl, SymbolTable.Extends.refl d.symbols, List.prefix_refl d.reports⟩

theorem Quiet.trans {d d' d'' : Draft} (h : d.Quiet d') (h' : d'.Quiet d'') : d.Quiet d'' :=
  ⟨h'.memory.trans h.memory, h'.literals.trans h.literals, h'.futures.trans h.futures,
    h.symbols.trans h'.symbols, h.reports.trans h'.reports⟩

theorem Quiet.leads {d d' : Draft} (h : d.Quiet d') : d.Leads d' :=
  ⟨congrArg Array.size h.memory, h.symbols, h.reports⟩

theorem quiet_report (d : Draft) (line : Nat) (severity : Severity) (error : Error) :
    d.Quiet (d.report line severity error) :=
  ⟨rfl, rfl, rfl, SymbolTable.Extends.refl d.symbols, List.prefix_append d.reports _⟩

/-- Where the next word goes, and what the entry is, does not matter here. -/
theorem quiet_redirect (d : Draft) (location : Nat) (entry : Option Nat)
    (entrySymbol endLabel : Option (String × Nat)) :
    d.Quiet { d with location, entry, entrySymbol, endLabel } :=
  ⟨rfl, rfl, rfl, SymbolTable.Extends.refl d.symbols, List.prefix_refl d.reports⟩

theorem quiet_symbols (d : Draft) {symbols : SymbolTable} (h : d.symbols.Extends symbols) :
    d.Quiet { d with symbols } := ⟨rfl, rfl, rfl, h, List.prefix_refl d.reports⟩

section Define

variable {d d' : Draft} {name : String} {value : Int}

theorem define_eq_ok_iff :
    d.define name value = .ok d' ↔
      ∃ symbols, d.symbols.insert name value = .ok symbols ∧ d' = { d with symbols } := by
  unfold define
  cases h : d.symbols.insert name value with
  | ok symbols => simp [eq_comm]
  | error old => simp

theorem quiet_define (h : d.define name value = .ok d') : d.Quiet d' := by
  obtain ⟨symbols, hs, rfl⟩ := define_eq_ok_iff.mp h
  exact quiet_symbols d (SymbolTable.extends_insert hs)

/-- Defining a label touches the symbols and nothing else. -/
theorem defineLabel_eq_ok {label : Option String} (h : d.defineLabel label = .ok d') :
    ∃ symbols, d.symbols.Extends symbols ∧ d' = { d with symbols } := by
  cases label with
  | none =>
    cases h
    exact ⟨d.symbols, SymbolTable.Extends.refl d.symbols, rfl⟩
  | some name =>
    obtain ⟨symbols, hs, hd⟩ := define_eq_ok_iff.mp h
    exact ⟨symbols, SymbolTable.extends_insert hs, hd⟩

end Define

section Put

variable {d d' : Draft} {w : Word} {entry : Word × Pending}

theorem emit_eq_ok_iff :
    d.emit w = .ok d' ↔ d.location < d.memory.size ∧
      d' = { d with memory := d.memory.write d.location w, location := d.location + 1 } := by
  unfold emit
  by_cases h : d.location < d.memory.size
  · simp [h, eq_comm]
  · simp [h]

theorem put_eq_ok_iff :
    d.put entry = .ok d' ↔ d.location < d.memory.size ∧
      d' = { d with
        memory := d.memory.write d.location entry.1
        location := d.location + 1 : Draft }.await entry.2 := by
  unfold put
  rw [bind_eq_ok_iff]
  constructor
  · rintro ⟨e, he, hd⟩
    obtain ⟨hlt, rfl⟩ := emit_eq_ok_iff.mp he
    exact ⟨hlt, (Except.ok.inj hd).symm⟩
  · rintro ⟨hlt, rfl⟩
    exact ⟨_, emit_eq_ok_iff.mpr ⟨hlt, rfl⟩, rfl⟩

theorem leads_await (d : Draft) (pending : Pending) : d.Leads (d.await pending) := by
  cases pending <;> exact ⟨rfl, SymbolTable.Extends.refl d.symbols, List.prefix_refl d.reports⟩

theorem leads_put (h : d.put entry = .ok d') : d.Leads d' := by
  obtain ⟨-, rfl⟩ := put_eq_ok_iff.mp h
  have hwrite : d.Leads
      { d with memory := d.memory.write d.location entry.1, location := d.location + 1 } :=
    ⟨Memory.size_write _ _ _, SymbolTable.Extends.refl _, List.prefix_refl _⟩
  exact hwrite.trans (leads_await _ entry.2)

end Put

section Uses

def uses (futures : List Future) : List (String × Patch) := futures.flatMap Future.uses

theorem uses_addFuture (name : String) (patch : Patch) (futures : List Future) :
    (uses (addFuture name patch futures)).Perm ((name, patch) :: uses futures) := by
  induction futures with
  | nil => exact List.Perm.refl _
  | cons f futures ih =>
    unfold addFuture
    by_cases h : f.name = name
    · rw [if_pos h]
      subst h
      have heq : uses ({ f with others := f.others ++ [patch] } :: futures) =
          Future.uses f ++ (f.name, patch) :: uses futures := by
        simp [uses, Future.uses]
      rw [heq]
      exact List.perm_middle
    · rw [if_neg h]
      have hstep : (Future.uses f ++ uses (addFuture name patch futures)).Perm
          (Future.uses f ++ (name, patch) :: uses futures) := List.Perm.append_left _ ih
      exact hstep.trans List.perm_middle

end Uses

end Draft

end MixComputer.Assembly
