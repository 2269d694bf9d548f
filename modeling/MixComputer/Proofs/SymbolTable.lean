import Mathlib.Data.Finset.Card
import Mathlib.Data.Finset.Lattice.Lemmas
import Mathlib.Data.List.Basic
import MixComputer.Proofs.Assembly.Evaluation
import MixComputer.Proofs.Guarded.Table

/-!
Symbol tables after a history of inserts, some of which may have failed. The first insert of a name
decides on its value and all others fail; the names are listed in the order of their first inserts.
The same holds of a table in two parts, a hash map for the values and a list for the order: the
parts stay in step, so a name in the list always has a value in the map.
-/
namespace MixComputer

namespace SymbolTable

abbrev History := List (String × Int)

namespace History

def names (h : History) : List String := h.map Prod.fst

def First (h : History) (name : String) (value : Int) : Prop :=
  ∃ before later, h = before ++ (name, value) :: later ∧ name ∉ names before

def Before (h : History) (a b : String) : Prop := (names h).idxOf a < (names h).idxOf b

variable {h : History} {name : String} {value : Int}

theorem bne_of_notMem_names (hnew : name ∉ names h) : ∀ e ∈ h, (name != e.1) = true :=
  fun _ he => bne_iff_ne.mpr (ne_of_mem_of_not_mem (List.mem_map_of_mem he) hnew).symm

theorem lookup_eq_none_iff : h.lookup name = none ↔ name ∉ names h := by
  rw [List.lookup_eq_none_iff]
  refine ⟨fun hne hmem => ?_, bne_of_notMem_names⟩
  obtain ⟨e, he, rfl⟩ := List.mem_map.mp hmem
  exact bne_iff_ne.mp (hne e he) rfl

theorem mem_names_iff : name ∈ names h ↔ ∃ value, h.lookup name = some value := by
  rw [← Option.ne_none_iff_exists', ne_eq, lookup_eq_none_iff, not_not]

theorem first_iff : First h name value ↔ h.lookup name = some value := by
  rw [List.lookup_eq_some_iff]
  constructor
  · rintro ⟨before, later, rfl, hnew⟩
    exact ⟨before, later, rfl, bne_of_notMem_names hnew⟩
  · rintro ⟨before, later, rfl, hne⟩
    refine ⟨before, later, rfl, ?_⟩
    exact lookup_eq_none_iff.mp (List.lookup_eq_none_iff.mpr hne)

/-- What comes later does not change what came first. -/
theorem First.append (hfirst : First h name value) (later : History) :
    First (h ++ later) name value := by
  obtain ⟨before, rest, rfl, hnew⟩ := hfirst
  exact ⟨before, rest ++ later, by rw [List.append_assoc, List.cons_append], hnew⟩

theorem lookup_append_one (h : History) (name : String) (value : Int) (other : String) :
    (h ++ [(name, value)]).lookup other =
      (h.lookup other).or (if other = name then some value else none) := by
  rw [List.lookup_append, List.lookup_cons]
  by_cases hname : other = name
  · rw [if_pos hname, hname, beq_self_eq_true]
  · rw [if_neg hname, beq_eq_false_iff_ne.mpr hname, List.lookup_nil]

theorem names_append_one (h : History) (name : String) (value : Int) :
    names (h ++ [(name, value)]) = names h ++ [name] := List.map_append

theorem Before.append_one {a b : String} (hbefore : Before h a b) (hb : b ∈ names h)
    (name : String) (value : Int) : Before (h ++ [(name, value)]) a b := by
  have ha : a ∈ names h :=
    List.idxOf_lt_length_iff.mp (hbefore.trans (List.idxOf_lt_length_iff.mpr hb))
  unfold Before
  rw [names_append_one, List.idxOf_append_of_mem ha, List.idxOf_append_of_mem hb]
  exact hbefore

/-- A new name comes after all others. -/
theorem before_new {a : String} (ha : a ∈ names h) (hnew : name ∉ names h) (value : Int) :
    Before (h ++ [(name, value)]) a name := by
  unfold Before
  rw [names_append_one, List.idxOf_append_of_mem ha, List.idxOf_append_of_notMem hnew]
  exact Nat.lt_of_lt_of_le (List.idxOf_lt_length_iff.mpr ha) (Nat.le_add_right _ _)

end History

structure View where
  value? : String → Option Int
  size : Nat
  listing : List (String × Int)

/-- A view shows what a history leads to. Each name has the value of its first insert, and the
listing has each name once, with its value, in the order of the first inserts. -/
structure View.Shows (v : View) (h : History) : Prop where
  value? : ∀ name value, v.value? name = some value ↔ h.First name value
  listed : ∀ name value, (name, value) ∈ v.listing ↔ h.First name value
  once : (History.names v.listing).Nodup
  order : (History.names v.listing).Pairwise h.Before
  /-- The size is the number of different names. -/
  size : v.size = h.names.toFinset.card

section Entries

open History

def define (t : SymbolTable) (name : String) (value : Int) : SymbolTable × Except Int Unit :=
  match t.insert name value with
  | .ok u => (u, .ok ())
  | .error old => (t, .error old)

def after (h : History) : SymbolTable := h.foldl (fun t e => (t.define e.1 e.2).1) empty

def view (t : SymbolTable) : View := ⟨t.get?, t.size, t.entries⟩

structure Follows (t : SymbolTable) (h : History) : Prop where
  get? : ∀ name, t.get? name = h.lookup name
  order : (names t.entries).Pairwise h.Before

variable {t : SymbolTable} {h : History} {name : String} {value old : Int}

theorem define_of_some (hold : t.get? name = some old) :
    t.define name value = (t, .error old) := by
  unfold define insert
  rw [hold]

theorem define_of_none (hnew : t.get? name = none) :
    t.define name value = (⟨t.entries ++ [(name, value)]⟩, .ok ()) := by
  unfold define insert
  rw [hnew]

theorem Follows.mem_names (hf : t.Follows h) : name ∈ names t.entries ↔ name ∈ names h := by
  rw [mem_names_iff, mem_names_iff]
  exact exists_congr fun _ => by rw [← hf.get?, SymbolTable.get?]

/-- One more insert keeps the table in step, whether it fails or not. -/
theorem Follows.define (hf : t.Follows h) (name : String) (value : Int) :
    (t.define name value).1.Follows (h ++ [(name, value)]) := by
  -- The last insert does not matter for the order of the names before it.
  have hkept : (names t.entries).Pairwise (Before (h ++ [(name, value)])) :=
    hf.order.imp_of_mem fun _ hb hbefore => hbefore.append_one (hf.mem_names.mp hb) name value
  cases hvalue : t.get? name with
  | some old =>
    rw [define_of_some hvalue]
    refine ⟨fun other => ?_, hkept⟩
    rw [lookup_append_one, ← hf.get?]
    -- The value of a second insert is seen under no name.
    by_cases hname : other = name
    · rw [hname, hvalue, Option.some_or]
    · rw [if_neg hname, Option.or_none]
  | none =>
    have hnew : name ∉ names h := lookup_eq_none_iff.mp ((hf.get? name).symm.trans hvalue)
    rw [define_of_none hvalue]
    refine ⟨fun other => ?_, ?_⟩
    · rw [lookup_append_one, ← hf.get?]
      exact lookup_append_one t.entries name value other
    · rw [names_append_one]
      refine List.pairwise_append.mpr ⟨hkept, List.pairwise_singleton _ _, fun a ha b hb => ?_⟩
      rw [List.mem_singleton.mp hb]
      exact before_new (hf.mem_names.mp ha) hnew value

theorem after_append_one (h : History) (name : String) (value : Int) :
    after (h ++ [(name, value)]) = ((after h).define name value).1 :=
  List.foldl_concat _ _ _ _

theorem follows_after (h : History) : (after h).Follows h := by
  induction h using List.reverseRecOn with
  | nil => exact ⟨fun _ => rfl, List.Pairwise.nil⟩
  | append_singleton h e ih =>
    rw [after_append_one h e.1 e.2]
    exact ih.define e.1 e.2

/-- No name comes before itself. -/
theorem Follows.nodup (hf : t.Follows h) : (names t.entries).Nodup := by
  refine hf.order.imp fun {a b} hbefore => ?_
  rintro rfl
  exact Nat.lt_irrefl _ hbefore

theorem Follows.shows (hf : t.Follows h) : t.view.Shows h where
  value? := fun name value => by rw [first_iff, ← hf.get?, view]
  listed := fun name value => by
    rw [first_iff, ← hf.get?, SymbolTable.get?]
    refine ⟨Guarded.Table.lookup_of_mem hf.nodup, fun hvalue => ?_⟩
    obtain ⟨before, later, hentries, -⟩ := List.lookup_eq_some_iff.mp hvalue
    rw [view, hentries]
    exact List.mem_append_right before List.mem_cons_self
  once := hf.nodup
  order := hf.order
  size := by
    have hsame : (names t.entries).toFinset = (names h).toFinset := by
      ext name
      rw [List.mem_toFinset, List.mem_toFinset, hf.mem_names]
    rw [← hsame, List.toFinset_card_of_nodup hf.nodup, names, List.length_map]
    rfl

end Entries

end SymbolTable

namespace Guarded.Table

open SymbolTable (History View)

/-- An insert with its answer. A name that is not in the map goes to the end of the list, whatever
the list has. -/
def define (t : Table Int) (name : String) (value : Int) : Table Int × Except Int Unit :=
  match t.get? name with
  | some old => (t, .error old)
  | none => (⟨t.values.insert name value, t.order ++ [name]⟩, .ok ())

def after (h : History) : Table Int := h.foldl (fun t e => (t.define e.1 e.2).1) empty

/-- The size is that of the list, and the listing takes the value of each of its names from the
map. -/
def view (t : Table Int) : Guarded View := do
  return ⟨t.get?, t.order.length, ← t.entries⟩

variable {t : Table Int} {s : SymbolTable} {name : String} {value old : Int}

theorem define_of_some (hold : t.get? name = some old) :
    t.define name value = (t, .error old) := by
  unfold define
  rw [hold]

theorem define_of_none (hnew : t.get? name = none) :
    t.define name value = (t.put name value, .ok ()) := by
  have habsent : name ∉ t.values := by
    rw [mem_values, hnew]
    exact Bool.false_ne_true
  unfold define put
  rw [hnew, if_neg habsent]

/-- The parts stay in step: a name that the map does not have is not in the list either. -/
theorem Holds.define (h : t.Holds s.entries) (name : String) (value : Int) :
    (t.define name value).1.Holds (s.define name value).1.entries := by
  have hvalue : t.get? name = s.get? name := h.get? name
  cases hs : s.get? name with
  | some old =>
    rw [SymbolTable.define_of_some hs, define_of_some (hvalue.trans hs)]
    exact h
  | none =>
    rw [SymbolTable.define_of_none hs, define_of_none (hvalue.trans hs)]
    exact h.put hs value

theorem after_append_one (h : History) (name : String) (value : Int) :
    after (h ++ [(name, value)]) = ((after h).define name value).1 :=
  List.foldl_concat _ _ _ _

theorem holds_after (h : History) : (after h).Holds (SymbolTable.after h).entries := by
  induction h using List.reverseRecOn with
  | nil => exact holds_empty
  | append_singleton h e ih =>
    rw [after_append_one h e.1 e.2, SymbolTable.after_append_one h e.1 e.2]
    exact ih.define e.1 e.2

/-- A listing without a name twice is complete. -/
theorem Holds.view (h : t.Holds s.entries) (hnodup : (History.names s.entries).Nodup) :
    t.view = .ok s.view := by
  have hsize : t.order.length = s.size := by
    rw [h.order, List.length_map]
    rfl
  unfold Table.view SymbolTable.view
  rw [h.entries (h.order.symm ▸ hnodup), hsize, show t.get? = s.get? from funext h.get?]
  rfl

end Guarded.Table

namespace SymbolTable

/-- After any history, looking at the table finds a value for every name in the list, and shows
each name once, with its first value, in the order of the first inserts. A value is never lost or
replaced: one more insert of its name is answered by the value and changes nothing. -/
theorem after_shows (h : History) :
    (Guarded.Table.after h).view = .ok (after h).view ∧ (after h).view.Shows h ∧
      (∀ name first, h.First name first →
        (∀ later, (after (h ++ later)).get? name = some first ∧
          (Guarded.Table.after (h ++ later)).get? name = some first) ∧
        ∀ value, (after h).define name value = (after h, .error first) ∧
          (Guarded.Table.after h).define name value = (Guarded.Table.after h, .error first)) ∧
      ∀ name value, name ∉ h.names →
        (after h).define name value = (after (h ++ [(name, value)]), .ok ()) ∧
          (Guarded.Table.after h).define name value =
            (Guarded.Table.after (h ++ [(name, value)]), .ok ()) := by
  have hvalue (h : History) (name : String) : (after h).get? name = h.lookup name ∧
      (Guarded.Table.after h).get? name = h.lookup name := by
    have hentries := (follows_after h).get? name
    exact ⟨hentries, ((Guarded.Table.holds_after h).get? name).trans hentries⟩
  refine ⟨(Guarded.Table.holds_after h).view (follows_after h).nodup, (follows_after h).shows,
    fun name first hfirst => ⟨fun later => ?_, fun value => ?_⟩, fun name value hnew => ?_⟩
  · rw [(hvalue _ name).1, (hvalue _ name).2, History.first_iff.mp (hfirst.append later)]
    exact ⟨rfl, rfl⟩
  · have hold := History.first_iff.mp hfirst
    exact ⟨define_of_some ((hvalue h name).1.trans hold),
      Guarded.Table.define_of_some ((hvalue h name).2.trans hold)⟩
  · have hnone := History.lookup_eq_none_iff.mpr hnew
    rw [after_append_one, Guarded.Table.after_append_one,
      define_of_none ((hvalue h name).1.trans hnone),
      Guarded.Table.define_of_none ((hvalue h name).2.trans hnone)]
    exact ⟨rfl, rfl⟩

def repeatedInsert : History := [("LOOP", 3000), ("X", -5), ("LOOP", 7)]

theorem after_shows_repeatedInsert :
    repeatedInsert.First "LOOP" 3000 ∧ "loop" ∉ repeatedInsert.names ∧
      (Guarded.Table.after repeatedInsert).view = .ok ⟨(after repeatedInsert).get?, 2,
        [("LOOP", 3000), ("X", -5)]⟩ ∧
      (Guarded.Table.after (repeatedInsert ++ [("X", 1)])).get? "LOOP" = some 3000 ∧
      (Guarded.Table.after repeatedInsert).define "LOOP" 8 =
        (Guarded.Table.after repeatedInsert, .error 3000) ∧
      (Guarded.Table.after repeatedInsert).define "loop" 9 =
        (Guarded.Table.after (repeatedInsert ++ [("loop", 9)]), .ok ()) := by
  have hfirst : repeatedInsert.First "LOOP" 3000 := History.first_iff.mpr (by decide)
  have hnew : "loop" ∉ repeatedInsert.names := by decide
  obtain ⟨hview, -, hkept, hadded⟩ := after_shows repeatedInsert
  have hloop := hkept "LOOP" 3000 hfirst
  exact ⟨hfirst, hnew, hview, (hloop.1 [("X", 1)]).2, (hloop.2 8).2, (hadded "loop" 9 hnew).2⟩

end SymbolTable

end MixComputer
