import Mathlib.Data.List.Nodup
import MixComputer.Proofs.Computation
import MixComputer.Proofs.Guarded.Number
import Std.Data.HashMap.Lemmas

/-!
Tables of values by name. A hash map finds the values, and a list keeps the names in the order in
which they came. As long as the list has exactly the names of the map, each once, whatever is
looked up under a name from the list is found.
-/
namespace MixComputer.Guarded

structure Table (α : Type) where
  values : Std.HashMap String α
  order : List String

namespace Table

variable {α : Type}

def empty : Table α := ⟨∅, []⟩

def get? (t : Table α) (name : String) : Option α := t.values[name]?

def lookup (t : Table α) (name : String) : Guarded α :=
  match t.get? name with
  | some v => .ok v
  | none => .error .index

def entries (t : Table α) : Guarded (List (String × α)) :=
  t.order.mapM fun name => do return (name, ← t.lookup name)

/-- A new name comes last. -/
def put (t : Table α) (name : String) (v : α) : Table α where
  values := t.values.insert name v
  order := if name ∈ t.values then t.order else t.order ++ [name]

/-- The name stays where it is in the order. -/
def erase (t : Table α) (name : String) : Table α := { t with values := t.values.erase name }

structure Lists (t : Table α) (names : List String) : Prop where
  nodup : names.Nodup
  mem : ∀ name, name ∈ names ↔ name ∈ t.values

def Listed (t : Table α) : Prop := t.Lists t.order

def Finds (t : Table α) (es : List (String × α)) : Prop := ∀ name, t.get? name = es.lookup name

structure Holds (t : Table α) (es : List (String × α)) : Prop where
  order : t.order = es.map Prod.fst
  get? : ∀ name, t.get? name = es.lookup name

section Laws

variable {t : Table α} {es : List (String × α)} {name other : String} {v : α}

theorem listed_empty : (empty : Table α).Listed :=
  ⟨List.nodup_nil, fun _ => iff_of_false List.not_mem_nil Std.HashMap.not_mem_empty⟩

theorem holds_empty : (empty : Table α).Holds [] :=
  ⟨rfl, fun _ => Std.HashMap.getElem?_empty⟩

theorem mem_values : name ∈ t.values ↔ (t.get? name).isSome = true :=
  Std.HashMap.mem_iff_isSome_getElem?

theorem get?_put :
    (t.put name v).get? other = if name = other then some v else t.get? other := by
  unfold put get?
  simp only [Std.HashMap.getElem?_insert, beq_iff_eq]

theorem get?_erase :
    (t.erase name).get? other = if name = other then none else t.get? other := by
  unfold erase get?
  simp only [Std.HashMap.getElem?_erase, beq_iff_eq]

theorem Listed.put (h : t.Listed) (name : String) (v : α) : (t.put name v).Listed := by
  by_cases hold : name ∈ t.values
  · have horder : (t.put name v).order = t.order := if_pos hold
    refine ⟨horder ▸ h.nodup, fun other => ?_⟩
    rw [horder, h.mem, Table.put, Std.HashMap.mem_insert, beq_iff_eq]
    refine ⟨.inr, ?_⟩
    rintro (rfl | hmem)
    · exact hold
    · exact hmem
  · have horder : (t.put name v).order = t.order ++ [name] := if_neg hold
    have hnew : name ∉ t.order := mt (h.mem name).mp hold
    refine ⟨?_, fun other => ?_⟩
    · rw [horder]
      refine List.nodup_append.mpr ⟨h.nodup, List.nodup_singleton name, fun a ha b hb => ?_⟩
      rw [List.mem_singleton.mp hb]
      exact ne_of_mem_of_not_mem ha hnew
    · rw [horder, List.mem_append, List.mem_singleton, h.mem, Table.put, Std.HashMap.mem_insert,
        beq_iff_eq, or_comm, eq_comm]

theorem Lists.erase {rest : List String} (h : t.Lists (name :: rest)) :
    (t.erase name).Lists rest := by
  obtain ⟨hnew, hrest⟩ := List.nodup_cons.mp h.nodup
  refine ⟨hrest, fun other => ?_⟩
  rw [Table.erase, Std.HashMap.mem_erase, ← h.mem, List.mem_cons, beq_eq_false_iff_ne]
  constructor
  · intro hmem
    exact ⟨(ne_of_mem_of_not_mem hmem hnew).symm, .inr hmem⟩
  · rintro ⟨hne, rfl | hmem⟩
    · exact absurd rfl hne
    · exact hmem

theorem Holds.put (h : t.Holds es) (hnew : es.lookup name = none) (v : α) :
    (t.put name v).Holds (es ++ [(name, v)]) := by
  have habsent : name ∉ t.values := by
    rw [mem_values, h.get?, hnew]
    exact Bool.false_ne_true
  refine ⟨?_, fun other => ?_⟩
  · rw [List.map_append, ← h.order]
    exact if_neg habsent
  · rw [get?_put, h.get?, List.lookup_append]
    by_cases hname : name = other
    · rw [if_pos hname, ← hname, hnew, List.lookup_cons, beq_self_eq_true]
      rfl
    · have hother : (other == name) = false := beq_eq_false_iff_ne.mpr (Ne.symm hname)
      rw [if_neg hname, List.lookup_cons, hother]
      exact (Option.or_none).symm

theorem Finds.erase (h : t.Finds ((name, v) :: es)) (hnew : name ∉ es.map Prod.fst) :
    (t.erase name).Finds es := by
  intro other
  rw [get?_erase]
  by_cases hname : name = other
  · have hnone : es.lookup other = none := by
      refine List.lookup_eq_none_iff.mpr fun e he => ?_
      rw [bne_iff_ne, ← hname]
      exact (ne_of_mem_of_not_mem (List.mem_map_of_mem he) hnew).symm
    rw [if_pos hname, hnone]
  · have hother : (other == name) = false := beq_eq_false_iff_ne.mpr (Ne.symm hname)
    rw [if_neg hname, h other, List.lookup_cons, hother]

theorem lookup_of_mem (hnodup : (es.map Prod.fst).Nodup) (hmem : (name, v) ∈ es) :
    es.lookup name = some v := by
  induction es with
  | nil => exact absurd hmem List.not_mem_nil
  | cons e es ih =>
    obtain ⟨hnew, hrest⟩ := List.nodup_cons.mp hnodup
    rw [List.lookup_cons]
    obtain rfl | hlater := List.mem_cons.mp hmem
    · rw [beq_self_eq_true]
    · have hother : (name == e.1) = false :=
        beq_eq_false_iff_ne.mpr (ne_of_mem_of_not_mem (List.mem_map_of_mem hlater) hnew)
      rw [hother]
      exact ih hrest hlater

/-- An entry is found under its name. -/
theorem Holds.lookup (h : t.Holds es) (hnodup : t.order.Nodup) (hmem : (name, v) ∈ es) :
    t.lookup name = .ok v := by
  unfold Table.lookup
  rw [h.get?, lookup_of_mem (h.order ▸ hnodup) hmem]

theorem Holds.entries (h : t.Holds es) (hnodup : t.order.Nodup) : t.entries = .ok es := by
  have hentry : ∀ e ∈ es,
      ((fun name => do return (name, ← t.lookup name)) ∘ Prod.fst : String × α → Guarded _) e =
        .ok (id e) := by
    intro e he
    show (do return (e.1, ← t.lookup e.1) : Guarded (String × α)) = .ok e
    rw [h.lookup hnodup (show (e.1, e.2) ∈ es from he)]
    rfl
  unfold Table.entries
  rw [h.order, List.mapM_map, mapM_eq_ok hentry, List.map_id]

end Laws

end Table

end MixComputer.Guarded
