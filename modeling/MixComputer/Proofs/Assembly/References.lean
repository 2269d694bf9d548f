import MixComputer.Proofs.Assembly.Allocation

/-!
The undefined symbols. Pass one collects the uses of each symbol in one place; what comes out is
the list of all references in the order of the program, without the repetitions and without the
symbols that were defined after all.
-/
namespace MixComputer.Assembly

open Source

def firstOfEach : List (String × Nat) → List (String × Nat)
  | [] => []
  | r :: rs => r :: (firstOfEach rs).filter fun q => q.1 != r.1

/-- A last reference is the first to its name, or it does not matter. -/
theorem firstOfEach_append_singleton (rs : List (String × Nat)) (r : String × Nat) :
    firstOfEach (rs ++ [r]) =
      if r.1 ∈ rs.map Prod.fst then firstOfEach rs else firstOfEach rs ++ [r] := by
  induction rs with
  | nil => rfl
  | cons q rs ih =>
    rw [List.cons_append, firstOfEach, firstOfEach, ih, List.map_cons]
    by_cases hold : r.1 ∈ rs.map Prod.fst
    · rw [if_pos hold, if_pos (List.mem_cons_of_mem _ hold)]
    · rw [if_neg hold, List.filter_append]
      by_cases hq : r.1 = q.1
      · rw [if_pos (hq ▸ List.mem_cons_self), List.filter_cons, hq, bne_self_eq_false]
        simp
      · rw [if_neg (List.not_mem_cons_of_ne_of_not_mem hq hold), List.filter_cons,
          if_pos (bne_iff_ne.mpr hq)]
        rfl

theorem mem_firstOfEach {rs : List (String × Nat)} {name : String} :
    name ∈ (firstOfEach rs).map Prod.fst ↔ name ∈ rs.map Prod.fst := by
  induction rs with
  | nil => exact Iff.rfl
  | cons r rs ih =>
    rw [firstOfEach, List.map_cons, List.map_cons, List.mem_cons, List.mem_cons, ← ih]
    by_cases hname : name = r.1
    · exact iff_of_true (.inl hname) (.inl hname)
    · refine or_congr_right ?_
      constructor
      · intro h
        obtain ⟨q, hq, rfl⟩ := List.mem_map.mp h
        exact List.mem_map_of_mem (List.mem_of_mem_filter hq)
      · intro h
        obtain ⟨q, hq, rfl⟩ := List.mem_map.mp h
        exact List.mem_map_of_mem (List.mem_filter.mpr ⟨hq, bne_iff_ne.mpr hname⟩)

def Emission.reference? (e : Emission) : Option (String × Nat) :=
  e.use?.map fun u => (u.1, u.2.line)

namespace Draft

def heads (futures : List Future) : List (String × Nat) :=
  futures.map fun f => (f.name, f.first.line)

variable {d d' : Draft}

theorem heads_addFuture (name : String) (patch : Patch) (futures : List Future) :
    heads (addFuture name patch futures) =
      if name ∈ (heads futures).map Prod.fst then heads futures
      else heads futures ++ [(name, patch.line)] := by
  induction futures with
  | nil => rfl
  | cons f futures ih =>
    unfold addFuture
    by_cases hf : f.name = name
    · rw [if_pos hf, if_pos (hf ▸ List.mem_cons_self)]
      rfl
    · rw [if_neg hf]
      refine (congrArg ((f.name, f.first.line) :: ·) ih).trans ?_
      rw [show heads (f :: futures) = (f.name, f.first.line) :: heads futures from rfl,
        List.map_cons]
      by_cases hold : name ∈ (heads futures).map Prod.fst
      · rw [if_pos hold, if_pos (List.mem_cons_of_mem _ hold)]
      · rw [if_neg hold, if_neg (List.not_mem_cons_of_ne_of_not_mem (Ne.symm hf) hold),
          List.cons_append]

def Collects (d : Draft) (es : List Emission) : Prop :=
  heads d.futures = firstOfEach (es.filterMap Emission.reference?)

theorem Collects.await {es : List Emission} (h : d.Collects es) (e : Emission) :
    (d.await e.pending).Collects (es ++ [e]) := by
  obtain ⟨location, word, pending⟩ := e
  unfold Collects at h ⊢
  rw [List.filterMap_append]
  cases pending with
  | nothing | literal w patch => exact h.trans (congrArg firstOfEach (List.append_nil _).symm)
  | symbol name patch =>
    refine (heads_addFuture name patch d.futures).trans ?_
    have hname : name ∈ (heads d.futures).map Prod.fst ↔
        name ∈ (es.filterMap Emission.reference?).map Prod.fst := by
      rw [h]
      exact mem_firstOfEach
    have hlast : [(⟨location, word, .symbol name patch⟩ : Emission)].filterMap
        Emission.reference? = [(name, patch.line)] := rfl
    rw [hlast, firstOfEach_append_singleton, ← h]
    exact if_congr hname rfl rfl

theorem Collects.emits {es new : List Emission} (h : d.Collects es) (hnew : d.Emits new d') :
    d'.Collects (es ++ new) := by
  cases hnew with
  | nothing hsame =>
    rw [List.append_nil]
    unfold Collects
    rw [hsame.futures]
    exact h
  | @word d₁ d₂ _ entry hsame hlocation hput hpatch hsame' =>
    obtain ⟨-, rfl⟩ := put_eq_ok_iff.mp hput
    unfold Collects at h ⊢
    rw [hsame'.futures]
    refine Collects.await ?_ ⟨d.location, entry.1, entry.2⟩
    unfold Collects
    rw [← h]
    exact congrArg heads hsame.futures

theorem collects_readLines (size : Nat) (texts : List String) :
    ((start size).readLines 1 texts).Collects ((start size).readEmissions 1 texts) := by
  have h : ((start size).readLines 1 texts).Collects
      ([] ++ (start size).readEmissions 1 texts) :=
    readEmissions_induction (P := Collects)
      (fun d es text line h => h.emits (emits_takeLine d text line)) 1 texts rfl
  rwa [List.nil_append] at h

/-- All references of a program in the order of its lines; the symbol that names the entry comes
last. -/
def references (d : Draft) (es : List Emission) : List (String × Nat) :=
  es.filterMap Emission.reference? ++ d.entrySymbol.toList

/-- The undefined symbols are those without a value, with their first references. -/
theorem Collects.undefinedSymbols_eq {es : List Emission} (h : d.Collects es) :
    d.undefinedSymbols =
      (firstOfEach (d.references es)).filter fun r => !d.symbols.contains r.1 := by
  have hused : ((d.futures.filter fun f => !d.symbols.contains f.name).map fun f =>
      (f.name, f.first.line)) =
      (firstOfEach (es.filterMap Emission.reference?)).filter fun r =>
        !d.symbols.contains r.1 := by
    rw [← h, heads, List.filter_map]
    rfl
  unfold undefinedSymbols references
  simp only [hused]
  cases d.entrySymbol with
  | none => rw [Option.toList_none, List.append_nil]
  | some s =>
    have hany : (((firstOfEach (es.filterMap Emission.reference?)).filter fun r =>
        !d.symbols.contains r.1).any fun u => u.1 == s.1) = true ↔
        d.symbols.contains s.1 = false ∧ s.1 ∈ (es.filterMap Emission.reference?).map Prod.fst := by
      rw [← mem_firstOfEach, List.any_eq_true]
      constructor
      · rintro ⟨r, hr, hname⟩
        obtain ⟨hr, hnew⟩ := List.mem_filter.mp hr
        rw [← eq_of_beq hname]
        exact ⟨by simpa using hnew, List.mem_map_of_mem hr⟩
      · rintro ⟨hnew, hmem⟩
        obtain ⟨r, hr, hname⟩ := List.mem_map.mp hmem
        exact ⟨r, List.mem_filter.mpr ⟨hr, by rw [hname, hnew]; rfl⟩, beq_iff_eq.mpr hname⟩
    rw [Option.toList_some, firstOfEach_append_singleton]
    simp only [Bool.or_eq_true, hany]
    cases hdefined : d.symbols.contains s.1 with
    | true =>
      rw [if_pos (.inl rfl)]
      split
      · rfl
      · rw [List.filter_append, List.filter_cons, hdefined]
        exact (List.append_nil _).symm
    | false =>
      by_cases hold : s.1 ∈ (es.filterMap Emission.reference?).map Prod.fst
      · rw [if_pos (.inr ⟨rfl, hold⟩), if_pos hold]
      · rw [if_neg (fun h => hold (h.resolve_left Bool.false_ne_true).2), if_neg hold,
          List.filter_append, List.filter_cons, hdefined]
        rfl

end Draft

end MixComputer.Assembly
