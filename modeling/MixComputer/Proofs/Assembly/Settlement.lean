import MixComputer.Proofs.Assembly.Resolution

/-!
What becomes of every word that the lines of a program put into memory. A word that is alone at
its location stays if it waits for nothing, and ends with the value of a symbol if it waits for
one, whenever that was defined, as long as there is a value and it fits. If there is no error and
no location is written twice, this is so for all words, and a word that waits for a literal ends
with the location of a word that holds the literal.
-/
namespace MixComputer.Assembly

open Source

def Emission.Settled (e : Emission) (d : Draft) : Prop :=
  match e.pending with
  | .nothing => d.memory[e.location]? = some e.word
  | .symbol name patch => ∃ value, d.symbols.get? name = some value ∧
      Draft.patchFits patch (patch.signed value) = true ∧
      d.memory[e.location]? = some (patch.settle e.word value)
  | .literal w patch => ∃ place : Nat,
      Draft.patchFits patch (patch.signed place) = true ∧
      d.memory[e.location]? = some (patch.settle e.word place) ∧
      d.memory[place]? = some w

namespace Draft

section Settlement

variable {d : Draft} {initial : Memory} {es : List Emission}

theorem Accounts.use_location (h : d.Accounts initial es) :
    ∀ e ∈ es, ∀ u, e.use? = some u → u.2.location = e.location :=
  fun e he _ hu => (h.sound e he).use hu

theorem Accounts.literal_location (h : d.Accounts initial es) :
    ∀ e ∈ es, ∀ l, e.literal? = some l → l.2.location = e.location :=
  fun e he _ hl => (h.sound e he).literal hl

theorem Accounts.mem_locations_of_use (h : d.Accounts initial es) {u : String × Patch}
    (hu : u ∈ Draft.uses d.futures) : u.2.location ∈ es.map Emission.location :=
  (Emission.sublist_locations h.use_location).subset
    (List.mem_map.mpr ⟨u, h.uses.mem_iff.mp hu, rfl⟩)

theorem Accounts.mem_locations_of_literal (h : d.Accounts initial es) {l : Word × Patch}
    (hl : l ∈ d.literals) : l.2.location ∈ es.map Emission.location :=
  (Emission.sublist_locations h.literal_location).subset
    (List.mem_map.mpr ⟨l, h.literals ▸ hl, rfl⟩)

/-- Before resolution a word that is alone at its location is where it was put. -/
theorem Accounts.getElem? (h : d.Accounts initial es) {e : Emission} (halone : e.Alone es) :
    d.memory[e.location]? = some e.word := by
  have hlt := (h.sound e halone.mem).inside
  rw [h.memory, Emission.size_foldl_store] at hlt
  rw [h.memory]
  exact Emission.getElem?_foldl_store halone hlt

/-- Nothing else is to be patched there. -/
theorem Accounts.filter_uses (h : d.Accounts initial es) {e : Emission} (halone : e.Alone es)
    {u : String × Patch} (hu : e.use? = some u) :
    (Draft.uses d.futures).filter (fun u' => u'.2.location == u.2.location) = [u] := by
  have hparts := Emission.filter_filterMap_location h.use_location e.location
  rw [halone, List.filterMap_cons_some hu, List.filterMap_nil] at hparts
  rw [h.use_location e halone.mem u hu]
  exact List.perm_singleton.mp (hparts ▸ h.uses.filter _)

/-- The places of the literals are not among the addresses that wait for them. -/
theorem Accounts.nodup_literal_places (h : d.Accounts initial es)
    (hnodup : (es.map Emission.location ++ d.resolveEmissions.map Emission.location).Nodup) :
    (d.literals.map (fun l => l.2.location) ++
      (d.withSymbols.literalEmissions d.literals).map Emission.location).Nodup := by
  simp only [resolveEmissions, List.map_append] at hnodup
  obtain ⟨hes, hnew, hdisjoint⟩ := List.nodup_append.mp hnodup
  refine List.nodup_append.mpr ⟨?_, (List.nodup_append.mp hnew).2.1, ?_⟩
  · rw [h.literals]
    exact hes.sublist (Emission.sublist_locations h.literal_location)
  · intro a ha b hb
    obtain ⟨l, hl, rfl⟩ := List.mem_map.mp ha
    exact hdisjoint _ (h.mem_locations_of_literal hl) b (List.mem_append_right _ hb)

section Alone

variable (h : d.Accounts initial es) {e : Emission} (he : e ∈ es)
  (halone : e.Alone (es ++ d.resolveEmissions))

include h he halone

/-- The words of undefined symbols are put elsewhere. -/
theorem getElem?_withSymbols : d.withSymbols.memory[e.location]? = some e.word := by
  obtain ⟨hfirst, hlater⟩ := halone.of_append he
  rw [← h.getElem? hfirst]
  exact getElem?_foldl_allocateSymbol_ne fun e' he' => hlater e' (List.mem_append_left _ he')

/-- So are the literals, and a word that waits for no literal is not patched with one. -/
theorem getElem?_withLiterals (hnone : e.literal? = none) :
    d.withLiterals.memory[e.location]? = some e.word := by
  obtain ⟨hfirst, hlater⟩ := halone.of_append he
  rw [← getElem?_withSymbols h he halone]
  refine getElem?_foldl_placeLiteral_ne (fun e' he' => hlater e' (List.mem_append_right _ he')) ?_
  intro l hl
  exact Emission.location_ne h.literal_location hfirst hnone (h.literals ▸ hl)

/-- A word that waits for a symbol is changed by the patch that it came with, and by no other. -/
theorem getElem?_resolve_of_pending {name : String} {patch : Patch}
    (hpending : e.pending = .symbol name patch) :
    d.withLiterals.memory[patch.location]? = some e.word ∧
      d.resolve.memory[e.location]? =
        (d.withLiterals.patchUse (name, patch)).memory[patch.location]? := by
  have huse : e.use? = some (name, patch) := by simp only [Emission.use?, hpending]
  have hliteral : e.literal? = none := by simp only [Emission.literal?, hpending]
  have hlocation : patch.location = e.location := h.use_location e he _ huse
  rw [(quiet_resolve d).memory, ← hlocation]
  refine ⟨?_, getElem?_foldl_patchUse (h.filter_uses (halone.of_append he).1 huse)⟩
  rw [hlocation]
  exact getElem?_withLiterals h he halone hliteral

/-- It gets the value that the symbol has by then. -/
theorem getElem?_resolve_of_symbol {name : String} {patch : Patch}
    (hpending : e.pending = .symbol name patch) {value : Int}
    (hvalue : d.withSymbols.symbols.get? name = some value)
    (hfits : patchFits patch (patch.signed value) = true) :
    d.resolve.memory[e.location]? = some (patch.settle e.word value) := by
  obtain ⟨hold, hpatched⟩ := getElem?_resolve_of_pending h he halone hpending
  have hvalue' : d.withLiterals.symbols.get? name = some value :=
    (leads_withLiterals d).symbols.get? hvalue
  rw [hpatched, patchUse_of_get? hvalue']
  exact getElem?_applyPatch_self hfits hold

/-- It stays if the symbol has no value by then. -/
theorem getElem?_resolve_of_undefined {name : String} {patch : Patch}
    (hpending : e.pending = .symbol name patch)
    (hnone : d.withSymbols.symbols.get? name = none) :
    d.resolve.memory[e.location]? = some e.word := by
  obtain ⟨hold, hpatched⟩ := getElem?_resolve_of_pending h he halone hpending
  have hnone' : d.withLiterals.symbols.get? name = none := by rw [symbols_withLiterals, hnone]
  rw [hpatched, patchUse_of_get?_none hnone']
  exact hold

/-- A word that waits for nothing stays. -/
theorem getElem?_resolve_of_nothing (hpending : e.pending = .nothing) :
    d.resolve.memory[e.location]? = some e.word := by
  have huse : e.use? = none := by simp only [Emission.use?, hpending]
  have hliteral : e.literal? = none := by simp only [Emission.literal?, hpending]
  rw [(quiet_resolve d).memory, withUses, getElem?_foldl_patchUse_ne]
  · exact getElem?_withLiterals h he halone hliteral
  · intro u hu
    exact Emission.location_ne h.use_location (halone.of_append he).1 huse (h.uses.mem_iff.mp hu)

end Alone

section Clean

variable (h : d.Accounts initial es) (hclean : d.resolve.Clean)
  (hnodup : (es.map Emission.location ++ d.resolveEmissions.map Emission.location).Nodup)

include hclean

theorem clean_withUses : d.withUses.Clean := (quiet_resolve d).leads.clean hclean

theorem clean_withLiterals : d.withLiterals.Clean :=
  (leads_withUses d).clean (clean_withUses hclean)

theorem clean_withSymbols : d.withSymbols.Clean :=
  (leads_withLiterals d).clean (clean_withLiterals hclean)

omit hclean in
include hnodup in
theorem alone_of_mem {e : Emission} (he : e ∈ es) : e.Alone (es ++ d.resolveEmissions) :=
  Emission.alone_of_nodup (List.map_append ▸ hnodup) (List.mem_append_left _ he)

include h hnodup

theorem settled_of_literal {e : Emission} (he : e ∈ es) {w : Word} {patch : Patch}
    (hpending : e.pending = .literal w patch) : e.Settled d.resolve := by
  have hliteral : e.literal? = some (w, patch) := by simp only [Emission.literal?, hpending]
  have huse : e.use? = none := by simp only [Emission.use?, hpending]
  have hlocation : patch.location = e.location := h.literal_location e he _ hliteral
  have hmem : (w, patch) ∈ d.literals := by
    rw [h.literals]
    exact List.mem_filterMap.mpr ⟨e, he, hliteral⟩
  have hold : d.withSymbols.memory[patch.location]? = some e.word := by
    rw [hlocation]
    exact getElem?_withSymbols h he (alone_of_mem hnodup he)
  obtain ⟨place, hplace, hfits, hsettled, hword⟩ := getElem?_foldl_placeLiteral
    (clean_withLiterals hclean) (h.nodup_literal_places hnodup) hmem hold
  have hfirst := ((alone_of_mem hnodup he).of_append he).1
  simp only [resolveEmissions, List.map_append] at hnodup
  obtain ⟨-, -, hdisjoint⟩ := List.nodup_append.mp hnodup
  unfold Emission.Settled
  simp only [hpending, (quiet_resolve d).memory]
  refine ⟨place, hfits, ?_, ?_⟩
  · rw [withUses, getElem?_foldl_patchUse_ne, ← hlocation]
    · exact hsettled
    · intro u hu
      exact Emission.location_ne h.use_location hfirst huse (h.uses.mem_iff.mp hu)
  · rw [withUses, getElem?_foldl_patchUse_ne]
    · exact hword
    · intro u hu
      exact hdisjoint _ (h.mem_locations_of_use hu) place (List.mem_append_right _ hplace)

theorem settled_of_symbol {e : Emission} (he : e ∈ es) {name : String} {patch : Patch}
    (hpending : e.pending = .symbol name patch) : e.Settled d.resolve := by
  have hmem : (name, patch) ∈ uses d.futures := by
    refine h.uses.mem_iff.mpr (List.mem_filterMap.mpr ⟨e, he, ?_⟩)
    simp only [Emission.use?, hpending]
  obtain ⟨value, hvalue⟩ := get?_withSymbols (clean_withSymbols hclean)
    (contains_or_mem_undefinedSymbols hmem)
  have hvalue' := (leads_withLiterals d).symbols.get? hvalue
  have hfits := patchFits_of_clean (clean_withUses hclean) hmem hvalue'
  unfold Emission.Settled
  simp only [hpending]
  refine ⟨value, ?_, hfits, ?_⟩
  · exact ((leads_withUses d).trans (quiet_resolve d).leads).symbols.get? hvalue'
  · exact getElem?_resolve_of_symbol h he (alone_of_mem hnodup he) hpending hvalue hfits

omit hclean in
theorem settled_of_nothing {e : Emission} (he : e ∈ es) (hpending : e.pending = .nothing) :
    e.Settled d.resolve := by
  unfold Emission.Settled
  simp only [hpending]
  exact getElem?_resolve_of_nothing h he (alone_of_mem hnodup he) hpending

/-- Without errors and without a second word in one place, every word gets what it waits for. -/
theorem settled_resolve {e : Emission} (he : e ∈ es) : e.Settled d.resolve := by
  cases hpending : e.pending with
  | nothing => exact settled_of_nothing h hnodup he hpending
  | symbol name patch => exact settled_of_symbol h hclean hnodup he hpending
  | literal w patch => exact settled_of_literal h hclean hnodup he hpending

end Clean

end Settlement

end Draft

end MixComputer.Assembly
