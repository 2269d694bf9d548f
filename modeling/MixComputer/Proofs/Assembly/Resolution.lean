import MixComputer.Proofs.Assembly.Reading

/-!
The second pass. Undefined symbols and literals get words of their own, which go into the record
of emissions, and every place that waits is patched. A place that is used by one patch alone ends
as that patch leaves it, if the value fits, and all other places keep their words.
-/
namespace MixComputer.Assembly

open Source

namespace Patch

def signed (patch : Patch) (value : Int) : Int := if patch.negative then -value else value

def settle (patch : Patch) (w : Word) (value : Int) : Word :=
  patch.field.insert w (Draft.patchWord patch (patch.signed value))

end Patch

namespace Draft

section Patching

variable {d : Draft} {patch : Patch} {value : Int}

theorem applyPatch_eq (d : Draft) (patch : Patch) (value : Int) :
    d.applyPatch patch value =
      if patchFits patch (patch.signed value) then
        { d with
          memory := d.memory.write patch.location
            (patch.settle (d.memory.getD patch.location Word.zero) value) }
      else d.report patch.line .error (.outOfRange .address (patch.signed value)) := rfl

theorem leads_applyPatch (d : Draft) (patch : Patch) (value : Int) :
    d.Leads (d.applyPatch patch value) := by
  rw [applyPatch_eq]
  split
  · exact ⟨Memory.size_write _ _ _, SymbolTable.Extends.refl _, List.prefix_refl _⟩
  · exact (quiet_report _ _ _ _).leads

theorem symbols_applyPatch (d : Draft) (patch : Patch) (value : Int) :
    (d.applyPatch patch value).symbols = d.symbols := by
  rw [applyPatch_eq]
  split <;> rfl

theorem getElem?_applyPatch_ne {other : Nat} (h : patch.location ≠ other) :
    (d.applyPatch patch value).memory[other]? = d.memory[other]? := by
  rw [applyPatch_eq]
  split
  · exact Memory.getElem?_write_ne _ _ h
  · rfl

/-- A patch that fits settles the word that waits for it. -/
theorem getElem?_applyPatch_self (hfits : patchFits patch (patch.signed value) = true) {w : Word}
    (hw : d.memory[patch.location]? = some w) :
    (d.applyPatch patch value).memory[patch.location]? = some (patch.settle w value) := by
  obtain ⟨hlt, hget⟩ := Array.getElem?_eq_some_iff.mp hw
  have hgetD : d.memory.getD patch.location Word.zero = w := by
    rw [Array.getD_eq_getD_getElem?, hw]
    rfl
  rw [applyPatch_eq, if_pos hfits, hgetD]
  exact Memory.getElem?_write_self _ _ hlt

/-- A patch that does not fit is an error. -/
theorem patchFits_of_clean_applyPatch (hclean : (d.applyPatch patch value).Clean) :
    patchFits patch (patch.signed value) = true := by
  rw [applyPatch_eq] at hclean
  by_cases hfits : patchFits patch (patch.signed value) = true
  · exact hfits
  · rw [if_neg hfits] at hclean
    exact absurd hclean (not_clean_report_error _ _ _)

end Patching

section Uses

variable {d : Draft} {us : List (String × Patch)} {u : String × Patch}

def patchUse (d : Draft) (u : String × Patch) : Draft :=
  match d.symbols.get? u.1 with
  | some value => d.applyPatch u.2 value
  | none => d

theorem symbols_patchUse (d : Draft) (u : String × Patch) :
    (d.patchUse u).symbols = d.symbols := by
  unfold patchUse
  split
  · exact symbols_applyPatch _ _ _
  · rfl

theorem leads_patchUse (d : Draft) (u : String × Patch) : d.Leads (d.patchUse u) := by
  unfold patchUse
  split
  · exact leads_applyPatch _ _ _
  · exact Leads.refl d

theorem patchFuture_eq (d : Draft) (f : Future) : d.patchFuture f = f.uses.foldl patchUse d := by
  unfold patchFuture Future.uses
  rw [List.foldl_map]
  generalize f.first :: f.others = patches
  cases hvalue : d.symbols.get? f.name with
  | none =>
    induction patches with
    | nil => rfl
    | cons patch patches ih => simpa [patchUse, hvalue] using ih
  | some value =>
    simp only
    induction patches generalizing d with
    | nil => rfl
    | cons patch patches ih =>
      have hstep : d.patchUse (f.name, patch) = d.applyPatch patch value := by
        simp only [patchUse, hvalue]
      rw [List.foldl_cons, List.foldl_cons, hstep]
      exact ih (d.applyPatch patch value) (by rw [symbols_applyPatch, hvalue])

/-- Going through the symbols with their uses is going through the uses. -/
theorem foldl_patchFuture (d : Draft) (futures : List Future) :
    futures.foldl patchFuture d = (uses futures).foldl patchUse d := by
  rw [uses, List.foldl_flatMap]
  congr 1
  funext d f
  exact patchFuture_eq d f

theorem symbols_foldl_patchUse (d : Draft) (us : List (String × Patch)) :
    (us.foldl patchUse d).symbols = d.symbols :=
  List.foldlRecOn (motive := fun d' => d'.symbols = d.symbols) us patchUse rfl
    fun d' h u _ => (symbols_patchUse d' u).trans h

theorem getElem?_foldl_patchUse_ne {other : Nat} (h : ∀ u ∈ us, u.2.location ≠ other) :
    (us.foldl patchUse d).memory[other]? = d.memory[other]? := by
  refine List.foldlRecOn (motive := fun d' => d'.memory[other]? = d.memory[other]?)
    us patchUse rfl ?_
  intro d' hd' u hu
  rw [← hd']
  unfold patchUse
  split
  · exact getElem?_applyPatch_ne (h u hu)
  · rfl

theorem patchUse_of_get? {value : Int} (hvalue : d.symbols.get? u.1 = some value) :
    d.patchUse u = d.applyPatch u.2 value := by
  simp only [patchUse, hvalue]

theorem patchUse_of_get?_none (hnone : d.symbols.get? u.1 = none) : d.patchUse u = d := by
  simp only [patchUse, hnone]

/-- What a use leaves in its place depends on what was there and on the symbols. -/
theorem getElem?_patchUse_congr {d' : Draft} (hsymbols : d'.symbols = d.symbols)
    (hmemory : d'.memory[u.2.location]? = d.memory[u.2.location]?) :
    (d'.patchUse u).memory[u.2.location]? = (d.patchUse u).memory[u.2.location]? := by
  unfold patchUse
  rw [hsymbols]
  cases d.symbols.get? u.1 with
  | none => exact hmemory
  | some value =>
    have hold : d'.memory.getD u.2.location Word.zero = d.memory.getD u.2.location Word.zero := by
      rw [Array.getD_eq_getD_getElem?, Array.getD_eq_getD_getElem?, hmemory]
    simp only [applyPatch_eq, hold]
    split
    · exact Memory.getElem?_write_congr _ hmemory
    · exact hmemory

/-- The value of a symbol fits wherever the symbol is used, or there is an error. -/
theorem patchFits_of_clean (hclean : (us.foldl patchUse d).Clean) (hu : u ∈ us) {value : Int}
    (hvalue : d.symbols.get? u.1 = some value) : patchFits u.2 (u.2.signed value) = true := by
  obtain ⟨before, after, rfl⟩ := List.append_of_mem hu
  rw [List.foldl_append, List.foldl_cons] at hclean
  have hvalue' : (before.foldl patchUse d).symbols.get? u.1 = some value := by
    rw [symbols_foldl_patchUse, hvalue]
  have hstep := (leads_foldl leads_patchUse after _).clean hclean
  rw [patchUse_of_get? hvalue'] at hstep
  exact patchFits_of_clean_applyPatch hstep

/-- A place with one use ends as that use leaves it. -/
theorem getElem?_foldl_patchUse
    (halone : us.filter (fun u' => u'.2.location == u.2.location) = [u]) :
    (us.foldl patchUse d).memory[u.2.location]? = (d.patchUse u).memory[u.2.location]? := by
  obtain ⟨before, after, rfl, hbefore, -, hafter⟩ := List.filter_eq_cons_iff.mp halone
  have hearlier : ∀ u' ∈ before, u'.2.location ≠ u.2.location := by
    intro u' hu'
    simpa using hbefore u' hu'
  have hlater : ∀ u' ∈ after, u'.2.location ≠ u.2.location := by
    intro u' hu'
    simpa using List.filter_eq_nil_iff.mp hafter u' hu'
  rw [List.foldl_append, List.foldl_cons, getElem?_foldl_patchUse_ne hlater]
  exact getElem?_patchUse_congr (symbols_foldl_patchUse d before)
    (getElem?_foldl_patchUse_ne hearlier)

end Uses

structure SameTasks (d d' : Draft) : Prop where
  literals : d'.literals = d.literals
  futures : d'.futures = d.futures
  entry : d'.entry = d.entry
  entrySymbol : d'.entrySymbol = d.entrySymbol
  endLabel : d'.endLabel = d.endLabel

theorem SameTasks.refl (d : Draft) : d.SameTasks d := ⟨rfl, rfl, rfl, rfl, rfl⟩

/-- Putting words into memory, defining symbols and reporting are no tasks. -/
theorem sameTasks_progress (d : Draft) (location : Nat) (memory : Memory)
    (symbols : SymbolTable) (reports : List Report) :
    d.SameTasks { d with location, memory, symbols, reports } := ⟨rfl, rfl, rfl, rfl, rfl⟩

theorem SameTasks.trans {d d' d'' : Draft} (h : d.SameTasks d') (h' : d'.SameTasks d'') :
    d.SameTasks d'' :=
  ⟨h'.literals.trans h.literals, h'.futures.trans h.futures, h'.entry.trans h.entry,
    h'.entrySymbol.trans h.entrySymbol, h'.endLabel.trans h.endLabel⟩

theorem sameTasks_foldl {α : Type} {step : Draft → α → Draft}
    (hstep : ∀ (d : Draft) (a : α), d.SameTasks (step d a)) (as : List α) (d : Draft) :
    d.SameTasks (as.foldl step d) :=
  List.foldlRecOn as step (SameTasks.refl d) fun d' h a _ => h.trans (hstep d' a)

theorem sameTasks_applyPatch (d : Draft) (patch : Patch) (value : Int) :
    d.SameTasks (d.applyPatch patch value) := by
  rw [applyPatch_eq]
  split <;> exact sameTasks_progress d _ _ _ _

theorem sameTasks_patchUse (d : Draft) (u : String × Patch) : d.SameTasks (d.patchUse u) := by
  unfold patchUse
  split
  · exact sameTasks_applyPatch _ _ _
  · exact SameTasks.refl d

section Symbols

variable {d : Draft} {name : String} {line : Nat} {us : List (String × Nat)}

/-- A symbol gets a word at the next location, or there is an error. -/
theorem allocateSymbol_cases (d : Draft) (name : String) (line : Nat) :
    (∃ error, d.allocateSymbol name line = d.report line .error error) ∨
      (d.location < d.memory.size ∧ ∃ symbols,
        d.symbols.insert name d.location = .ok symbols ∧
        d.allocateSymbol name line =
          { d with
            memory := d.memory.write d.location Word.zero
            location := d.location + 1
            symbols := symbols : Draft }.report line .warning
              (.undefinedSymbol name d.location)) := by
  unfold allocateSymbol
  cases h : d.emit Word.zero >>= (·.define name d.location) with
  | error error => exact .inl ⟨error, rfl⟩
  | ok d' =>
    obtain ⟨d₁, hemit, hdefine⟩ := (bind_eq_ok_iff _ _ _).mp h
    obtain ⟨hlt, rfl⟩ := emit_eq_ok_iff.mp hemit
    obtain ⟨symbols, hsymbols, rfl⟩ := define_eq_ok_iff.mp hdefine
    exact .inr ⟨hlt, symbols, hsymbols, rfl⟩

theorem leads_allocateSymbol (d : Draft) (u : String × Nat) :
    d.Leads (d.allocateSymbol u.1 u.2) := by
  obtain ⟨error, h⟩ | ⟨-, symbols, hs, h⟩ := allocateSymbol_cases d u.1 u.2
  · rw [h]
    exact (quiet_report d u.2 .error error).leads
  · rw [h]
    exact ⟨Memory.size_write _ _ _, SymbolTable.extends_insert hs, List.prefix_append _ _⟩

theorem allocateSymbol_of_clean (hclean : (d.allocateSymbol name line).Clean) :
    d.location < d.memory.size ∧ ∃ symbols,
      d.symbols.insert name d.location = .ok symbols ∧
      d.allocateSymbol name line =
        { d with
          memory := d.memory.write d.location Word.zero
          location := d.location + 1
          symbols := symbols : Draft }.report line .warning (.undefinedSymbol name d.location) := by
  rcases allocateSymbol_cases d name line with ⟨error, h⟩ | h
  · rw [h] at hclean
    exact absurd hclean (not_clean_report_error d line error)
  · exact h

theorem sameTasks_allocateSymbol (d : Draft) (u : String × Nat) :
    d.SameTasks (d.allocateSymbol u.1 u.2) := by
  obtain ⟨error, h⟩ | ⟨-, symbols, -, h⟩ := allocateSymbol_cases d u.1 u.2
  · rw [h]
    exact sameTasks_progress d _ _ _ _
  · rw [h]
    exact sameTasks_progress d _ _ _ _

def symbolEmissions (d : Draft) : List (String × Nat) → List Emission
  | [] => []
  | u :: us =>
    d.emissionHere (Word.zero, .nothing) ++ (d.allocateSymbol u.1 u.2).symbolEmissions us

/-- If there is no error, every symbol of the list is defined. -/
theorem get?_foldl_allocateSymbol
    (hclean : (us.foldl (fun d u => d.allocateSymbol u.1 u.2) d).Clean) :
    ∀ u ∈ us, ∃ value,
      (us.foldl (fun d u => d.allocateSymbol u.1 u.2) d).symbols.get? u.1 = some value := by
  induction us generalizing d with
  | nil => exact fun _ hu => absurd hu List.not_mem_nil
  | cons u us ih =>
    rw [List.foldl_cons] at hclean ⊢
    have hrest := leads_foldl leads_allocateSymbol us (d.allocateSymbol u.1 u.2)
    obtain ⟨hlt, symbols, hs, h⟩ := allocateSymbol_of_clean (hrest.clean hclean)
    intro u' hu'
    rcases List.mem_cons.mp hu' with rfl | htail
    · have hvalue : (d.allocateSymbol u'.1 u'.2).symbols.get? u'.1 = some (d.location : Int) := by
        rw [h]
        exact SymbolTable.get?_insert hs
      exact ⟨_, hrest.symbols.get? hvalue⟩
    · exact ih hclean u' htail

theorem getElem?_allocateSymbol_ne {other : Nat}
    (h : ∀ e ∈ d.emissionHere (Word.zero, .nothing), e.location ≠ other) :
    (d.allocateSymbol name line).memory[other]? = d.memory[other]? := by
  obtain ⟨error, heq⟩ | ⟨hlt, symbols, -, heq⟩ := allocateSymbol_cases d name line
  · rw [heq]
    rfl
  · rw [heq]
    rw [emissionHere, if_pos hlt] at h
    exact Memory.getElem?_write_ne _ _ (h _ (List.mem_singleton.mpr rfl))

/-- Only places of the record are written. -/
theorem getElem?_foldl_allocateSymbol_ne {other : Nat}
    (h : ∀ e ∈ d.symbolEmissions us, e.location ≠ other) :
    (us.foldl (fun d u => d.allocateSymbol u.1 u.2) d).memory[other]? = d.memory[other]? := by
  induction us generalizing d with
  | nil => rfl
  | cons u us ih =>
    rw [List.foldl_cons, ih fun e he => h e (List.mem_append_right _ he)]
    exact getElem?_allocateSymbol_ne fun e he => h e (List.mem_append_left _ he)

end Symbols

section Literals

variable {d : Draft} {ls : List (Word × Patch)}

/-- A literal gets a word at the next location and is patched in, or there is an error. -/
theorem placeLiteral_cases (d : Draft) (w : Word) (patch : Patch) :
    (∃ error, d.placeLiteral w patch = d.report patch.line .error error) ∨
      (d.location < d.memory.size ∧
        d.placeLiteral w patch =
          { d with
            memory := d.memory.write d.location w
            location := d.location + 1 : Draft }.applyPatch patch d.location) := by
  unfold placeLiteral
  cases h : d.emit w with
  | error error => exact .inl ⟨error, rfl⟩
  | ok d' =>
    obtain ⟨hlt, rfl⟩ := emit_eq_ok_iff.mp h
    exact .inr ⟨hlt, rfl⟩

theorem leads_placeLiteral (d : Draft) (l : Word × Patch) :
    d.Leads (d.placeLiteral l.1 l.2) := by
  obtain ⟨error, h⟩ | ⟨-, h⟩ := placeLiteral_cases d l.1 l.2
  · rw [h]
    exact (quiet_report d l.2.line .error error).leads
  · rw [h]
    have hwrite : d.Leads
        { d with memory := d.memory.write d.location l.1, location := d.location + 1 } :=
      ⟨Memory.size_write _ _ _, SymbolTable.Extends.refl _, List.prefix_refl _⟩
    exact hwrite.trans (leads_applyPatch _ _ _)

theorem placeLiteral_of_clean {w : Word} {patch : Patch}
    (hclean : (d.placeLiteral w patch).Clean) :
    d.location < d.memory.size ∧
      d.placeLiteral w patch =
        { d with
          memory := d.memory.write d.location w
          location := d.location + 1 : Draft }.applyPatch patch d.location := by
  rcases placeLiteral_cases d w patch with ⟨error, h⟩ | h
  · rw [h] at hclean
    exact absurd hclean (not_clean_report_error d patch.line error)
  · exact h

theorem sameTasks_placeLiteral (d : Draft) (l : Word × Patch) :
    d.SameTasks (d.placeLiteral l.1 l.2) := by
  obtain ⟨error, h⟩ | ⟨-, h⟩ := placeLiteral_cases d l.1 l.2
  · rw [h]
    exact sameTasks_progress d _ _ _ _
  · rw [h]
    have hwrite := sameTasks_progress d (d.location + 1) (d.memory.write d.location l.1)
      d.symbols d.reports
    exact hwrite.trans (sameTasks_applyPatch _ _ _)

theorem symbols_placeLiteral (d : Draft) (l : Word × Patch) :
    (d.placeLiteral l.1 l.2).symbols = d.symbols := by
  obtain ⟨error, h⟩ | ⟨-, h⟩ := placeLiteral_cases d l.1 l.2
  · rw [h]
    rfl
  · rw [h, symbols_applyPatch]

def literalEmissions (d : Draft) : List (Word × Patch) → List Emission
  | [] => []
  | l :: ls => d.emissionHere (l.1, .nothing) ++ (d.placeLiteral l.1 l.2).literalEmissions ls

theorem getElem?_placeLiteral_ne {w : Word} {patch : Patch} {other : Nat}
    (hemitted : ∀ e ∈ d.emissionHere (w, .nothing), e.location ≠ other)
    (hpatched : patch.location ≠ other) :
    (d.placeLiteral w patch).memory[other]? = d.memory[other]? := by
  obtain ⟨error, heq⟩ | ⟨hlt, heq⟩ := placeLiteral_cases d w patch
  · rw [heq]
    rfl
  · rw [heq, getElem?_applyPatch_ne hpatched]
    rw [emissionHere, if_pos hlt] at hemitted
    exact Memory.getElem?_write_ne _ _ (hemitted _ (List.mem_singleton.mpr rfl))

theorem getElem?_foldl_placeLiteral_ne {other : Nat}
    (hemitted : ∀ e ∈ d.literalEmissions ls, e.location ≠ other)
    (hpatched : ∀ l ∈ ls, l.2.location ≠ other) :
    (ls.foldl (fun d l => d.placeLiteral l.1 l.2) d).memory[other]? = d.memory[other]? := by
  induction ls generalizing d with
  | nil => rfl
  | cons l ls ih =>
    rw [List.foldl_cons, ih (fun e he => hemitted e (List.mem_append_right _ he))
      fun l' hl' => hpatched l' (List.mem_cons_of_mem l hl')]
    exact getElem?_placeLiteral_ne (fun e he => hemitted e (List.mem_append_left _ he))
      (hpatched l List.mem_cons_self)

/-- A literal ends in a place of its own, and the address that waited for it names the place. -/
theorem getElem?_foldl_placeLiteral
    (hclean : (ls.foldl (fun d l => d.placeLiteral l.1 l.2) d).Clean)
    (hnodup : (ls.map (fun l => l.2.location) ++
      (d.literalEmissions ls).map Emission.location).Nodup)
    {w : Word} {patch : Patch} (hl : (w, patch) ∈ ls) {old : Word}
    (hold : d.memory[patch.location]? = some old) :
    ∃ place ∈ (d.literalEmissions ls).map Emission.location,
      patchFits patch (patch.signed place) = true ∧
      (ls.foldl (fun d l => d.placeLiteral l.1 l.2) d).memory[patch.location]? =
        some (patch.settle old place) ∧
      (ls.foldl (fun d l => d.placeLiteral l.1 l.2) d).memory[place]? = some w := by
  induction ls generalizing d with
  | nil => exact absurd hl List.not_mem_nil
  | cons l ls ih =>
    rw [List.foldl_cons] at hclean ⊢
    have hrest := leads_foldl leads_placeLiteral ls (d.placeLiteral l.1 l.2)
    obtain ⟨hlt, h⟩ := placeLiteral_of_clean (hrest.clean hclean)
    rw [literalEmissions, emissionHere, if_pos hlt] at hnodup ⊢
    simp only [List.map_cons, List.cons_append, List.nil_append, List.nodup_cons,
      List.nodup_middle, List.mem_append, List.mem_cons, not_or] at hnodup ⊢
    obtain ⟨⟨hl₁, hl₂, hl₃⟩, ⟨hd₁, hd₂⟩, hnodup⟩ := hnodup
    have hframe {other : Nat} (hpatched : other ∉ ls.map fun l => l.2.location)
        (hemitted : other ∉
          ((d.placeLiteral l.1 l.2).literalEmissions ls).map Emission.location) :=
      getElem?_foldl_placeLiteral_ne
        (fun e he heq => hemitted (List.mem_map.mpr ⟨e, he, heq⟩))
        fun l' hl' heq => hpatched (List.mem_map.mpr ⟨l', hl', heq⟩)
    rcases List.mem_cons.mp hl with rfl | htail
    · have hold' : (d.memory.write d.location w)[patch.location]? = some old := by
        rw [Memory.getElem?_write_ne _ _ (Ne.symm hl₂), hold]
      have hfits := patchFits_of_clean_applyPatch (h ▸ hrest.clean hclean)
      refine ⟨d.location, .inl rfl, hfits, ?_, ?_⟩
      · rw [hframe hl₁ hl₃, h]
        exact getElem?_applyPatch_self hfits hold'
      · rw [hframe hd₁ hd₂, h, getElem?_applyPatch_ne hl₂]
        exact Memory.getElem?_write_self _ _ hlt
    · have hpatched : patch.location ∈ ls.map fun l => l.2.location :=
        List.mem_map.mpr ⟨(w, patch), htail, rfl⟩
      have hold' : (d.placeLiteral l.1 l.2).memory[patch.location]? = some old := by
        rw [h, getElem?_applyPatch_ne fun heq => hl₁ (heq ▸ hpatched), ← hold]
        exact Memory.getElem?_write_ne _ _ fun heq => hd₁ (heq ▸ hpatched)
      obtain ⟨place, hplace, hfits, hsettled, hw⟩ := ih hclean hnodup htail hold'
      exact ⟨place, .inr hplace, hfits, hsettled, hw⟩

end Literals

section Resolve

variable {d : Draft} {initial : Memory} {es : List Emission}

def withSymbols (d : Draft) : Draft :=
  d.undefinedSymbols.foldl (fun d u => d.allocateSymbol u.1 u.2) d

def withLiterals (d : Draft) : Draft :=
  d.literals.foldl (fun d l => d.placeLiteral l.1 l.2) d.withSymbols

def withUses (d : Draft) : Draft := (uses d.futures).foldl patchUse d.withLiterals

def resolveEmissions (d : Draft) : List Emission :=
  d.symbolEmissions d.undefinedSymbols ++ d.withSymbols.literalEmissions d.literals

theorem sameTasks_withSymbols (d : Draft) : d.SameTasks d.withSymbols :=
  sameTasks_foldl sameTasks_allocateSymbol _ d

theorem sameTasks_withLiterals (d : Draft) : d.SameTasks d.withLiterals :=
  (sameTasks_withSymbols d).trans (sameTasks_foldl sameTasks_placeLiteral _ _)

theorem sameTasks_withUses (d : Draft) : d.SameTasks d.withUses :=
  (sameTasks_withLiterals d).trans (sameTasks_foldl sameTasks_patchUse _ _)

theorem resolve_eq (d : Draft) : d.resolve = d.withUses.settleEntry.settleEndLabel := by
  unfold resolve withUses
  rw [← (sameTasks_withLiterals d).futures, ← foldl_patchFuture]
  unfold withLiterals
  rw [← (sameTasks_withSymbols d).literals]
  rfl

/-- A draft that waits for nothing is resolved. -/
theorem resolve_of_nothing (hfutures : d.futures = []) (hliterals : d.literals = [])
    (hentry : d.entrySymbol = none) (hlabel : d.endLabel = none) : d.resolve = d := by
  have hundefined : d.undefinedSymbols = [] := by
    simp only [undefinedSymbols, hfutures, hentry]
    rfl
  simp only [resolve, hundefined, hliterals, hfutures, List.foldl_nil, settleEntry, hentry,
    settleEndLabel, hlabel]

theorem leads_withSymbols (d : Draft) : d.Leads d.withSymbols :=
  leads_foldl leads_allocateSymbol _ d

theorem leads_withLiterals (d : Draft) : d.withSymbols.Leads d.withLiterals :=
  leads_foldl leads_placeLiteral _ _

theorem leads_withUses (d : Draft) : d.withLiterals.Leads d.withUses :=
  leads_foldl leads_patchUse _ _

theorem symbols_withLiterals (d : Draft) : d.withLiterals.symbols = d.withSymbols.symbols :=
  List.foldlRecOn (motive := fun d' => d'.symbols = d.withSymbols.symbols) d.literals
    (fun d l => d.placeLiteral l.1 l.2) rfl fun d' h l _ => (symbols_placeLiteral d' l).trans h

/-- Only undefined symbols are defined by the time the uses are patched. -/
theorem symbols_withUses (d : Draft) : d.withUses.symbols = d.withSymbols.symbols :=
  (symbols_foldl_patchUse _ _).trans (symbols_withLiterals d)

theorem settleEntry_eq (d : Draft) :
    ∃ entry reports, d.reports <+: reports ∧ d.settleEntry = { d with entry, reports } := by
  unfold settleEntry
  split
  · exact ⟨d.entry, d.reports, List.prefix_refl _, rfl⟩
  · split
    · exact ⟨d.entry, d.reports, List.prefix_refl _, rfl⟩
    · split
      · exact ⟨_, d.reports, List.prefix_refl _, rfl⟩
      · exact ⟨d.entry, _, List.prefix_append _ _, rfl⟩

theorem settleEndLabel_eq (d : Draft) :
    ∃ symbols reports, d.symbols.Extends symbols ∧ d.reports <+: reports ∧
      d.settleEndLabel = { d with symbols, reports } := by
  unfold settleEndLabel
  split
  · exact ⟨d.symbols, d.reports, SymbolTable.Extends.refl _, List.prefix_refl _, rfl⟩
  · split
    · rename_i hdefine
      obtain ⟨symbols, hs, rfl⟩ := define_eq_ok_iff.mp hdefine
      exact ⟨symbols, d.reports, SymbolTable.extends_insert hs, List.prefix_refl _, rfl⟩
    · exact ⟨d.symbols, _, SymbolTable.Extends.refl _, List.prefix_append _ _, rfl⟩

theorem symbols_settleEntry (d : Draft) : d.settleEntry.symbols = d.symbols := by
  obtain ⟨entry, reports, -, h⟩ := settleEntry_eq d
  rw [h]

theorem endLabel_settled (d : Draft) : d.withUses.settleEntry.endLabel = d.endLabel := by
  obtain ⟨entry, reports, -, h⟩ := settleEntry_eq d.withUses
  rw [h]
  exact (sameTasks_withUses d).endLabel

theorem quiet_settleEntry (d : Draft) : d.Quiet d.settleEntry := by
  obtain ⟨entry, reports, hreports, h⟩ := settleEntry_eq d
  rw [h]
  exact ⟨rfl, rfl, rfl, SymbolTable.Extends.refl _, hreports⟩

theorem quiet_settleEndLabel (d : Draft) : d.Quiet d.settleEndLabel := by
  obtain ⟨symbols, reports, hsymbols, hreports, h⟩ := settleEndLabel_eq d
  rw [h]
  exact ⟨rfl, rfl, rfl, hsymbols, hreports⟩

theorem quiet_resolve (d : Draft) : d.withUses.Quiet d.resolve := by
  rw [resolve_eq]
  exact (quiet_settleEntry _).trans (quiet_settleEndLabel _)

/-- After that only the label of the last line is defined. -/
theorem get?_resolve {name : String} (h : ∀ line, d.endLabel ≠ some (name, line)) :
    d.resolve.symbols.get? name = d.withSymbols.symbols.get? name := by
  rw [resolve_eq, ← symbols_withUses, ← symbols_settleEntry d.withUses, settleEndLabel,
    endLabel_settled]
  split
  · rfl
  · rename_i label line heq
    have hne : name ≠ label := by
      rintro rfl
      exact h line heq
    split
    · rename_i d' hdefine
      obtain ⟨symbols, hs, rfl⟩ := define_eq_ok_iff.mp hdefine
      exact SymbolTable.get?_insert_ne hs hne
    · rfl

/-- An undefined symbol comes from a use, or from the entry. -/
theorem mem_undefinedSymbols {u : String × Nat} (hu : u ∈ d.undefinedSymbols) :
    d.symbols.contains u.1 = false ∧
      ((∃ f ∈ d.futures, (f.name, f.first.line) = u) ∨ d.entrySymbol = some u) := by
  have hused (hu : u ∈ (d.futures.filter fun f => !d.symbols.contains f.name).map fun f =>
      (f.name, f.first.line)) :
      d.symbols.contains u.1 = false ∧
        ((∃ f ∈ d.futures, (f.name, f.first.line) = u) ∨ d.entrySymbol = some u) := by
    obtain ⟨f, hf, rfl⟩ := List.mem_map.mp hu
    obtain ⟨hf, hnew⟩ := List.mem_filter.mp hf
    exact ⟨by simpa using hnew, .inl ⟨f, hf, rfl⟩⟩
  unfold undefinedSymbols at hu
  simp only at hu
  split at hu
  · rename_i name line hentry
    split at hu
    · exact hused hu
    · rename_i hnew
      obtain hold | hlast := List.mem_append.mp hu
      · exact hused hold
      · rw [List.mem_singleton.mp hlast]
        refine ⟨?_, .inr hentry⟩
        exact Bool.eq_false_iff.mpr fun h => hnew (Bool.or_eq_true_iff.mpr (.inl h))
  · exact hused hu

/-- Every symbol that was used is defined, or gets a word. -/
theorem contains_or_mem_undefinedSymbols {u : String × Patch} (hu : u ∈ uses d.futures) :
    d.symbols.contains u.1 = true ∨ ∃ line, (u.1, line) ∈ d.undefinedSymbols := by
  obtain ⟨f, hf, hu⟩ := List.mem_flatMap.mp hu
  obtain ⟨patch, -, rfl⟩ := List.mem_map.mp hu
  cases hcontains : d.symbols.contains f.name with
  | true => exact .inl rfl
  | false =>
    refine .inr ⟨f.first.line, ?_⟩
    have hused : (f.name, f.first.line) ∈
        (d.futures.filter fun f => !d.symbols.contains f.name).map fun f =>
          (f.name, f.first.line) :=
      List.mem_map.mpr ⟨f, List.mem_filter.mpr ⟨hf, by simp [hcontains]⟩, rfl⟩
    simp only [undefinedSymbols]
    split
    · split
      · exact hused
      · exact List.mem_append_left _ hused
    · exact hused

/-- So is the symbol that names the entry. -/
theorem contains_or_mem_undefinedSymbols_of_entry {name : String} {line : Nat}
    (h : d.entrySymbol = some (name, line)) :
    d.symbols.contains name = true ∨ ∃ line, (name, line) ∈ d.undefinedSymbols := by
  unfold undefinedSymbols
  simp only [h]
  split
  · rename_i hknown
    rcases Bool.or_eq_true_iff.mp hknown with hcontains | hused
    · exact .inl hcontains
    · obtain ⟨⟨name', line'⟩, hmem, heq⟩ := List.any_eq_true.mp hused
      obtain rfl := eq_of_beq heq
      exact .inr ⟨line', hmem⟩
  · exact .inr ⟨line, List.mem_append_right _ (List.mem_singleton.mpr rfl)⟩

theorem get?_withSymbols {name : String} (hclean : d.withSymbols.Clean)
    (h : d.symbols.contains name = true ∨ ∃ line, (name, line) ∈ d.undefinedSymbols) :
    ∃ value, d.withSymbols.symbols.get? name = some value := by
  rcases h with hcontains | ⟨line, hmem⟩
  · obtain ⟨value, hvalue⟩ := Option.isSome_iff_exists.mp hcontains
    exact ⟨value, (leads_withSymbols d).symbols.get? hvalue⟩
  · exact get?_foldl_allocateSymbol hclean (name, line) hmem

end Resolve

end Draft

end MixComputer.Assembly
