import MixComputer.Proofs.Assembly.Placement

/-!
The layout of an assembled program. Behind the words of the lines come the words of the undefined
symbols and then those of the literals; the label of the line that ends the program names the place
after all of them. If memory is too small, the words that find room are placed all the same.
-/
namespace MixComputer

namespace Assembly

open Source

namespace Draft

section Ending

variable {size line : Nat} {lines : List String} {l : Line}

/-- Reading ends with the line of the given number and parts. -/
def EndsWith (size : Nat) (lines : List String) (l : Line) (line : Nat) : Prop :=
  ∃ k d text, line = 1 + k ∧ (start size).draftAt? 1 lines k = some d ∧ lines[k]? = some text ∧
    isComment text = false ∧ parseLine text = .ok (l, .directive .finish) ∧
    (d.obey (.directive .finish) l line).2 = .ok ()

/-- The last line notes its label, and then what names the entry. -/
theorem EndsWith.steps (h : EndsWith size lines l line) :
    ∃ d d₁ : Draft, d.entrySymbol = none ∧ d.deferLabel l.label line = .ok d₁ ∧
      d₁.setEntry l.operand line = .ok ((start size).readLines 1 lines) := by
  obtain ⟨k, d, text, rfl, hdraft, htext, hcomment, hparse, hobey⟩ := h
  have htake : d.takeLine text (1 + k) = (_, _) :=
    takeLine_of_obey hcomment hparse (Prod.ext rfl hobey)
  have hlast : (start size).readLines 1 lines = (d.obey (.directive .finish) l (1 + k)).1 := by
    rw [(draftAt?_eq_some hdraft).1, drop_of_getElem? htext]
    unfold readLines
    rw [htake]
    rfl
  obtain ⟨d₁, d₂, hlabel, hset, hresult⟩ := attemptBoth_eq_ok hobey
  refine ⟨d, d₁, entrySymbol_draftAt? hdraft, hlabel, ?_⟩
  rw [hset, hlast]
  exact congrArg Except.ok hresult.symm

theorem EndsWith.endLabel (h : EndsWith size lines l line) {name : String}
    (hname : l.label = some name) :
    ((start size).readLines 1 lines).endLabel = some (name, line) := by
  obtain ⟨d, d₁, -, hlabel, hset⟩ := h.steps
  have hdeferred : d₁.endLabel = some (name, line) := by
    unfold deferLabel at hlabel
    rw [hname] at hlabel
    simp only at hlabel
    split at hlabel
    · cases hlabel
    · cases hlabel
      rfl
  obtain ⟨w, -, ⟨symbol, -, heq⟩ | ⟨v, entry, -, -, heq⟩⟩ := setEntry_eq_ok hset
  · rw [heq]
    exact hdeferred
  · rw [heq]
    exact hdeferred

def entrySymbol? (d : Draft) (operand : String) (line : Nat) : Option (String × Nat) :=
  match (readWValue operand).toOption.bind fun w => (wholeExpression? w).bind d.openSymbol? with
  | some (name, false) => some (name, line)
  | _ => none

theorem entrySymbol_setEntry {d d' : Draft} {operand : String} (hnone : d.entrySymbol = none)
    (h : d.setEntry operand line = .ok d') :
    d'.entrySymbol = d'.entrySymbol? operand line := by
  obtain ⟨w, hw, h⟩ := (bind_eq_ok_iff _ _ _).mp h
  have hsymbol (hsymbols : d'.symbols = d.symbols) :
      d'.entrySymbol? operand line =
        match (wholeExpression? w).bind d.openSymbol? with
        | some (name, false) => some (name, line)
        | _ => none := by
    have hopen : d'.openSymbol? = d.openSymbol? := by
      funext e
      unfold openSymbol?
      rw [hsymbols]
    unfold entrySymbol?
    rw [hw, hopen]
    rfl
  split at h
  · rename_i name hname
    cases h
    rw [hsymbol rfl, hname]
  · rename_i hother
    obtain ⟨v, -, h⟩ := (bind_eq_ok_iff _ _ _).mp h
    obtain ⟨entry, -, h⟩ := (bind_eq_ok_iff _ _ _).mp h
    cases h
    rw [hsymbol rfl]
    split
    · rename_i name hname
      exact absurd hname (hother name)
    · exact hnone

/-- The symbol that names the entry is the operand of the last line. -/
theorem EndsWith.entrySymbol (h : EndsWith size lines l line) :
    ((start size).readLines 1 lines).entrySymbol =
      ((start size).readLines 1 lines).entrySymbol? l.operand line := by
  obtain ⟨d, d₁, hnone, hlabel, hset⟩ := h.steps
  obtain ⟨endLabel, rfl⟩ := deferLabel_eq_ok hlabel
  have hnone' : ({ d with endLabel } : Draft).entrySymbol = none := hnone
  exact entrySymbol_setEntry hnone' hset

/-- Either no symbol names the entry, or reading ends with some line. -/
theorem readLines_cases (d : Draft) (line : Nat) (texts : List String) :
    (d.readLines line texts).entrySymbol = d.entrySymbol ∨
      ∃ k d' text l, d.draftAt? line texts k = some d' ∧ texts[k]? = some text ∧
        isComment text = false ∧ parseLine text = .ok (l, .directive .finish) ∧
        (d'.obey (.directive .finish) l (line + k)).2 = .ok () := by
  induction texts generalizing d line with
  | nil => exact .inl rfl
  | cons text rest ih =>
    unfold readLines
    cases htake : d.takeLine text line with
    | mk d' last =>
      cases last with
      | true =>
        have htakes := takes_takeLine d text line
        rw [htake] at htakes
        generalize htaken : (d', true) = taken at htakes
        cases htakes with
        | comment | malformed | refused => cases htaken
        | @obeyed l mnemonic d₁ hcomment hparse hobey =>
          obtain rfl : mnemonic = .directive .finish := eq_of_beq (Prod.mk.inj htaken).2.symm
          exact .inr ⟨0, d, text, l, rfl, rfl, hcomment, hparse, congrArg Prod.snd hobey⟩
      | false =>
        obtain hsame | ⟨k, d₁, text', l, hdraft, htext, hrest⟩ := ih d' (line + 1)
        · exact .inl (hsame.trans (entrySymbol_takeLine htake))
        · refine .inr ⟨k + 1, d₁, text', l, ?_, htext, ?_⟩
          · unfold draftAt?
            simp only [htake]
            exact hdraft
          · rw [show line + (k + 1) = line + 1 + k by omega]
            exact hrest

theorem entrySymbol_of_not_endsWith (h : ∀ l line, ¬ EndsWith size lines l line) :
    ((start size).readLines 1 lines).entrySymbol = none := by
  obtain hsame | ⟨k, d, text, l, hdraft, htext, hrest⟩ := readLines_cases (start size) 1 lines
  · exact hsame
  · exact absurd ⟨k, d, text, rfl, hdraft, htext, hrest⟩ (h l (1 + k))

end Ending

end Draft

def isLocationError (r : Report) : Bool :=
  match r.error with
  | .outOfRange .location _ => true
  | _ => false

/-- How the words that resolution inserts are laid out: `d` is the draft of all lines, `es` the
record of their words, `us` are the undefined symbols and `ls` the literals, in their order. -/
structure Layout (size : Nat) (text : String) (d : Draft) (es : List Emission)
    (us : List (String × Nat)) (ls : List (Word × Patch)) : Prop where
  inside : d.location ≤ size
  /-- The symbol that the last line names comes last among the references. -/
  entry : (∀ l line, Draft.EndsWith size (Text.lines text) l line →
      d.entrySymbol = d.entrySymbol? l.operand line) ∧
    ((∀ l line, ¬ Draft.EndsWith size (Text.lines text) l line) → d.entrySymbol = none)
  distinct : (us.map Prod.fst).Nodup
  symbol : ∀ i u, us[i]? = some u → d.location + i < size →
    (assemble size text).symbols.get? u.1 = some ((d.location + i : Nat) : Int)
  /-- There is a warning for every symbol that has a word, and there are no others. -/
  warnings : (assemble size text).warnings.map (fun g => (g.line, g.error)) =
    ((us.take (size - d.location)).zipIdx d.location).map fun u =>
      (u.1.2, .undefinedSymbol u.1.1 u.2)
  literal : ∀ j l, ls[j]? = some l → d.location + us.length + j < size →
    .put ⟨d.location + us.length + j, l.1, .nothing⟩ ∈ d.resolution ∧
      .patch l.2 ((d.location + us.length + j : Nat) : Int) ∈ d.resolution ∧
      ((∀ e ∈ es, e.location ≠ d.location + us.length + j) →
        (assemble size text).memory[d.location + us.length + j]? = some l.1)
  label : ∀ l line name, Draft.EndsWith size (Text.lines text) l line → l.label = some name →
    d.symbols.get? name = none → name ∉ us.map Prod.fst →
    (assemble size text).symbols.get? name =
      some ((min (d.location + us.length + ls.length) size : Nat) : Int)
  /-- What finds no room is reported, each under the number of its line. -/
  refused : (Draft.ofLines size (Text.lines text)).reports.filter isLocationError =
    d.reports.filter isLocationError ++
      ((us.map Prod.snd ++ ls.map (·.2.line)).drop (size - d.location)).map
        (Draft.fullReport size)
  memory : (assemble size text).memory =
    Event.replay (es.map Event.put ++ d.resolution) (Memory.blank size)
  written : ∀ event ∈ es.map Event.put ++ d.resolution, event.location < size
  /-- Without an error every reference gets its value. -/
  settled : (assemble size text).succeeded = true → ∀ e ∈ es, ∀ p, e.pending.patch? = some p →
    ∃ v, .patch p v ∈ d.resolution ∧ Draft.patchFits p (p.signed v) = true ∧
      e.Resolves (assemble size text).symbols d.resolution p v

section Resolution

variable {d : Draft} (hnodup : (d.undefinedSymbols.map Prod.fst).Nodup)
  (hle : d.location ≤ d.memory.size)

include hnodup hle

/-- There is room for a literal at its place behind the words of the symbols. -/
theorem mem_placed_literals {l : Word × Patch} {j : Nat} (hl : d.literals[j]? = some l)
    (hroom : d.location + d.undefinedSymbols.length + j < d.memory.size) :
    (l, d.location + d.undefinedSymbols.length + j) ∈ d.withSymbols.placed d.literals := by
  have h := Draft.allocates_withSymbols hnodup hle
  have hlocation : d.withSymbols.location = d.location + d.undefinedSymbols.length := by
    rw [h.location]
    omega
  refine Draft.mem_placed_iff.mpr ⟨by omega, by rw [h.size]; exact hroom, ?_⟩
  rw [hlocation, Nat.add_sub_cancel_left]
  exact hl

omit hnodup hle in
/-- What is done for a literal that has a place is a part of resolution. -/
theorem mem_resolution_of_placed {l : (Word × Patch) × Nat} {event : Event}
    (hl : l ∈ d.withSymbols.placed d.literals) (h : event ∈ Event.ofLiteral l) :
    event ∈ d.resolution :=
  List.mem_append_right _ (List.mem_append_left _ (List.mem_flatMap.mpr ⟨l, hl, h⟩))

/-- All that finds no room. -/
theorem unplaced_eq :
    (d.unplaced d.undefinedSymbols).map Prod.snd ++
        (d.withSymbols.unplaced d.literals).map (·.2.line) =
      (d.undefinedSymbols.map Prod.snd ++ d.literals.map (·.2.line)).drop
        (d.memory.size - d.location) := by
  have h := Draft.allocates_withSymbols hnodup hle
  have hspace : d.withSymbols.memory.size - d.withSymbols.location =
      d.memory.size - d.location - (d.undefinedSymbols.map Prod.snd).length := by
    rw [h.size, h.location, List.length_map]
    omega
  rw [List.drop_append, ← List.map_drop, ← List.map_drop, ← hspace]
  rfl

end Resolution

section Program

variable {size : Nat} {text : String} {d : Draft} {es : List Emission}
  (hread : (Draft.start size).readLines 1 (Text.lines text) = d)
  (hemitted : (Draft.start size).readEmissions 1 (Text.lines text) = es)

include hread

theorem located_of_readLines : d.location ≤ size := by
  have h := Draft.located_readLines size (Text.lines text)
  rw [hread] at h
  exact (size_of_readLines hread) ▸ h

theorem ofLines_of_readLines : Draft.ofLines size (Text.lines text) = d.resolve := by
  unfold Draft.ofLines
  rw [hread]

theorem symbols_of_readLines : (assemble size text).symbols = d.resolve.symbols :=
  congrArg Draft.symbols (ofLines_of_readLines hread)

theorem get?_of_undefined {i : Nat} {u : String × Nat} (hi : d.undefinedSymbols[i]? = some u)
    (hroom : d.location + i < size) :
    (assemble size text).symbols.get? u.1 = some ((d.location + i : Nat) : Int) := by
  have hroom' : d.location + i < d.memory.size := (size_of_readLines hread).symm ▸ hroom
  obtain ⟨hvalue, -, -⟩ := Draft.foldl_allocateSymbol_of_room
    (nodup_of_readLines hread) (fun u hu => Draft.get?_of_mem_undefinedSymbols hu) hi hroom'
  rw [symbols_of_readLines hread]
  exact (Draft.leads_resolve_withSymbols d).symbols.get? hvalue

theorem warnings_eq :
    (assemble size text).warnings.map (fun g => (g.line, g.error)) =
      ((d.undefinedSymbols.take (size - d.location)).zipIdx d.location).map fun u =>
        (u.1.2, .undefinedSymbol u.1.1 u.2) := by
  have hsize := size_of_readLines hread
  have hkeep : Draft.Ignores fun r => r.severity == .warning :=
    ⟨fun _ _ => rfl, fun _ _ => rfl, fun _ _ _ => rfl⟩
  have hresolve := Draft.filter_reports_resolve (nodup_of_readLines hread)
    (hsize.symm ▸ located_of_readLines hread) hkeep
  have hread' : d.reports.filter (fun r => r.severity == .warning) = [] := by
    refine List.filter_eq_nil_iff.mpr fun r hr => ?_
    rw [← hread] at hr
    rw [Draft.errors_readLines size (Text.lines text) r hr]
    decide
  have hplaced : ((d.placed d.undefinedSymbols).map Draft.placedReport).filter
      (fun r => r.severity == .warning) = (d.placed d.undefinedSymbols).map Draft.placedReport :=
    List.filter_eq_self.mpr fun r hr => by
      obtain ⟨u, -, rfl⟩ := List.mem_map.mp hr
      rfl
  have hfull (lines : List Nat) : (lines.map (Draft.fullReport d.memory.size)).filter
      (fun r => r.severity == .warning) = [] :=
    List.filter_eq_nil_iff.mpr fun r hr => by
      obtain ⟨line, -, rfl⟩ := List.mem_map.mp hr
      exact Bool.false_ne_true
  rw [hread', List.nil_append, List.filter_append, hplaced, hfull, List.append_nil] at hresolve
  rw [← ofLines_of_readLines hread] at hresolve
  show (((Draft.ofLines size (Text.lines text)).reports.map _).filter _).map _ = _
  rw [List.filter_map, List.map_map]
  refine (congrArg (List.map _) hresolve).trans ?_
  rw [List.map_map, Draft.placed, hsize]
  rfl

theorem get?_endLabel {l : Line} {line : Nat} {name : String}
    (hends : Draft.EndsWith size (Text.lines text) l line) (hname : l.label = some name)
    (hnone : d.symbols.get? name = none) (hnew : name ∉ d.undefinedSymbols.map Prod.fst) :
    (assemble size text).symbols.get? name =
      some ((min (d.location + d.undefinedSymbols.length + d.literals.length) size : Nat) :
        Int) := by
  have hlabel := hends.endLabel hname
  rw [hread] at hlabel
  have hstill : d.withSymbols.symbols.get? name = none := by
    rw [← hnone]
    exact Draft.get?_foldl_allocateSymbol_ne hnew
  have hsize := size_of_readLines hread
  have hlocation := Draft.location_resolve (nodup_of_readLines hread)
    (hsize.symm ▸ located_of_readLines hread)
  rw [symbols_of_readLines hread, Draft.get?_resolve_of_undefined hlabel hstill, hlocation, hsize]

theorem filter_isLocationError_eq :
    (Draft.ofLines size (Text.lines text)).reports.filter isLocationError =
      d.reports.filter isLocationError ++
        ((d.undefinedSymbols.map Prod.snd ++ d.literals.map (·.2.line)).drop
          (size - d.location)).map (Draft.fullReport size) := by
  have hnodup := nodup_of_readLines hread
  have hsize := size_of_readLines hread
  have hle : d.location ≤ d.memory.size := hsize.symm ▸ located_of_readLines hread
  have hplaced : ((d.placed d.undefinedSymbols).map Draft.placedReport).filter
      isLocationError = [] :=
    List.filter_eq_nil_iff.mpr fun r hr => by
      obtain ⟨u, -, rfl⟩ := List.mem_map.mp hr
      exact Bool.false_ne_true
  have hfull (lines : List Nat) : (lines.map (Draft.fullReport d.memory.size)).filter
      isLocationError = lines.map (Draft.fullReport d.memory.size) :=
    List.filter_eq_self.mpr fun r hr => by
      obtain ⟨line, -, rfl⟩ := List.mem_map.mp hr
      rfl
  rw [ofLines_of_readLines hread, Draft.filter_reports_resolve hnodup hle
    ⟨fun _ _ => rfl, fun _ _ => rfl, fun _ _ _ => rfl⟩, List.filter_append, hplaced, hfull,
    List.nil_append, unplaced_eq hnodup hle, hsize]

section Record

include hemitted

theorem accounts_of_readLines : d.Accounts (Memory.blank size) es := by
  subst hread hemitted
  exact Draft.accounts_readLines size (Text.lines text)

theorem memory_eq :
    (assemble size text).memory =
      Event.replay (es.map Event.put ++ d.resolution) (Memory.blank size) := by
  have hsize := size_of_readLines hread
  have hresolve := Draft.memory_resolve (nodup_of_readLines hread)
    (hsize.symm ▸ located_of_readLines hread)
  rw [Event.replay_append, Event.replay_puts, ← (accounts_of_readLines hread hemitted).memory,
    ← hresolve]
  exact congrArg Draft.memory (ofLines_of_readLines hread)

theorem location_lt_of_mem {place : Nat} (h : place ∈ es.map Emission.location) :
    place < size := by
  obtain ⟨e, he, rfl⟩ := List.mem_map.mp h
  rw [← size_of_readLines hread]
  exact ((accounts_of_readLines hread hemitted).sound e he).inside

/-- A reference is at the location of a word that a line put into memory. -/
theorem location_of_useEvents {symbols : SymbolTable} {event : Event}
    (h : event ∈ Draft.useEvents symbols (Draft.uses d.futures)) :
    event.location ∈ es.map Emission.location := by
  obtain ⟨u, hu, h⟩ := List.mem_filterMap.mp h
  obtain ⟨value, -, rfl⟩ := Option.map_eq_some_iff.mp h
  exact (accounts_of_readLines hread hemitted).mem_locations_of_use hu

/-- A literal has its own place, and it is used at the location of a word of a line. -/
theorem location_of_ofLiteral {d' : Draft} {l : (Word × Patch) × Nat} {event : Event}
    (hl : l ∈ d'.placed d.literals) (h : event ∈ Event.ofLiteral l) :
    event.location = l.2 ∨ event.location ∈ es.map Emission.location := by
  obtain rfl | h := List.mem_cons.mp h
  · exact .inl rfl
  · rw [List.mem_singleton.mp h]
    have hmem := List.mem_of_getElem? (Draft.mem_placed_iff.mp hl).2.2
    exact .inr ((accounts_of_readLines hread hemitted).mem_locations_of_literal hmem)

theorem location_lt {event : Event} (h : event ∈ es.map Event.put ++ d.resolution) :
    event.location < size := by
  have hsize := size_of_readLines hread
  obtain hline | hresolution := List.mem_append.mp h
  · obtain ⟨e, he, rfl⟩ := List.mem_map.mp hline
    exact location_lt_of_mem hread hemitted (List.mem_map_of_mem he)
  obtain hsymbol | hlater := List.mem_append.mp hresolution
  · obtain ⟨u, hu, rfl⟩ := List.mem_map.mp hsymbol
    exact hsize ▸ (Draft.mem_placed_iff.mp hu).2.1
  obtain hliteral | huse := List.mem_append.mp hlater
  · obtain ⟨l, hl, hevent⟩ := List.mem_flatMap.mp hliteral
    obtain hplace | hline := location_of_ofLiteral hread hemitted hl hevent
    · have hroom := (Draft.mem_placed_iff.mp hl).2.1
      rw [(Draft.leads_withSymbols d).size, hsize] at hroom
      exact hplace ▸ hroom
    · exact location_lt_of_mem hread hemitted hline
  · exact location_lt_of_mem hread hemitted (location_of_useEvents hread hemitted huse)

/-- The word of a literal stays in its place, unless a line put a word there too. -/
theorem getElem?_of_placed {l : Word × Patch} {place : Nat}
    (hl : (l, place) ∈ d.withSymbols.placed d.literals)
    (hline : place ∉ es.map Emission.location) :
    (assemble size text).memory[place]? = some l.1 := by
  obtain ⟨before, after, hsplit⟩ := List.append_of_mem hl
  have hplaces : ((before ++ (l, place) :: after).map Prod.snd).Nodup := by
    rw [← hsplit, Draft.placed, List.zipIdx_map_snd]
    exact List.nodup_range'
  rw [List.map_append, List.map_cons] at hplaces
  have hnew : place ∉ after.map Prod.snd :=
    (List.nodup_cons.mp (List.nodup_append.mp hplaces).2.1).1
  have hevents : es.map Event.put ++ d.resolution =
      (es.map Event.put ++ ((d.placed d.undefinedSymbols).map Event.ofSymbol ++
        before.flatMap Event.ofLiteral)) ++ Event.put ⟨place, l.1, .nothing⟩ ::
          (Event.patch l.2 place :: (after.flatMap Event.ofLiteral ++
            Draft.useEvents d.withSymbols.symbols (Draft.uses d.futures))) := by
    unfold Draft.resolution
    rw [hsplit, List.flatMap_append, List.flatMap_cons]
    simp only [Event.ofLiteral, List.append_assoc, List.cons_append, List.nil_append]
  have hlt : place < (Memory.blank size).size := by
    rw [Memory.blank, Array.size_replicate]
    have hput : .put ⟨place, l.1, .nothing⟩ ∈ es.map Event.put ++ d.resolution := by
      rw [hevents]
      exact List.mem_append_right _ List.mem_cons_self
    exact location_lt hread hemitted hput
  rw [memory_eq hread hemitted, hevents]
  refine Event.getElem?_replay_put (e := ⟨place, l.1, .nothing⟩) hlt fun event hevent => ?_
  obtain rfl | hevent := List.mem_cons.mp hevent
  · have hmem := List.mem_of_getElem? (Draft.mem_placed_iff.mp hl).2.2
    exact ne_of_mem_of_not_mem
      ((accounts_of_readLines hread hemitted).mem_locations_of_literal hmem) hline
  obtain hliteral | huse := List.mem_append.mp hevent
  · obtain ⟨l', hl', hevent⟩ := List.mem_flatMap.mp hliteral
    have hplaced : l' ∈ d.withSymbols.placed d.literals := by
      rw [hsplit]
      exact List.mem_append_right _ (List.mem_cons_of_mem _ hl')
    obtain hplace | hline' := location_of_ofLiteral hread hemitted hplaced hevent
    · rw [hplace]
      exact ne_of_mem_of_not_mem (List.mem_map_of_mem hl') hnew
    · exact ne_of_mem_of_not_mem hline' hline
  · exact ne_of_mem_of_not_mem (location_of_useEvents hread hemitted huse) hline

/-- Without an error every reference gets its value. -/
theorem settles_of_succeeded (hsucceeded : (assemble size text).succeeded = true) {e : Emission}
    (he : e ∈ es) {p : Patch} (hp : e.pending.patch? = some p) :
    ∃ v, .patch p v ∈ d.resolution ∧ Draft.patchFits p (p.signed v) = true ∧
      e.Resolves (assemble size text).symbols d.resolution p v := by
  have haccounts := accounts_of_readLines hread hemitted
  have hclean := Draft.clean_ofLines text hsucceeded
  rw [ofLines_of_readLines hread] at hclean
  cases hpending : e.pending with
  | nothing =>
    rw [hpending] at hp
    cases hp
  | symbol name patch =>
    obtain rfl : patch = p := Option.some.inj ((congrArg Pending.patch? hpending).symm.trans hp)
    have hmem : (name, patch) ∈ Draft.uses d.futures := by
      refine haccounts.uses.mem_iff.mpr (List.mem_filterMap.mpr ⟨e, he, ?_⟩)
      simp only [Emission.use?, hpending]
    obtain ⟨value, hvalue⟩ := Draft.get?_withSymbols (Draft.clean_withSymbols hclean)
      (Draft.contains_or_mem_undefinedSymbols hmem)
    have hvalue' := (Draft.leads_withLiterals d).symbols.get? hvalue
    refine ⟨value, ?_, Draft.patchFits_of_clean (Draft.clean_withUses hclean) hmem hvalue', ?_⟩
    · refine List.mem_append_right _ (List.mem_append_right _ ?_)
      exact List.mem_filterMap.mpr ⟨(name, patch), hmem, by rw [hvalue]; rfl⟩
    · refine .symbol hpending ?_
      rw [symbols_of_readLines hread]
      exact (Draft.leads_resolve_withSymbols d).symbols.get? hvalue
  | literal w patch =>
    obtain rfl : patch = p := Option.some.inj ((congrArg Pending.patch? hpending).symm.trans hp)
    have hmem : (w, patch) ∈ d.literals := by
      rw [haccounts.literals]
      refine List.mem_filterMap.mpr ⟨e, he, ?_⟩
      simp only [Emission.literal?, hpending]
    obtain ⟨hunplaced, hfits⟩ := Draft.literals_of_clean (Draft.clean_withLiterals hclean)
    obtain ⟨j, hj⟩ := List.mem_iff_getElem?.mp hmem
    obtain ⟨hlength, -⟩ := List.getElem?_eq_some_iff.mp hj
    have hroom := List.drop_eq_nil_iff.mp hunplaced
    have hplaced : ((w, patch), d.withSymbols.location + j) ∈ d.withSymbols.placed d.literals := by
      refine Draft.mem_placed_iff.mpr ⟨Nat.le_add_right _ _, by omega, ?_⟩
      rw [Nat.add_sub_cancel_left]
      exact hj
    refine ⟨((d.withSymbols.location + j : Nat) : Int), ?_, hfits _ hplaced, ?_⟩
    · exact mem_resolution_of_placed hplaced (List.mem_cons_of_mem _ List.mem_cons_self)
    · exact .literal hpending (mem_resolution_of_placed hplaced List.mem_cons_self)

end Record

end Program

section Assemble

/-- The words that resolution inserts are those of the undefined symbols and then those of the
literals, each in the order of the program. -/
theorem assemble_layout (size : Nat) (text : String) :
    let d := (Draft.start size).readLines 1 (Text.lines text)
    let es := (Draft.start size).readEmissions 1 (Text.lines text)
    Layout size text d es
      ((firstOfEach (d.references es)).filter fun r => !d.symbols.contains r.1)
      (es.filterMap Emission.literal?) := by
  intro d es
  have hread : (Draft.start size).readLines 1 (Text.lines text) = d := rfl
  have hemitted : (Draft.start size).readEmissions 1 (Text.lines text) = es := rfl
  have hcollects : d.Collects es := Draft.collects_readLines size (Text.lines text)
  have hsize := size_of_readLines hread
  have hnodup := nodup_of_readLines hread
  have hlocated := located_of_readLines hread
  rw [← hcollects.undefinedSymbols_eq, ← (accounts_of_readLines hread hemitted).literals]
  exact
    { inside := hlocated
      entry := ⟨fun l line h => h.entrySymbol, Draft.entrySymbol_of_not_endsWith⟩
      distinct := hnodup
      symbol := fun i u => get?_of_undefined hread
      warnings := warnings_eq hread
      literal := by
        intro j l hl hroom
        have hplaced := mem_placed_literals hnodup (hsize.symm ▸ hlocated) hl
          (hsize.symm ▸ hroom)
        refine ⟨mem_resolution_of_placed hplaced List.mem_cons_self,
          mem_resolution_of_placed hplaced (List.mem_cons_of_mem _ List.mem_cons_self),
          fun hline => getElem?_of_placed hread hemitted hplaced fun hmem => ?_⟩
        obtain ⟨e, he, heq⟩ := List.mem_map.mp hmem
        exact hline e he heq
      label := fun l line name hends hname => get?_endLabel hread hends hname
      refused := filter_isLocationError_eq hread
      memory := memory_eq hread hemitted
      written := fun event => location_lt hread hemitted
      settled := fun hsucceeded e he p => settles_of_succeeded hread hemitted hsucceeded he }

def openReferences : String := " LDA Y\n ADD =5=\n JMP X\nL END X"

theorem endsWith_openReferences :
    Draft.EndsWith 8 (Text.lines openReferences) ⟨some "L", "END", "X", " X"⟩ 4 := by
  have hlast : ((Draft.start 8).draftAt? 1 (Text.lines openReferences) 3).map
      (fun d => (d.obey (.directive .finish) ⟨some "L", "END", "X", " X"⟩ 4).2) =
        some (.ok ()) := by
    decide +kernel
  obtain ⟨d, hdraft, hobey⟩ := Option.map_eq_some_iff.mp hlast
  exact ⟨3, d, "L END X", rfl, hdraft, by decide +kernel, by decide +kernel, by decide +kernel,
    hobey⟩

/-- In eight words there is room for all that is inserted. In five there is none for the literal. -/
theorem assemble_layout_openReferences :
    (assemble 8 openReferences).symbols.get? "Y" = some 3 ∧
      (assemble 8 openReferences).symbols.get? "X" = some 4 ∧
      (assemble 8 openReferences).warnings.map (fun g => (g.line, g.error)) =
        [(1, .undefinedSymbol "Y" 3), (3, .undefinedSymbol "X" 4)] ∧
      (assemble 8 openReferences).memory[5]? = some (Word.wrap false 5) ∧
      (assemble 8 openReferences).symbols.get? "L" = some 6 ∧
      (∃ v, .patch ⟨1, false, Field.address, 2⟩ v ∈
        ((Draft.start 8).readLines 1 (Text.lines openReferences)).resolution) ∧
      (Draft.ofLines 5 (Text.lines openReferences)).reports.filter isLocationError =
        [Draft.fullReport 5 2] := by
  have hroomy : Layout 8 openReferences _ _ [("Y", 1), ("X", 3)]
      [(Word.wrap false 5, ⟨1, false, Field.address, 2⟩)] := assemble_layout 8 openReferences
  have htight : Layout 5 openReferences _ _ [("Y", 1), ("X", 3)]
      [(Word.wrap false 5, ⟨1, false, Field.address, 2⟩)] := assemble_layout 5 openReferences
  have hlocation : ((Draft.start 8).readLines 1 (Text.lines openReferences)).location = 3 := by
    decide +kernel
  have hlines : ∀ e ∈ (Draft.start 8).readEmissions 1 (Text.lines openReferences),
      e.location ≠ 5 := by
    decide +kernel
  refine ⟨?_, ?_, ?_, ?_, ?_, ?_, ?_⟩
  · have hvalue := hroomy.symbol 0 ("Y", 1) rfl (by rw [hlocation]; decide)
    rwa [hlocation] at hvalue
  · have hvalue := hroomy.symbol 1 ("X", 3) rfl (by rw [hlocation]; decide)
    rwa [hlocation] at hvalue
  · have hwarnings := hroomy.warnings
    rw [hlocation] at hwarnings
    exact hwarnings
  · have hliteral := hroomy.literal 0 _ rfl
    rw [hlocation] at hliteral
    exact (hliteral (by decide)).2.2 hlines
  · have hvalue := hroomy.label _ 4 "L" endsWith_openReferences rfl (by decide +kernel) (by decide)
    rwa [hlocation] at hvalue
  · obtain ⟨v, hpatch, -⟩ := hroomy.settled (by decide +kernel)
      ⟨1, Word.wrap false 321, .literal (Word.wrap false 5) ⟨1, false, Field.address, 2⟩⟩
      (by decide +kernel) _ rfl
    exact ⟨v, hpatch⟩
  · have hrefused := htight.refused
    have hread : ((Draft.start 5).readLines 1 (Text.lines openReferences)).location = 3 ∧
        ((Draft.start 5).readLines 1 (Text.lines openReferences)).reports = [] := by decide +kernel
    rw [hread.1, hread.2] at hrefused
    exact hrefused

end Assemble

end Assembly

end MixComputer
