import MixComputer.Proofs.Assembly.Program

/-!
Places that are used more than once. Memory is what is left of a history, in which words are put
into places and references get their values. A word that is put into a place takes the place of
what was there, but the references that came with the earlier word are still known, and change the
later one.
-/
namespace MixComputer

namespace Assembly

open Source

/-- A word is put into a place, or a reference gets its value there. -/
inductive Event where
  | put (e : Emission)
  | patch (patch : Patch) (value : Int)
deriving DecidableEq

namespace Event

def location : Event → Nat
  | put e => e.location
  | patch p _ => p.location

def act (w : Word) : Event → Word
  | put e => e.word
  | patch p value => p.settle w value

def apply (memory : Memory) (event : Event) : Memory :=
  memory.write event.location (event.act (memory.getD event.location Word.zero))

def asks? : Event → Option Patch
  | put e => e.pending.patch?
  | patch _ _ => none

def settles? : Event → Option Patch
  | put _ => none
  | patch p _ => some p

section Replay

variable {events before after : List Event} {memory : Memory} {place : Nat} {w : Word}

/-- A place is changed by the events there, one after the other. -/
theorem getElem?_foldl_apply (h : memory[place]? = some w) :
    (events.foldl apply memory)[place]? =
      some ((events.filter (·.location == place)).foldl act w) := by
  induction events generalizing memory w with
  | nil => exact h
  | cons event events ih =>
    rw [List.foldl_cons, List.filter_cons]
    by_cases hplace : event.location = place
    · subst hplace
      obtain ⟨hlt, -⟩ := Array.getElem?_eq_some_iff.mp h
      have hword : memory.getD event.location Word.zero = w := by
        rw [Array.getD_eq_getD_getElem?, h]
        rfl
      rw [if_pos (beq_self_eq_true _)]
      refine ih ?_
      rw [apply, hword]
      exact Memory.getElem?_write_self _ _ hlt
    · rw [if_neg (by simpa using hplace)]
      exact ih ((Memory.getElem?_write_ne _ _ hplace).trans h)

/-- So what was in a place before a word was put there does not matter. -/
theorem getElem?_foldl_apply_put {e : Emission} (hlt : e.location < memory.size) :
    ((before ++ put e :: after).foldl apply memory)[e.location]? =
      some ((after.filter (·.location == e.location)).foldl act e.word) := by
  have hput : (put e).location = e.location := rfl
  rw [getElem?_foldl_apply (Array.getElem?_eq_getElem hlt), List.filter_append, List.filter_cons,
    hput, if_pos (beq_self_eq_true _), List.foldl_append, List.foldl_cons]
  rfl

end Replay

end Event

/-- A list whose elements all have a part, with one part, has one element. -/
theorem exists_eq_singleton_of_filterMap {α β : Type} {part : α → Option β} {as : List α} {b : β}
    (hall : ∀ a ∈ as, part a ≠ none) (h : as.filterMap part = [b]) :
    ∃ a, as = [a] ∧ part a = some b := by
  obtain ⟨earlier, a, later, rfl, hearlier, ha, hlater⟩ := List.filterMap_eq_cons_iff.mp h
  have hfirst : earlier = [] := List.eq_nil_iff_forall_not_mem.mpr fun a' ha' =>
    hall a' (List.mem_append_left _ ha') (hearlier a' ha')
  have hlast : later = [] := List.eq_nil_iff_forall_not_mem.mpr fun a' ha' =>
    hall a' (List.mem_append_right _ (List.mem_cons_of_mem a ha'))
      (List.filterMap_eq_nil_iff.mp hlater a' ha')
  rw [hfirst, hlast]
  exact ⟨a, rfl, ha⟩

theorem Pending.eq_nothing_of_patch? {pending : Pending} (h : pending.patch? = none) :
    pending = .nothing := by
  cases pending with
  | nothing => rfl
  | symbol name patch => cases h
  | literal w patch => cases h

/-- The reference that came with a word gets the value of its symbol, or the place of its
literal. -/
inductive Emission.Resolves (e : Emission) (symbols : SymbolTable) (events : List Event)
    (p : Patch) : Int → Prop
  | symbol {name : String} {value : Int} (hpending : e.pending = .symbol name p)
      (hvalue : symbols.get? name = some value) : Resolves e symbols events p value
  | literal {w : Word} {place : Nat} (hpending : e.pending = .literal w p)
      (hplace : .put ⟨place, w, .nothing⟩ ∈ events) : Resolves e symbols events p place

theorem Emission.Resolves.patch? {e : Emission} {symbols : SymbolTable} {events : List Event}
    {p : Patch} {value : Int} (h : e.Resolves symbols events p value) :
    e.pending.patch? = some p := by
  cases h with
  | symbol hpending hvalue => exact congrArg Pending.patch? hpending
  | literal hpending hplace => exact congrArg Pending.patch? hpending

namespace Draft

def literalEvents (d : Draft) : List (Word × Patch) → List Event
  | [] => []
  | l :: ls =>
    .put ⟨d.location, l.1, .nothing⟩ :: .patch l.2 d.location ::
      (d.placeLiteral l.1 l.2).literalEvents ls

def useEvents (symbols : SymbolTable) (us : List (String × Patch)) : List Event :=
  us.filterMap fun u => (symbols.get? u.1).map (Event.patch u.2)

def resolveEvents (d : Draft) : List Event :=
  (d.symbolEmissions d.undefinedSymbols).map Event.put ++
    (d.withSymbols.literalEvents d.literals ++ useEvents d.withSymbols.symbols (uses d.futures))

/-- All events in the assembly of a program: its lines put words into memory, and then undefined
symbols, literals and uses are resolved. -/
def history (size : Nat) (lines : List String) : List Event :=
  ((start size).readEmissions 1 lines).map Event.put ++
    ((start size).readLines 1 lines).resolveEvents

/-- The events lead from one draft to the other, and put words inside memory only. -/
structure Replays (d : Draft) (events : List Event) (d' : Draft) : Prop where
  memory : d'.memory = events.foldl Event.apply d.memory
  size : d'.memory.size = d.memory.size
  inside : ∀ e, .put e ∈ events → e.location < d.memory.size

section Replays

variable {d d' d'' : Draft} {events events' : List Event}

theorem Replays.refl (d : Draft) : d.Replays [] d :=
  ⟨rfl, rfl, fun _ h => absurd h List.not_mem_nil⟩

theorem Replays.trans (h : d.Replays events d') (h' : d'.Replays events' d'') :
    d.Replays (events ++ events') d'' where
  memory := by rw [List.foldl_append, ← h.memory, h'.memory]
  size := h'.size.trans h.size
  inside := by
    intro e he
    rcases List.mem_append.mp he with hfirst | hsecond
    · exact h.inside e hfirst
    · rw [← h.size]
      exact h'.inside e hsecond

theorem replays_put {e : Emission} (hlt : e.location < d.memory.size)
    (hmemory : d'.memory = d.memory.write e.location e.word) : d.Replays [.put e] d' := by
  refine ⟨hmemory, ?_, ?_⟩
  · rw [hmemory, Memory.size_write]
  · intro e' he'
    cases List.mem_singleton.mp he'
    exact hlt

theorem replays_applyPatch {patch : Patch} {value : Int}
    (hclean : (d.applyPatch patch value).Clean) :
    d.Replays [.patch patch value] (d.applyPatch patch value) := by
  refine ⟨?_, (leads_applyPatch d patch value).size, fun e he => ?_⟩
  · rw [applyPatch_eq, if_pos (patchFits_of_clean_applyPatch hclean)]
    rfl
  · cases List.mem_singleton.mp he

theorem replays_foldl_allocateSymbol {us : List (String × Nat)}
    (hclean : (us.foldl (fun d u => d.allocateSymbol u.1 u.2) d).Clean) :
    d.Replays ((d.symbolEmissions us).map Event.put)
      (us.foldl (fun d u => d.allocateSymbol u.1 u.2) d) := by
  induction us generalizing d with
  | nil => exact Replays.refl d
  | cons u us ih =>
    rw [List.foldl_cons] at hclean ⊢
    have hrest := leads_foldl leads_allocateSymbol us (d.allocateSymbol u.1 u.2)
    obtain ⟨hlt, symbols, -, heq⟩ := allocateSymbol_of_clean (hrest.clean hclean)
    have hput : d.Replays [.put ⟨d.location, Word.zero, .nothing⟩] (d.allocateSymbol u.1 u.2) := by
      refine replays_put hlt ?_
      rw [heq]
      rfl
    rw [symbolEmissions, emissionHere, if_pos hlt]
    exact hput.trans (ih hclean)

theorem replays_foldl_placeLiteral {ls : List (Word × Patch)}
    (hclean : (ls.foldl (fun d l => d.placeLiteral l.1 l.2) d).Clean) :
    d.Replays (d.literalEvents ls) (ls.foldl (fun d l => d.placeLiteral l.1 l.2) d) := by
  induction ls generalizing d with
  | nil => exact Replays.refl d
  | cons l ls ih =>
    rw [List.foldl_cons] at hclean ⊢
    have hrest := leads_foldl leads_placeLiteral ls (d.placeLiteral l.1 l.2)
    have hclean' := hrest.clean hclean
    obtain ⟨hlt, heq⟩ := placeLiteral_of_clean hclean'
    have hput : d.Replays [.put ⟨d.location, l.1, .nothing⟩]
        { d with memory := d.memory.write d.location l.1, location := d.location + 1 } :=
      replays_put hlt rfl
    have hpatch := replays_applyPatch (heq ▸ hclean')
    rw [← heq] at hpatch
    exact (hput.trans hpatch).trans (ih hclean)

theorem replays_foldl_patchUse {us : List (String × Patch)}
    (hclean : (us.foldl patchUse d).Clean) :
    d.Replays (useEvents d.symbols us) (us.foldl patchUse d) := by
  induction us generalizing d with
  | nil => exact Replays.refl d
  | cons u us ih =>
    rw [List.foldl_cons] at hclean ⊢
    have hrest := ih hclean
    rw [symbols_patchUse] at hrest
    have hclean' := (leads_foldl leads_patchUse us (d.patchUse u)).clean hclean
    unfold useEvents
    cases hvalue : d.symbols.get? u.1 with
    | none =>
      rw [List.filterMap_cons_none (by rw [hvalue]; rfl)]
      rw [patchUse_of_get?_none hvalue] at hrest ⊢
      exact hrest
    | some value =>
      rw [List.filterMap_cons_some (by rw [hvalue]; rfl)]
      rw [patchUse_of_get? hvalue] at hrest hclean' ⊢
      exact (replays_applyPatch hclean').trans hrest

theorem Replays.quiet (h : d.Replays events d') (hquiet : d'.Quiet d'') : d.Replays events d'' :=
  ⟨hquiet.memory.trans h.memory, (congrArg Array.size hquiet.memory).trans h.size, h.inside⟩

theorem replays_resolve (hclean : d.resolve.Clean) : d.Replays d.resolveEvents d.resolve := by
  have hsymbols := replays_foldl_allocateSymbol (clean_withSymbols hclean)
  have hliterals := replays_foldl_placeLiteral (clean_withLiterals hclean)
  have huses := replays_foldl_patchUse (clean_withUses hclean)
  rw [symbols_withLiterals] at huses
  exact (hsymbols.trans (hliterals.trans huses)).quiet (quiet_resolve d)

/-- Without an error, memory is what the history leaves. -/
theorem replays_ofLines {size : Nat} {lines : List String} (hclean : (ofLines size lines).Clean) :
    (start size).Replays (history size lines) (ofLines size lines) := by
  have haccounts := accounts_readLines size lines
  have hsize := (leads_readLines (start size) 1 lines).size
  have hread : (start size).Replays (((start size).readEmissions 1 lines).map Event.put)
      ((start size).readLines 1 lines) := by
    refine ⟨?_, hsize, fun e he => ?_⟩
    · rw [haccounts.memory, List.foldl_map]
      rfl
    · obtain ⟨e', he', heq⟩ := List.mem_map.mp he
      cases heq
      rw [← hsize]
      exact (haccounts.sound e he').inside
  exact hread.trans (replays_resolve hclean)

end Replays

section References

variable {d : Draft} {size : Nat} {lines : List String} {e : Emission} {p : Patch} {v : Int}

/-- References are to symbols or to literals. -/
theorem perm_filterMap_patch? (es : List Emission) :
    (es.filterMap fun e => e.pending.patch?).Perm
      ((es.filterMap Emission.literal?).map Prod.snd ++
        (es.filterMap Emission.use?).map Prod.snd) := by
  induction es with
  | nil => exact List.Perm.refl _
  | cons e es ih =>
    obtain ⟨location, word, pending⟩ := e
    cases pending with
    | nothing => exact ih
    | literal w patch => exact ih.cons patch
    | symbol name patch => exact (ih.cons patch).trans List.perm_middle.symm

theorem pending_of_mem_symbolEmissions {us : List (String × Nat)}
    (h : e ∈ d.symbolEmissions us) : e.pending = .nothing := by
  induction us generalizing d with
  | nil => exact absurd h List.not_mem_nil
  | cons u us ih =>
    rcases List.mem_append.mp h with hhere | hlater
    · unfold emissionHere at hhere
      split at hhere
      · rw [List.mem_singleton.mp hhere]
      · exact absurd hhere List.not_mem_nil
    · exact ih hlater

theorem settles?_literalEvents (d : Draft) (ls : List (Word × Patch)) :
    (d.literalEvents ls).filterMap Event.settles? = ls.map Prod.snd := by
  induction ls generalizing d with
  | nil => rfl
  | cons l ls ih => exact congrArg (l.2 :: ·) (ih (d.placeLiteral l.1 l.2))

theorem asks?_literalEvents (d : Draft) (ls : List (Word × Patch)) :
    (d.literalEvents ls).filterMap Event.asks? = [] := by
  induction ls generalizing d with
  | nil => rfl
  | cons l ls ih => exact ih (d.placeLiteral l.1 l.2)

theorem settles?_useEvents {symbols : SymbolTable} {us : List (String × Patch)}
    (h : ∀ u ∈ us, ∃ value, symbols.get? u.1 = some value) :
    (useEvents symbols us).filterMap Event.settles? = us.map Prod.snd := by
  induction us with
  | nil => rfl
  | cons u us ih =>
    obtain ⟨value, hvalue⟩ := h u List.mem_cons_self
    have hrest := ih fun u' hu' => h u' (List.mem_cons_of_mem u hu')
    unfold useEvents at hrest ⊢
    rw [List.filterMap_cons_some (by rw [hvalue]; rfl)]
    exact congrArg (u.2 :: ·) hrest

theorem asks?_useEvents (symbols : SymbolTable) (us : List (String × Patch)) :
    (useEvents symbols us).filterMap Event.asks? = [] := by
  refine List.filterMap_eq_nil_iff.mpr fun event hevent => ?_
  obtain ⟨u, -, hu⟩ := List.mem_filterMap.mp hevent
  obtain ⟨value, -, rfl⟩ := Option.map_eq_some_iff.mp hu
  rfl

/-- Nothing is asked for during resolution. -/
theorem asks?_resolveEvents (d : Draft) : d.resolveEvents.filterMap Event.asks? = [] := by
  have hsymbols : ((d.symbolEmissions d.undefinedSymbols).map Event.put).filterMap Event.asks? =
      [] := by
    refine List.filterMap_eq_nil_iff.mpr fun event hevent => ?_
    obtain ⟨e, he, rfl⟩ := List.mem_map.mp hevent
    exact congrArg Pending.patch? (pending_of_mem_symbolEmissions he)
  rw [resolveEvents, List.filterMap_append, List.filterMap_append, hsymbols,
    asks?_literalEvents, asks?_useEvents]
  rfl

/-- Without an error, every reference gets a value, and gets it once. -/
theorem perm_settles? (hclean : (ofLines size lines).Clean) :
    ((history size lines).filterMap Event.settles?).Perm
      ((history size lines).filterMap Event.asks?) := by
  have haccounts := accounts_readLines size lines
  have hputs (es : List Emission) : (es.map Event.put).filterMap Event.settles? = [] :=
    List.filterMap_eq_nil_iff.mpr fun event hevent => by
      obtain ⟨e, -, rfl⟩ := List.mem_map.mp hevent
      rfl
  have hvalues : ∀ u ∈ uses ((start size).readLines 1 lines).futures, ∃ value,
      ((start size).readLines 1 lines).withSymbols.symbols.get? u.1 = some value :=
    fun u hu => get?_withSymbols (clean_withSymbols hclean) (contains_or_mem_undefinedSymbols hu)
  -- Reading a line only asks, and resolution only settles.
  rw [history, List.filterMap_append, List.filterMap_append, asks?_resolveEvents, List.append_nil,
    hputs, List.nil_append, resolveEvents, List.filterMap_append, List.filterMap_append, hputs,
    List.nil_append, settles?_literalEvents, settles?_useEvents hvalues, haccounts.literals,
    List.filterMap_map]
  refine List.Perm.trans ?_ (perm_filterMap_patch? _).symm
  exact (haccounts.uses.map Prod.snd).append_left _

/-- A reference that a word came with is at the location of the word. -/
theorem location_asks? {event : Event} (h : event ∈ history size lines)
    (hasks : event.asks? = some p) : p.location = event.location := by
  rcases List.mem_append.mp h with hread | hresolve
  · obtain ⟨e, he, rfl⟩ := List.mem_map.mp hread
    exact ((accounts_readLines size lines).sound e he).patch p hasks
  · have hnone := List.filterMap_eq_nil_iff.mp (asks?_resolveEvents _) event hresolve
    rw [hnone] at hasks
    cases hasks

theorem exists_place_of_mem_literalEvents {ls : List (Word × Patch)}
    (h : .patch p v ∈ d.literalEvents ls) :
    ∃ w, ∃ place : Nat, (w, p) ∈ ls ∧ v = place ∧
      .put ⟨place, w, .nothing⟩ ∈ d.literalEvents ls := by
  induction ls generalizing d with
  | nil => exact absurd h List.not_mem_nil
  | cons l ls ih =>
    rcases List.mem_cons.mp h with hput | h
    · cases hput
    · rcases List.mem_cons.mp h with hpatch | h
      · cases hpatch
        exact ⟨l.1, d.location, List.mem_cons_self, rfl, List.mem_cons_self⟩
      · obtain ⟨w, place, hl, hv, hplace⟩ := ih h
        refine ⟨w, place, List.mem_cons_of_mem l hl, hv, ?_⟩
        exact List.mem_cons_of_mem _ (List.mem_cons_of_mem _ hplace)

/-- Every value is given to a reference that some word came with. -/
theorem resolves_of_mem_history (h : .patch p v ∈ history size lines) :
    ∃ e, .put e ∈ history size lines ∧ e.location = p.location ∧
      e.Resolves (ofLines size lines).symbols (history size lines) p v := by
  have haccounts := accounts_readLines size lines
  have hfound {e : Emission} (he : e ∈ (start size).readEmissions 1 lines)
      (hresolves : e.Resolves (ofLines size lines).symbols (history size lines) p v) :
      ∃ e, .put e ∈ history size lines ∧ e.location = p.location ∧
        e.Resolves (ofLines size lines).symbols (history size lines) p v :=
    ⟨e, List.mem_append_left _ (List.mem_map_of_mem he),
      ((haccounts.sound e he).patch p hresolves.patch?).symm, hresolves⟩
  rcases List.mem_append.mp h with hread | hresolve
  · obtain ⟨e, -, heq⟩ := List.mem_map.mp hread
    cases heq
  rcases List.mem_append.mp hresolve with hsymbol | hlater
  · obtain ⟨e, -, heq⟩ := List.mem_map.mp hsymbol
    cases heq
  rcases List.mem_append.mp hlater with hliteral | huse
  · obtain ⟨w, place, hl, rfl, hplace⟩ := exists_place_of_mem_literalEvents hliteral
    rw [haccounts.literals] at hl
    obtain ⟨e, he, hpart⟩ := List.mem_filterMap.mp hl
    refine hfound he (.literal (Emission.pending_of_literal? hpart) ?_)
    exact List.mem_append_right _ (List.mem_append_right _ (List.mem_append_left _ hplace))
  · obtain ⟨u, hu, heq⟩ := List.mem_filterMap.mp huse
    obtain ⟨value, hvalue, heq⟩ := Option.map_eq_some_iff.mp heq
    cases heq
    obtain ⟨e, he, hpart⟩ := List.mem_filterMap.mp (haccounts.uses.mem_iff.mp hu)
    exact hfound he (.symbol (Emission.pending_of_use? hpart)
      ((leads_resolve_withSymbols _).symbols.get? hvalue))

end References

section Last

variable {size : Nat} {lines : List String} {before after : List Event} {e : Emission}

/-- What befalls a word that is put into its place last is that references get their values, and
they came with words that were put there before, or with this one. -/
theorem resolves_of_mem_after (hlast : history size lines = before ++ .put e :: after)
    (hafter : ∀ e', .put e' ∈ after → e'.location ≠ e.location) {event : Event}
    (hevent : event ∈ after) (hlocation : event.location = e.location) :
    ∃ p v e', event = .patch p v ∧ .put e' ∈ before ++ [.put e] ∧ e'.location = e.location ∧
      e'.Resolves (ofLines size lines).symbols (history size lines) p v := by
  cases event with
  | put e' => exact absurd hlocation (hafter e' hevent)
  | patch p v =>
    have hmem : .patch p v ∈ history size lines := by
      rw [hlast]
      exact List.mem_append_right _ (List.mem_cons_of_mem _ hevent)
    obtain ⟨e', he', hplace, hresolves⟩ := resolves_of_mem_history hmem
    have hplace' : e'.location = e.location := hplace.trans hlocation
    refine ⟨p, v, e', rfl, ?_, hplace', hresolves⟩
    rw [hlast, List.append_cons] at he'
    rcases List.mem_append.mp he' with hearly | hlate
    · exact hearly
    · exact absurd hplace' (hafter e' hlate)

theorem getElem?_of_last (hclean : (ofLines size lines).Clean)
    (hlast : history size lines = before ++ .put e :: after) :
    (ofLines size lines).memory[e.location]? =
      some ((after.filter (·.location == e.location)).foldl Event.act e.word) := by
  have hreplays := replays_ofLines hclean
  have hinside : e.location < (start size).memory.size := by
    refine hreplays.inside e ?_
    rw [hlast]
    exact List.mem_append_right _ List.mem_cons_self
  rw [hreplays.memory, hlast]
  exact Event.getElem?_foldl_apply_put hinside

/-- Values are given to references after all lines have been read. -/
theorem settles?_eq_none_of_before (hlast : history size lines = before ++ .put e :: after)
    (hasks : e.pending.patch? ≠ none) {event : Event} (hevent : event ∈ before) :
    event.settles? = none := by
  rcases List.append_eq_append_iff.mp hlast with ⟨between, -, hresolve⟩ | ⟨between, hread, -⟩
  · have hmem : .put e ∈ ((start size).readLines 1 lines).resolveEvents := by
      rw [hresolve]
      exact List.mem_append_right _ List.mem_cons_self
    exact absurd (List.filterMap_eq_nil_iff.mp (asks?_resolveEvents _) _ hmem) hasks
  · have hmem : event ∈ ((start size).readEmissions 1 lines).map Event.put := by
      rw [hread]
      exact List.mem_append_left _ hevent
    obtain ⟨e', -, rfl⟩ := List.mem_map.mp hmem
    rfl

/-- The references that get values in a place are those of the words that are put there. -/
theorem perm_settles?_filter (hclean : (ofLines size lines).Clean) (place : Nat) :
    (((history size lines).filter (·.location == place)).filterMap Event.settles?).Perm
      (((history size lines).filter (·.location == place)).filterMap Event.asks?) := by
  have hsettles : ∀ event ∈ history size lines, ∀ p, event.settles? = some p →
      p.location = event.location := by
    intro event _ p hp
    cases event with
    | put e => cases hp
    | patch patch value =>
      cases hp
      rfl
  rw [← Emission.filter_filterMap_location hsettles,
    ← Emission.filter_filterMap_location fun event hevent p => location_asks? hevent]
  exact (perm_settles? hclean).filter _

/-- If no other word that was put there came with a reference, the events after the last word are
the one by which its own reference gets a value, or there are none. -/
theorem settles?_after_last (hclean : (ofLines size lines).Clean)
    (hlast : history size lines = before ++ .put e :: after)
    (hafter : ∀ e', .put e' ∈ after → e'.location ≠ e.location)
    (hbefore : ∀ e', .put e' ∈ before → e'.location = e.location → e'.pending = .nothing) :
    (after.filter (·.location == e.location)).filterMap Event.settles? =
      e.pending.patch?.toList := by
  have hfilter : (history size lines).filter (·.location == e.location) =
      before.filter (·.location == e.location) ++
        .put e :: after.filter (·.location == e.location) := by
    have hput : (Event.put e).location = e.location := rfl
    rw [hlast, List.filter_append, List.filter_cons, hput, if_pos (beq_self_eq_true _)]
  have hasks : (before.filter (·.location == e.location)).filterMap Event.asks? = [] := by
    refine List.filterMap_eq_nil_iff.mpr fun event hevent => ?_
    obtain ⟨hmem, hlocation⟩ := List.mem_filter.mp hevent
    cases event with
    | put e' => exact congrArg Pending.patch? (hbefore e' hmem (eq_of_beq hlocation))
    | patch p v => rfl
  have hasks' : (after.filter (·.location == e.location)).filterMap Event.asks? = [] := by
    refine List.filterMap_eq_nil_iff.mpr fun event hevent => ?_
    obtain ⟨hmem, hlocation⟩ := List.mem_filter.mp hevent
    cases event with
    | put e' => exact absurd (eq_of_beq hlocation) (hafter e' hmem)
    | patch p v => rfl
  have hperm := perm_settles?_filter hclean e.location
  rw [hfilter, List.filterMap_append, List.filterMap_append, hasks, List.nil_append,
    List.filterMap_cons_none rfl] at hperm
  cases hpatch : e.pending.patch? with
  | none =>
    have hasks₀ : (Event.put e).asks? = none := hpatch
    rw [List.filterMap_cons_none hasks₀, hasks'] at hperm
    exact (List.append_eq_nil_iff.mp (List.perm_nil.mp hperm)).2
  | some p =>
    have hasks₀ : (Event.put e).asks? = some p := hpatch
    rw [List.filterMap_cons_some hasks₀, hasks'] at hperm
    have hnone : (before.filter (·.location == e.location)).filterMap Event.settles? = [] := by
      refine List.filterMap_eq_nil_iff.mpr fun event hevent => ?_
      exact settles?_eq_none_of_before hlast (by simp [hpatch]) (List.mem_of_mem_filter hevent)
    rw [hnone] at hperm
    exact List.perm_singleton.mp hperm

/-- So the last word is left alone, or changed by its own reference and by nothing else. -/
theorem filter_after_last (hclean : (ofLines size lines).Clean)
    (hlast : history size lines = before ++ .put e :: after)
    (hafter : ∀ e', .put e' ∈ after → e'.location ≠ e.location)
    (hbefore : ∀ e', .put e' ∈ before → e'.location = e.location → e'.pending = .nothing) :
    e.pending = .nothing ∧ after.filter (·.location == e.location) = [] ∨
      ∃ p v, e.Resolves (ofLines size lines).symbols (history size lines) p v ∧
        after.filter (·.location == e.location) = [.patch p v] := by
  have hsettles := settles?_after_last hclean hlast hafter hbefore
  have hsource {event : Event} (hevent : event ∈ after.filter (·.location == e.location)) :
      ∃ p v e', event = .patch p v ∧ .put e' ∈ before ++ [.put e] ∧ e'.location = e.location ∧
        e'.Resolves (ofLines size lines).symbols (history size lines) p v := by
    obtain ⟨hmem, hlocation⟩ := List.mem_filter.mp hevent
    exact resolves_of_mem_after hlast hafter hmem (eq_of_beq hlocation)
  have hpatches : ∀ event ∈ after.filter (·.location == e.location), event.settles? ≠ none := by
    intro event hevent
    obtain ⟨p, v, e', rfl, -⟩ := hsource hevent
    exact nofun
  cases hpatch : e.pending.patch? with
  | none =>
    rw [hpatch] at hsettles
    refine .inl ⟨Pending.eq_nothing_of_patch? hpatch, ?_⟩
    refine List.eq_nil_iff_forall_not_mem.mpr fun event hevent => ?_
    exact hpatches event hevent (List.filterMap_eq_nil_iff.mp hsettles event hevent)
  | some p =>
    rw [hpatch] at hsettles
    obtain ⟨event, honly, -⟩ := exists_eq_singleton_of_filterMap hpatches hsettles
    obtain ⟨p, v, e', rfl, he', hplace, hresolves⟩ := hsource (honly ▸ List.mem_singleton.mpr rfl)
    have hsame : e' = e := by
      rcases List.mem_append.mp he' with hearly | hhere
      · have hpatch' := hresolves.patch?
        rw [hbefore e' hearly hplace] at hpatch'
        cases hpatch'
      · exact Event.put.inj (List.mem_singleton.mp hhere)
    subst hsame
    exact .inr ⟨p, v, hresolves, honly⟩

end Last

end Draft

section Assemble

variable {size : Nat} {text : String} {before after : List Event} {e : Emission}

/-- Memory is what the history of a program without errors leaves, in which every reference gets
its value once. So the content of a place is the word that was put there last, changed by all
references that get their values there afterwards; they came with this word, or with one that it
has replaced. If no word before it came with a reference, the content depends on the last word
alone. -/
theorem assemble_last_word (hsucceeded : (assemble size text).succeeded = true)
    (hlast : Draft.history size (Text.lines text) = before ++ .put e :: after)
    (hafter : ∀ e', .put e' ∈ after → e'.location ≠ e.location) :
    (assemble size text).memory =
        (Draft.history size (Text.lines text)).foldl Event.apply (Memory.blank size) ∧
      ((Draft.history size (Text.lines text)).filterMap Event.settles?).Perm
        ((Draft.history size (Text.lines text)).filterMap Event.asks?) ∧
      (assemble size text).memory[e.location]? =
        some ((after.filter (·.location == e.location)).foldl Event.act e.word) ∧
      (∀ event ∈ after, event.location = e.location → ∃ p v e', event = .patch p v ∧
        .put e' ∈ before ++ [.put e] ∧ e'.location = e.location ∧
        e'.Resolves (assemble size text).symbols (Draft.history size (Text.lines text)) p v) ∧
      ((∀ e', .put e' ∈ before → e'.location = e.location → e'.pending = .nothing) →
        e.pending = .nothing ∧ (assemble size text).memory[e.location]? = some e.word ∨
          ∃ p v, e.Resolves (assemble size text).symbols (Draft.history size (Text.lines text))
              p v ∧
            (assemble size text).memory[e.location]? = some (p.settle e.word v)) := by
  have hclean := Draft.clean_ofLines text hsucceeded
  have hcontent : (assemble size text).memory[e.location]? = _ :=
    Draft.getElem?_of_last hclean hlast
  refine ⟨(Draft.replays_ofLines hclean).memory, Draft.perm_settles? hclean, hcontent,
    fun event => Draft.resolves_of_mem_after hlast hafter, fun hbefore => ?_⟩
  rcases Draft.filter_after_last hclean hlast hafter hbefore with
    ⟨hnothing, hnone⟩ | ⟨p, v, hresolves, honly⟩
  · rw [hnone] at hcontent
    exact .inl ⟨hnothing, hcontent⟩
  · rw [honly] at hcontent
    exact .inr ⟨p, v, hresolves, hcontent⟩

def replacedConstant : String := " CON 3\n ORIG 0\n LDA X\nX CON 7"

def replacingLoad : Emission :=
  ⟨0, Word.wrap false 328, .symbol "X" ⟨0, false, Field.address, 3⟩⟩

theorem history_replacedConstant :
    Draft.history 4 (Text.lines replacedConstant) =
      [.put ⟨0, Word.wrap false 3, .nothing⟩] ++ .put replacingLoad ::
        [.put ⟨1, Word.wrap false 7, .nothing⟩, .patch ⟨0, false, Field.address, 3⟩ 1] := by
  decide +kernel

/-- The instruction is what is found there, with the address that it asked for. -/
theorem assemble_last_word_replaced :
    (assemble 4 replacedConstant).succeeded = true ∧
      (assemble 4 replacedConstant).memory[0]? = some (Word.wrap false 262472) := by
  have hsucceeded : (assemble 4 replacedConstant).succeeded = true := by decide +kernel
  have hafter : ∀ e', .put e' ∈ [Event.put ⟨1, Word.wrap false 7, .nothing⟩,
      .patch ⟨0, false, Field.address, 3⟩ 1] → e'.location ≠ replacingLoad.location := by
    intro e' he'
    rcases List.mem_cons.mp he' with hput | hpatch
    · cases hput
      decide
    · cases List.mem_singleton.mp hpatch
  have hbefore : ∀ e', .put e' ∈ [Event.put ⟨0, Word.wrap false 3, .nothing⟩] →
      e'.location = replacingLoad.location → e'.pending = .nothing := by
    intro e' he' _
    cases List.mem_singleton.mp he'
    rfl
  have hX : (assemble 4 replacedConstant).symbols.get? "X" = some 1 := by decide +kernel
  refine ⟨hsucceeded, ?_⟩
  obtain ⟨-, -, -, -, halone⟩ := assemble_last_word hsucceeded history_replacedConstant hafter
  rcases halone hbefore with ⟨hnothing, -⟩ | ⟨p, v, hresolves, hcontent⟩
  · cases hnothing
  · cases hresolves with
    | literal hpending hplace => cases hpending
    | symbol hpending hvalue =>
      cases hpending
      rw [hX] at hvalue
      cases hvalue
      exact hcontent.trans (congrArg some (by decide +kernel))

def replacedInstruction : String := " LDA X\n ORIG 0\n CON 5\nX CON 7"

theorem history_replacedInstruction :
    Draft.history 4 (Text.lines replacedInstruction) =
      [.put ⟨0, Word.wrap false 328, .symbol "X" ⟨0, false, Field.address, 1⟩⟩] ++
        .put ⟨0, Word.wrap false 5, .nothing⟩ ::
          [.put ⟨1, Word.wrap false 7, .nothing⟩, .patch ⟨0, false, Field.address, 1⟩ 1] := by
  decide +kernel

/-- The constant gets the address that the instruction asked for, so the last word does not
determine the content of its place. -/
theorem not_last_word_determines :
    ¬ ∀ (size : Nat) (text : String) (before after : List Event) (e : Emission),
      (assemble size text).succeeded = true →
      Draft.history size (Text.lines text) = before ++ .put e :: after →
      (∀ e', .put e' ∈ after → e'.location ≠ e.location) →
      e.pending = .nothing ∧ (assemble size text).memory[e.location]? = some e.word ∨
        ∃ p v, e.Resolves (assemble size text).symbols (Draft.history size (Text.lines text)) p v ∧
          (assemble size text).memory[e.location]? = some (p.settle e.word v) := by
  intro h
  have hsucceeded : (assemble 4 replacedInstruction).succeeded = true := by decide +kernel
  have hafter : ∀ e', .put e' ∈ [Event.put ⟨1, Word.wrap false 7, .nothing⟩,
      .patch ⟨0, false, Field.address, 1⟩ 1] → e'.location ≠ 0 := by
    intro e' he'
    rcases List.mem_cons.mp he' with hput | hpatch
    · cases hput
      decide
    · cases List.mem_singleton.mp hpatch
  rcases h 4 replacedInstruction _ _ _ hsucceeded history_replacedInstruction hafter with
    ⟨-, hcontent⟩ | ⟨p, v, hresolves, -⟩
  · revert hcontent
    decide +kernel
  · cases hresolves.patch?

end Assemble

end Assembly

end MixComputer
