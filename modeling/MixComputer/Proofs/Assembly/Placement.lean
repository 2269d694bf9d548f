import MixComputer.Proofs.Assembly.EndLabel
import MixComputer.Proofs.Assembly.Overwriting
import MixComputer.Proofs.Assembly.References
import MixComputer.Proofs.Assembly.Reports

/-!
The places of inserted words. Undefined symbols and then literals are placed one after the other
from the location counter on as long as there is room, and each that finds none is reported. What
this does to memory is a list of events, and so is the patching after it.
-/
namespace MixComputer

namespace Assembly

open Source

namespace Event

/-- Whether the event takes place: a value that does not fit is not stored. -/
def fits : Event → Bool
  | put _ => true
  | patch p v => Draft.patchFits p (p.signed v)

def ofLiteral (l : (Word × Patch) × Nat) : List Event :=
  [put ⟨l.2, l.1.1, .nothing⟩, patch l.1.2 l.2]

def ofSymbol (u : (String × Nat) × Nat) : Event := put ⟨u.2, Word.zero, .nothing⟩

def replay (events : List Event) (memory : Memory) : Memory :=
  (events.filter fits).foldl apply memory

theorem replay_append (events events' : List Event) (memory : Memory) :
    replay (events ++ events') memory = replay events' (replay events memory) := by
  rw [replay, List.filter_append, List.foldl_append]
  rfl

/-- Words always fit. -/
theorem replay_puts (es : List Emission) (memory : Memory) :
    replay (es.map put) memory = es.foldl Emission.store memory := by
  have hfits : (es.map put).filter fits = es.map put :=
    List.filter_eq_self.mpr fun event hevent => by
      obtain ⟨e, -, rfl⟩ := List.mem_map.mp hevent
      rfl
  unfold replay
  rw [hfits, List.foldl_map]
  rfl

/-- A word stays if nothing happens later in its place. -/
theorem getElem?_replay_put {before after : List Event} {memory : Memory} {e : Emission}
    (hlt : e.location < memory.size)
    (hlater : ∀ event ∈ after, event.location ≠ e.location) :
    (replay (before ++ put e :: after) memory)[e.location]? = some e.word := by
  have hnone : (after.filter fits).filter (·.location == e.location) = [] :=
    List.filter_eq_nil_iff.mpr fun event hevent => by
      simpa using hlater event (List.mem_of_mem_filter hevent)
  unfold replay
  rw [List.filter_append, List.filter_cons, if_pos (show (put e).fits = true from rfl),
    getElem?_foldl_apply_put hlt, hnone]
  rfl

end Event

namespace Draft

section Room

variable {α : Type} {d d' : Draft} {a : α} {as : List α}

/-- The things for which there is room from the location counter on, each with its place. -/
def placed (d : Draft) (as : List α) : List (α × Nat) :=
  (as.take (d.memory.size - d.location)).zipIdx d.location

def unplaced (d : Draft) (as : List α) : List α := as.drop (d.memory.size - d.location)

theorem placed_cons (a : α) (as : List α) (hroom : d.location < d.memory.size)
    (hlocation : d'.location = d.location + 1) (hsize : d'.memory.size = d.memory.size) :
    d.placed (a :: as) = (a, d.location) :: d'.placed as ∧
      d.unplaced (a :: as) = d'.unplaced as := by
  have hspace : d.memory.size - d.location = d'.memory.size - d'.location + 1 := by omega
  unfold placed unplaced
  rw [hspace, List.take_succ_cons, List.drop_succ_cons, List.zipIdx_cons, hlocation]
  exact ⟨rfl, rfl⟩

theorem placed_of_full (as : List α) (hfull : d.memory.size ≤ d.location) :
    d.placed as = [] ∧ d.unplaced as = as := by
  have hspace : d.memory.size - d.location = 0 := by omega
  unfold placed unplaced
  rw [hspace]
  exact ⟨rfl, rfl⟩

theorem mem_placed_iff {place : Nat} :
    (a, place) ∈ d.placed as ↔
      d.location ≤ place ∧ place < d.memory.size ∧ as[place - d.location]? = some a := by
  unfold placed
  rw [List.mk_mem_zipIdx_iff_le_and_getElem?_sub, List.getElem?_take]
  constructor
  · rintro ⟨hle, h⟩
    split at h
    · exact ⟨hle, by omega, h⟩
    · cases h
  · rintro ⟨hle, hlt, h⟩
    refine ⟨hle, ?_⟩
    rw [if_pos (by omega)]
    exact h

end Room

section Symbols

variable {d d' : Draft}

def placedReport (u : (String × Nat) × Nat) : Report :=
  ⟨u.1.2, .warning, .undefinedSymbol u.1.1 u.2⟩

def fullReport (size line : Nat) : Report := ⟨line, .error, .outOfRange .location size⟩

structure Allocates (d : Draft) (us : List (String × Nat)) (d' : Draft) : Prop where
  size : d'.memory.size = d.memory.size
  location : d'.location = min (d.location + us.length) d.memory.size
  symbols : d'.symbols.entries =
    d.symbols.entries ++ (d.placed us).map fun u => (u.1.1, (u.2 : Int))
  reports : d'.reports = d.reports ++
    ((d.placed us).map placedReport ++
      (d.unplaced us).map fun u => fullReport d.memory.size u.2)
  memory : d'.memory = Event.replay ((d.placed us).map Event.ofSymbol) d.memory

theorem allocates_of_room {u : String × Nat} {us : List (String × Nat)} {d₁ : Draft}
    {symbols : SymbolTable} (hroom : d.location < d.memory.size)
    (hsymbols : d.symbols.insert u.1 d.location = .ok symbols)
    (hfirst : d₁ =
      { d with
        memory := d.memory.write d.location Word.zero
        location := d.location + 1
        symbols := symbols : Draft }.report u.2 .warning (.undefinedSymbol u.1 d.location))
    (h : d₁.Allocates us d') : d.Allocates (u :: us) d' := by
  obtain ⟨-, rfl⟩ := (SymbolTable.insert_eq_ok_iff _ _ _ _).mp hsymbols
  have hsize : d₁.memory.size = d.memory.size := by
    rw [hfirst]
    exact Memory.size_write _ _ _
  have hlocation : d₁.location = d.location + 1 := by
    rw [hfirst]
    rfl
  obtain ⟨hplaced, hunplaced⟩ := placed_cons u us hroom hlocation hsize
  refine ⟨h.size.trans hsize, ?_, ?_, ?_, ?_⟩
  · rw [h.location, hlocation, hsize, List.length_cons]
    omega
  · rw [h.symbols, hplaced, hfirst]
    exact List.append_assoc _ _ _
  · rw [h.reports, hplaced, hunplaced, hsize, hfirst]
    exact List.append_assoc _ _ _
  · rw [h.memory, hplaced, hfirst]
    rfl

theorem allocates_of_full {u : String × Nat} {us : List (String × Nat)}
    (hfull : d.location = d.memory.size)
    (h : (d.report u.2 .error (.outOfRange .location d.location)).Allocates us d') :
    d.Allocates (u :: us) d' := by
  have hle : d.memory.size ≤ d.location := Nat.le_of_eq hfull.symm
  obtain ⟨hplaced, hunplaced⟩ := placed_of_full (u :: us) hle
  obtain ⟨hplaced', hunplaced'⟩ := placed_of_full us
    (d := d.report u.2 .error (.outOfRange .location d.location)) hle
  refine ⟨h.size, ?_, ?_, ?_, ?_⟩
  · have hlocation : d'.location = min (d.location + us.length) d.memory.size := h.location
    rw [hlocation, List.length_cons]
    omega
  · rw [h.symbols, hplaced, hplaced']
    rfl
  · rw [h.reports, hplaced, hplaced', hunplaced, hunplaced', hfull]
    exact List.append_assoc _ _ _
  · rw [h.memory, hplaced, hplaced']
    rfl

/-- Undefined symbols get words one after the other, as long as there is room. -/
theorem allocates_foldl {us : List (String × Nat)} (hnodup : (us.map Prod.fst).Nodup)
    (hnone : ∀ u ∈ us, d.symbols.get? u.1 = none) (hle : d.location ≤ d.memory.size) :
    d.Allocates us (us.foldl (fun d u => d.allocateSymbol u.1 u.2) d) := by
  induction us generalizing d with
  | nil =>
    refine ⟨rfl, ?_, ?_, ?_, ?_⟩
    · exact (Nat.min_eq_left hle).symm
    · simp [placed]
    · simp [placed, unplaced]
    · simp [placed, Event.replay]
  | cons u us ih =>
    obtain ⟨hnew, hnodup⟩ := List.nodup_cons.mp hnodup
    have hnone' : ∀ u' ∈ us, (d.allocateSymbol u.1 u.2).symbols.get? u'.1 = none := by
      intro u' hu'
      rw [get?_allocateSymbol_ne, hnone u' (List.mem_cons_of_mem u hu')]
      exact fun heq => hnew (heq ▸ List.mem_map_of_mem hu')
    rw [List.foldl_cons]
    by_cases hroom : d.location < d.memory.size
    · obtain ⟨symbols, hsymbols, hfirst⟩ :=
        allocateSymbol_of_room u.2 (hnone u List.mem_cons_self) hroom
      refine allocates_of_room hroom hsymbols hfirst (ih hnodup hnone' ?_)
      rw [hfirst]
      show d.location + 1 ≤ (d.memory.write d.location Word.zero).size
      rw [Memory.size_write]
      omega
    · have hfull : d.location = d.memory.size := by omega
      have hfirst := allocateSymbol_of_full u.1 u.2 (Nat.le_of_eq hfull.symm)
      rw [hfirst] at hnone' ⊢
      exact allocates_of_full hfull (ih hnodup hnone' hle)

end Symbols

section Literals

variable {d d' : Draft} {keep : Report → Bool}

/-- A choice of reports without those that patching and the last line give rise to. -/
structure Ignores (keep : Report → Bool) : Prop where
  address : ∀ line v, keep ⟨line, .error, .outOfRange .address v⟩ = false
  entryPoint : ∀ line v, keep ⟨line, .error, .outOfRange .entryPoint v⟩ = false
  duplicate : ∀ line name v, keep ⟨line, .error, .duplicateSymbol name v⟩ = false

theorem ignores_none : Ignores fun _ => false :=
  ⟨fun _ _ => rfl, fun _ _ => rfl, fun _ _ _ => rfl⟩

/-- A report that is not kept. -/
theorem filter_reports_report {line : Nat} {severity : Severity} {error : Error}
    (h : keep ⟨line, severity, error⟩ = false) :
    (d.report line severity error).reports.filter keep = d.reports.filter keep := by
  show (d.reports ++ [_]).filter keep = _
  rw [List.filter_append, List.filter_cons, h]
  exact List.append_nil _

theorem filter_reports_applyPatch (hkeep : Ignores keep) (d : Draft) (patch : Patch) (value : Int) :
    (d.applyPatch patch value).reports.filter keep = d.reports.filter keep := by
  rw [applyPatch_eq]
  split
  · rfl
  · exact filter_reports_report (hkeep.address _ _)

theorem memory_applyPatch (d : Draft) (patch : Patch) (value : Int) :
    (d.applyPatch patch value).memory = Event.replay [.patch patch value] d.memory := by
  have hfits : (Event.patch patch value).fits = patchFits patch (patch.signed value) := rfl
  unfold Event.replay
  rw [applyPatch_eq, List.filter_cons, hfits]
  split <;> rfl

structure Stores (keep : Report → Bool) (d : Draft) (ls : List (Word × Patch)) (d' : Draft) :
    Prop where
  size : d'.memory.size = d.memory.size
  location : d'.location = min (d.location + ls.length) d.memory.size
  reports : d'.reports.filter keep = d.reports.filter keep ++
    ((d.unplaced ls).map fun l => fullReport d.memory.size l.2.line).filter keep
  memory : d'.memory = Event.replay ((d.placed ls).flatMap Event.ofLiteral) d.memory

theorem placeLiteral_of_room (l : Word × Patch) (hroom : d.location < d.memory.size) :
    d.placeLiteral l.1 l.2 =
      { d with
        memory := d.memory.write d.location l.1
        location := d.location + 1 : Draft }.applyPatch l.2 d.location := by
  unfold placeLiteral
  rw [emit_eq_ok_iff.mpr ⟨hroom, rfl⟩]

theorem placeLiteral_of_full (l : Word × Patch) (hfull : d.location = d.memory.size) :
    d.placeLiteral l.1 l.2 = d.report l.2.line .error (.outOfRange .location d.memory.size) := by
  have hemit : d.emit l.1 = .error (.outOfRange .location d.location) := by
    unfold emit
    rw [if_neg (by omega)]
  unfold placeLiteral
  rw [hemit, hfull]

theorem stores_of_room {l : Word × Patch} {ls : List (Word × Patch)} (hkeep : Ignores keep)
    (hroom : d.location < d.memory.size) (h : (d.placeLiteral l.1 l.2).Stores keep ls d') :
    d.Stores keep (l :: ls) d' := by
  have hsize := (leads_placeLiteral d l).size
  have hlocation : (d.placeLiteral l.1 l.2).location = d.location + 1 := by
    rw [placeLiteral_of_room l hroom, location_applyPatch]
  have hreports : (d.placeLiteral l.1 l.2).reports.filter keep = d.reports.filter keep := by
    rw [placeLiteral_of_room l hroom, filter_reports_applyPatch hkeep]
  have hmemory : (d.placeLiteral l.1 l.2).memory =
      Event.replay (Event.ofLiteral (l, d.location)) d.memory := by
    rw [placeLiteral_of_room l hroom, memory_applyPatch]
    rfl
  obtain ⟨hplaced, hunplaced⟩ := placed_cons l ls hroom hlocation hsize
  refine ⟨h.size.trans hsize, ?_, ?_, ?_⟩
  · rw [h.location, hlocation, hsize, List.length_cons]
    omega
  · rw [h.reports, hreports, hunplaced, hsize]
  · rw [h.memory, hmemory, hplaced, List.flatMap_cons, Event.replay_append]

theorem stores_of_full {l : Word × Patch} {ls : List (Word × Patch)}
    (hfull : d.location = d.memory.size)
    (h : (d.report l.2.line .error (.outOfRange .location d.memory.size)).Stores keep ls d') :
    d.Stores keep (l :: ls) d' := by
  have hle : d.memory.size ≤ d.location := Nat.le_of_eq hfull.symm
  obtain ⟨hplaced, hunplaced⟩ := placed_of_full (l :: ls) hle
  obtain ⟨hplaced', hunplaced'⟩ := placed_of_full ls
    (d := d.report l.2.line .error (.outOfRange .location d.memory.size)) hle
  refine ⟨h.size, ?_, ?_, ?_⟩
  · have hlocation : d'.location = min (d.location + ls.length) d.memory.size := h.location
    rw [hlocation, List.length_cons]
    omega
  · rw [h.reports, hunplaced, hunplaced', List.map_cons, ← List.filter_append, ← List.filter_append]
    refine congrArg (List.filter keep) ?_
    exact List.append_assoc d.reports [_] _
  · rw [h.memory, hplaced, hplaced']
    rfl

/-- Literals are put one after the other, as long as there is room. -/
theorem stores_foldl (hkeep : Ignores keep) (ls : List (Word × Patch))
    (hle : d.location ≤ d.memory.size) :
    d.Stores keep ls (ls.foldl (fun d l => d.placeLiteral l.1 l.2) d) := by
  induction ls generalizing d with
  | nil =>
    refine ⟨rfl, ?_, ?_, ?_⟩
    · exact (Nat.min_eq_left hle).symm
    · simp [unplaced]
    · simp [placed, Event.replay]
  | cons l ls ih =>
    rw [List.foldl_cons]
    by_cases hroom : d.location < d.memory.size
    · refine stores_of_room hkeep hroom (ih ?_)
      rw [(leads_placeLiteral d l).size, placeLiteral_of_room l hroom, location_applyPatch]
      exact hroom
    · have hfull : d.location = d.memory.size := by omega
      rw [placeLiteral_of_full l hfull]
      exact stores_of_full hfull (ih hle)

end Literals

section Uses

variable {d : Draft} {keep : Report → Bool}

theorem memory_foldl_patchUse (us : List (String × Patch)) (d : Draft) :
    (us.foldl patchUse d).memory = Event.replay (useEvents d.symbols us) d.memory := by
  induction us generalizing d with
  | nil => rfl
  | cons u us ih =>
    rw [List.foldl_cons, ih, symbols_patchUse]
    unfold useEvents
    cases hvalue : d.symbols.get? u.1 with
    | none => rw [List.filterMap_cons_none (by rw [hvalue]; rfl), patchUse_of_get?_none hvalue]
    | some value =>
      rw [List.filterMap_cons_some (by rw [hvalue]; rfl), patchUse_of_get? hvalue,
        memory_applyPatch, ← Event.replay_append]
      rfl

theorem filter_reports_foldl_patchUse (hkeep : Ignores keep) (us : List (String × Patch))
    (d : Draft) : (us.foldl patchUse d).reports.filter keep = d.reports.filter keep := by
  refine List.foldlRecOn
    (motive := fun d' : Draft => d'.reports.filter keep = d.reports.filter keep) us patchUse rfl ?_
  intro d' hd' u _
  unfold patchUse
  split
  · rw [filter_reports_applyPatch hkeep, hd']
  · exact hd'

theorem filter_reports_settleEntry (hkeep : Ignores keep) (d : Draft) :
    d.settleEntry.reports.filter keep = d.reports.filter keep := by
  unfold settleEntry
  split
  · rfl
  · split
    · rfl
    · rename_i value _
      split
      · rfl
      · rename_i error herror
        unfold checkLocation at herror
        split at herror
        · cases herror
        · cases herror
          exact filter_reports_report (hkeep.entryPoint _ _)

theorem filter_reports_settleEndLabel (hkeep : Ignores keep) (d : Draft) :
    d.settleEndLabel.reports.filter keep = d.reports.filter keep := by
  unfold settleEndLabel
  split
  · rfl
  · split
    · rename_i hdefine
      obtain ⟨symbols, -, rfl⟩ := define_eq_ok_iff.mp hdefine
      rfl
    · rename_i error herror
      unfold define at herror
      split at herror
      · cases herror
      · cases herror
        exact filter_reports_report (hkeep.duplicate _ _ _)

end Uses

section Resolve

variable {d : Draft} {keep : Report → Bool}

def resolution (d : Draft) : List Event :=
  (d.placed d.undefinedSymbols).map Event.ofSymbol ++
    ((d.withSymbols.placed d.literals).flatMap Event.ofLiteral ++
      useEvents d.withSymbols.symbols (uses d.futures))

variable (hnodup : (d.undefinedSymbols.map Prod.fst).Nodup) (hle : d.location ≤ d.memory.size)

include hnodup hle

theorem allocates_withSymbols : d.Allocates d.undefinedSymbols d.withSymbols :=
  allocates_foldl hnodup (fun _ hu => get?_of_mem_undefinedSymbols hu) hle

theorem stores_withLiterals (hkeep : Ignores keep) :
    d.withSymbols.Stores keep d.literals d.withLiterals := by
  have h := allocates_withSymbols hnodup hle
  refine stores_foldl hkeep d.literals ?_
  rw [h.size, h.location]
  exact Nat.min_le_right _ _

/-- The location counter comes to the end of all words that are inserted. -/
theorem location_resolve :
    d.resolve.location =
      min (d.location + d.undefinedSymbols.length + d.literals.length) d.memory.size := by
  have hsymbols := allocates_withSymbols hnodup hle
  have hliterals := stores_withLiterals hnodup hle ignores_none
  rw [resolve_eq, location_settled, location_withUses, hliterals.location, hsymbols.location,
    hsymbols.size]
  omega

/-- All that resolution reports about words that are inserted. -/
theorem filter_reports_resolve (hkeep : Ignores keep) :
    d.resolve.reports.filter keep = d.reports.filter keep ++
      ((d.placed d.undefinedSymbols).map placedReport ++
        ((d.unplaced d.undefinedSymbols).map Prod.snd ++
          (d.withSymbols.unplaced d.literals).map (·.2.line)).map
            (fullReport d.memory.size)).filter keep := by
  have hsymbols := allocates_withSymbols hnodup hle
  have hliterals := stores_withLiterals hnodup hle hkeep
  rw [resolve_eq, filter_reports_settleEndLabel hkeep, filter_reports_settleEntry hkeep]
  rw [withUses, filter_reports_foldl_patchUse hkeep, hliterals.reports, hsymbols.reports,
    hsymbols.size]
  simp only [List.filter_append, List.map_append, List.map_map, List.append_assoc]
  rfl

theorem memory_resolve : d.resolve.memory = Event.replay d.resolution d.memory := by
  have hsymbols := allocates_withSymbols hnodup hle
  have hliterals := stores_withLiterals hnodup hle ignores_none
  rw [(quiet_resolve d).memory, withUses, memory_foldl_patchUse, symbols_withLiterals,
    hliterals.memory, hsymbols.memory, resolution, Event.replay_append, Event.replay_append]

end Resolve

section Complete

variable {d : Draft}

/-- Without an error there is room for all literals, and each fits where it is used. -/
theorem literals_of_clean {ls : List (Word × Patch)}
    (hclean : (ls.foldl (fun d l => d.placeLiteral l.1 l.2) d).Clean) :
    d.unplaced ls = [] ∧ ∀ l ∈ d.placed ls, patchFits l.1.2 (l.1.2.signed l.2) = true := by
  induction ls generalizing d with
  | nil => exact ⟨List.drop_nil, fun l hl => by simp [placed] at hl⟩
  | cons l ls ih =>
    rw [List.foldl_cons] at hclean
    have hfirst := (leads_foldl leads_placeLiteral ls (d.placeLiteral l.1 l.2)).clean hclean
    obtain ⟨hroom, heq⟩ := placeLiteral_of_clean hfirst
    have hlocation : (d.placeLiteral l.1 l.2).location = d.location + 1 := by
      rw [heq, location_applyPatch]
    obtain ⟨hplaced, hunplaced⟩ :=
      placed_cons l ls hroom hlocation (leads_placeLiteral d l).size
    obtain ⟨hnone, hfits⟩ := ih hclean
    rw [hplaced, hunplaced]
    refine ⟨hnone, fun l' hl' => ?_⟩
    obtain rfl | hrest := List.mem_cons.mp hl'
    · exact patchFits_of_clean_applyPatch (heq ▸ hfirst)
    · exact hfits l' hrest

end Complete

section Reading

variable {d : Draft}

def Located (d : Draft) : Prop := d.location ≤ d.memory.size

theorem located_takeLine (d : Draft) (text : String) (line : Nat) (h : d.Located) :
    (d.takeLine text line).1.Located := by
  refine takeLine_keeps h (fun _ _ h => h) fun l mnemonic _ => obey_keeps h ?_ ?_ ?_ ?_ ?_ ?_
  · intro d' hlabel
    obtain ⟨symbols, -, rfl⟩ := defineLabel_eq_ok hlabel
    exact h
  · intro d' hequate
    obtain ⟨w, -, hequate⟩ := (bind_eq_ok_iff _ _ _).mp hequate
    cases hname : l.label with
    | none =>
      rw [hname] at hequate
      cases hequate
      exact h
    | some name =>
      rw [hname] at hequate
      obtain ⟨symbols, -, rfl⟩ := define_eq_ok_iff.mp hequate
      exact h
  · intro d₁ d₂ h₁ horigin
    obtain ⟨w, -, horigin⟩ := (bind_eq_ok_iff _ _ _).mp horigin
    obtain ⟨location, hlocation, horigin⟩ := (bind_eq_ok_iff _ _ _).mp horigin
    cases horigin
    unfold checkLocation at hlocation
    split at hlocation
    · rename_i hinside
      cases hlocation
      exact Nat.le_of_lt hinside.2
    · cases hlocation
  · intro d₁ d₂ entry h₁ hword hput
    obtain ⟨hroom, rfl⟩ := put_eq_ok_iff.mp hput
    unfold Located
    rw [memory_await, Memory.size_write]
    cases entry.2 <;> exact hroom
  · intro d' hdefer
    obtain ⟨endLabel, rfl⟩ := deferLabel_eq_ok hdefer
    exact h
  · intro d₁ d₂ h₁ hentry
    obtain ⟨w, -, ⟨name, -, rfl⟩ | ⟨v, entry, -, -, rfl⟩⟩ := setEntry_eq_ok hentry <;> exact h₁

theorem located_readLines (size : Nat) (lines : List String) :
    ((start size).readLines 1 lines).Located :=
  readLines_induction (P := Located) located_takeLine 1 lines (Nat.zero_le _)

/-- Lines give rise to errors and not to warnings. -/
theorem errors_readLines (size : Nat) (lines : List String) :
    ∀ r ∈ ((start size).readLines 1 lines).reports, r.severity = .error := by
  refine readLines_induction (P := fun d => ∀ r ∈ d.reports, r.severity = .error) ?_ 1 lines
    fun r hr => absurd hr List.not_mem_nil
  intro d text line h
  refine takeLine_keeps (P := fun d => ∀ r ∈ d.reports, r.severity = .error) h ?_ ?_
  · intro d error h r hr
    obtain hold | hnew := List.mem_append.mp hr
    · exact h r hold
    · rw [List.mem_singleton.mp hnew]
  · intro l mnemonic _
    rw [reports_obey]
    exact h

end Reading

end Draft

end Assembly

end MixComputer
