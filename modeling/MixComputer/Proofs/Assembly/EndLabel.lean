import MixComputer.Proofs.Assembly.Allocation
import MixComputer.Proofs.Assembly.Program

/-!
Uses of the label of the last line. The label is defined after everything else, and by then a
symbol that was used has been taken for undefined: it has a word of its own, the uses are patched
with the location of that word, and the label is refused as a second definition. Where memory had
no room for the word the uses are left as they were, and the label gets its value too late.
-/
namespace MixComputer

namespace Assembly

open Source

namespace Draft

section Settle

variable {d : Draft} {name : String} {line : Nat}

/-- A label that has a value by then is refused. -/
theorem resolve_of_defined (hlabel : d.endLabel = some (name, line)) {v : Int}
    (hv : d.withSymbols.symbols.get? name = some v) :
    d.resolve.symbols.get? name = some v ∧
      ⟨line, .error, .duplicateSymbol name v⟩ ∈ d.resolve.reports := by
  have hv' : d.withUses.settleEntry.symbols.get? name = some v := by
    rw [symbols_settleEntry, symbols_withUses, hv]
  have hinsert : d.withUses.settleEntry.define name d.withUses.settleEntry.location =
      .error (.duplicateSymbol name v) := by
    unfold define SymbolTable.insert
    rw [hv']
  rw [resolve_eq, settleEndLabel, endLabel_settled, hlabel]
  simp only [hinsert]
  exact ⟨hv', List.mem_append_right _ (List.mem_singleton.mpr rfl)⟩

/-- A label without a value names the location after all words. -/
theorem get?_resolve_of_undefined (hlabel : d.endLabel = some (name, line))
    (hnone : d.withSymbols.symbols.get? name = none) :
    d.resolve.symbols.get? name = some (d.resolve.location : Int) := by
  have hnone' : d.withUses.settleEntry.symbols.get? name = none := by
    rw [symbols_settleEntry, symbols_withUses, hnone]
  have hinsert := (SymbolTable.insert_eq_ok_iff _ _ name
    d.withUses.settleEntry.location).mpr ⟨hnone', rfl⟩
  rw [resolve_eq, settleEndLabel, endLabel_settled, hlabel]
  simp only [define_eq_ok_iff.mpr ⟨_, hinsert, rfl⟩]
  exact SymbolTable.get?_insert hinsert

/-- A symbol that names the entry is the entry, if its value is a location in memory. -/
theorem entry_resolve_of_get? {l : Nat} (h : d.entrySymbol = some (name, l)) {n : Nat}
    (hn : d.withSymbols.symbols.get? name = some (n : Int)) (hlt : n < d.memory.size) :
    d.resolve.entry = some n := by
  have hsymbol : d.withUses.entrySymbol = some (name, l) :=
    (sameTasks_withUses d).entrySymbol.trans h
  have hn' : d.withUses.symbols.get? name = some (n : Int) := by rw [symbols_withUses, hn]
  have hsize : d.withUses.memory.size = d.memory.size :=
    (((leads_withSymbols d).trans (leads_withLiterals d)).trans (leads_withUses d)).size
  have hcheck : d.withUses.checkLocation .entryPoint n = .ok n := by
    unfold checkLocation
    rw [if_pos ⟨Int.natCast_nonneg n, by omega⟩]
    rfl
  rw [resolve_eq, entry_settleEndLabel, settleEntry]
  simp only [hsymbol, hn', hcheck]

/-- It is no entry if it has no value by then. -/
theorem entry_resolve_of_undefined {l : Nat} (h : d.entrySymbol = some (name, l))
    (hnone : d.withSymbols.symbols.get? name = none) : d.resolve.entry = d.entry := by
  have hsame := sameTasks_withUses d
  have hsymbol : d.withUses.entrySymbol = some (name, l) := hsame.entrySymbol.trans h
  have hnone' : d.withUses.symbols.get? name = none := by rw [symbols_withUses, hnone]
  rw [resolve_eq, entry_settleEndLabel, settleEntry]
  simp only [hsymbol, hnone']
  exact hsame.entry

end Settle

end Draft

/-- A label of the last line that was taken for an undefined symbol, with a word at `place`. It
was first used in line `first`, and `d` is the draft of all lines. -/
structure TakenForUndefined (size : Nat) (text : String) (d : Draft) (name : String)
    (line first place : Nat) : Prop where
  value : (assemble size text).symbols.get? name = some (place : Int)
  /-- The label should have named the location after all words. -/
  before : place < (Draft.ofLines size (Text.lines text)).location
  warned : (assemble size text).Reports first .warning (.undefinedSymbol name place)
  refused : (assemble size text).Reports line .error (.duplicateSymbol name place)
  entry : ∀ l, d.entrySymbol = some (name, l) → (assemble size text).entry = some place
  patched : ∀ e ∈ (Draft.start size).readEmissions 1 (Text.lines text), ∀ patch,
    e.pending = .symbol name patch →
    ((Draft.emissions size (Text.lines text)).map Emission.location).count e.location = 1 →
    Draft.patchFits patch (patch.signed place) = true →
    (assemble size text).memory[e.location]? = some (patch.settle e.word place)

/-- A label of the last line that there was no word for: it gets its value when the uses should
have been patched already. -/
structure LeftOpen (size : Nat) (text : String) (d : Draft) (name : String) (first : Nat) :
    Prop where
  value : (assemble size text).symbols.get? name =
    some ((Draft.ofLines size (Text.lines text)).location : Int)
  refused : (assemble size text).Reports first .error
    (.outOfRange .location (max d.location size : Nat))
  entry : ∀ l, d.entrySymbol = some (name, l) → (assemble size text).entry = d.entry
  unpatched : ∀ e ∈ (Draft.start size).readEmissions 1 (Text.lines text), ∀ patch,
    e.pending = .symbol name patch →
    ((Draft.emissions size (Text.lines text)).map Emission.location).count e.location = 1 →
    (assemble size text).memory[e.location]? = some e.word

section Program

variable {size : Nat} {text : String} {d : Draft} {name : String} {line i first : Nat}
  (hread : (Draft.start size).readLines 1 (Text.lines text) = d)
  (hlabel : d.endLabel = some (name, line)) (hi : d.undefinedSymbols[i]? = some (name, first))

include hread

theorem size_of_readLines : d.memory.size = size := by
  rw [← hread, (Draft.leads_readLines _ 1 _).size]
  exact Array.size_replicate

theorem nodup_of_readLines : (d.undefinedSymbols.map Prod.fst).Nodup :=
  Draft.nodup_undefinedSymbols (hread ▸ Draft.nodup_name_readLines size (Text.lines text))

include hlabel hi

theorem takenForUndefined (hroom : d.location + i < size) :
    TakenForUndefined size text d name line first (d.location + i) := by
  have hroom' : d.location + i < d.memory.size := (size_of_readLines hread).symm ▸ hroom
  obtain ⟨hvalue, hwarned, hbefore⟩ := Draft.foldl_allocateSymbol_of_room
    (nodup_of_readLines hread) (fun u hu => Draft.get?_of_mem_undefinedSymbols hu) hi hroom'
  obtain ⟨hfinal, hrefused⟩ := Draft.resolve_of_defined hlabel hvalue
  subst hread
  refine ⟨hfinal, ?_, reports_assemble ?_, reports_assemble hrefused, ?_, ?_⟩
  · exact Nat.lt_of_lt_of_le hbefore (Draft.location_withSymbols_le _)
  · exact (Draft.leads_resolve_withSymbols _).reports.subset hwarned
  · intro l hentry
    exact Draft.entry_resolve_of_get? hentry hvalue hroom'
  · intro e he patch hpending hcount hfits
    have halone := Emission.alone_of_count hcount (List.mem_append_left _ he)
    exact Draft.getElem?_resolve_of_symbol (Draft.accounts_readLines size _) he halone hpending
      hvalue hfits

theorem leftOpen (hfull : size ≤ d.location + i) : LeftOpen size text d name first := by
  have hsize := size_of_readLines hread
  obtain ⟨hnone, hrefused⟩ := Draft.foldl_allocateSymbol_of_full
    (nodup_of_readLines hread) (fun u hu => Draft.get?_of_mem_undefinedSymbols hu) hi
    (hsize.symm ▸ hfull)
  rw [hsize] at hrefused
  subst hread
  refine ⟨Draft.get?_resolve_of_undefined hlabel hnone, reports_assemble ?_, ?_, ?_⟩
  · exact (Draft.leads_resolve_withSymbols _).reports.subset hrefused
  · intro l hentry
    exact Draft.entry_resolve_of_undefined hentry hnone
  · intro e he patch hpending hcount
    have halone := Emission.alone_of_count hcount (List.mem_append_left _ he)
    exact Draft.getElem?_resolve_of_undefined (Draft.accounts_readLines size _) he halone hpending
      hnone

end Program

/-- A program whose last line has a label that was used before, and that no other line defines.
The label is taken for an undefined symbol, and the program is refused. -/
theorem assemble_endLabel {size : Nat} {text : String} {d : Draft} {name : String} {line : Nat}
    (hread : (Draft.start size).readLines 1 (Text.lines text) = d)
    (hlabel : d.endLabel = some (name, line)) (hnone : d.symbols.get? name = none)
    (hused : (∃ e ∈ (Draft.start size).readEmissions 1 (Text.lines text), ∃ patch,
        e.pending = .symbol name patch) ∨ ∃ l, d.entrySymbol = some (name, l)) :
    (assemble size text).succeeded = false ∧
      ∃ i first, d.undefinedSymbols[i]? = some (name, first) ∧
        (d.location + i < size →
          TakenForUndefined size text d name line first (d.location + i)) ∧
        (size ≤ d.location + i → LeftOpen size text d name first) := by
  have hundefined : d.symbols.contains name = true ∨
      ∃ first, (name, first) ∈ d.undefinedSymbols := by
    rcases hused with ⟨e, he, patch, hpending⟩ | ⟨l, hentry⟩
    · have huse : e.use? = some (name, patch) := by simp only [Emission.use?, hpending]
      have haccounts := Draft.accounts_readLines size (Text.lines text)
      rw [hread] at haccounts
      have hmem : (name, patch) ∈ Draft.uses d.futures :=
        haccounts.uses.mem_iff.mpr (List.mem_filterMap.mpr ⟨e, he, huse⟩)
      exact Draft.contains_or_mem_undefinedSymbols hmem
    · exact Draft.contains_or_mem_undefinedSymbols_of_entry hentry
  rcases hundefined with hcontains | ⟨first, hmem⟩
  · rw [SymbolTable.contains, hnone] at hcontains
    cases hcontains
  · obtain ⟨i, hi⟩ := List.getElem?_of_mem hmem
    refine ⟨?_, i, first, hi, takenForUndefined hread hlabel hi, leftOpen hread hlabel hi⟩
    rcases Nat.lt_or_ge (d.location + i) size with hroom | hfull
    · exact (takenForUndefined hread hlabel hi hroom).refused.not_succeeded
    · exact (leftOpen hread hlabel hi hfull).refused.not_succeeded

def labelledEnd : String := " LDA X\n ADD =5=\nX END X"

def labelledEndDraft : Draft := (Draft.start 8).readLines 1 (Text.lines labelledEnd)

theorem labelledEnd_used :
    labelledEndDraft.endLabel = some ("X", 3) ∧ labelledEndDraft.symbols.get? "X" = none ∧
      labelledEndDraft.entrySymbol = some ("X", 3) ∧
      labelledEndDraft.undefinedSymbols = [("X", 1)] ∧ labelledEndDraft.location = 2 := by
  decide +kernel

/-- The label names the first of the two inserted words and not the location after both. -/
theorem assemble_endLabel_taken :
    labelledEndDraft.endLabel = some ("X", 3) ∧ labelledEndDraft.symbols.get? "X" = none ∧
      labelledEndDraft.entrySymbol = some ("X", 3) ∧
      (assemble 8 labelledEnd).succeeded = false ∧
      (assemble 8 labelledEnd).symbols.get? "X" = some 2 ∧
      2 < (Draft.ofLines 8 (Text.lines labelledEnd)).location ∧
      (assemble 8 labelledEnd).Reports 1 .warning (.undefinedSymbol "X" 2) ∧
      (assemble 8 labelledEnd).Reports 3 .error (.duplicateSymbol "X" 2) ∧
      (assemble 8 labelledEnd).entry = some 2 := by
  obtain ⟨hlabel, hnone, hentry, hundefined, hlocation⟩ := labelledEnd_used
  obtain ⟨hfailed, i, first, hi, htaken, -⟩ := assemble_endLabel (d := labelledEndDraft) rfl hlabel
    hnone (.inr ⟨3, hentry⟩)
  rw [hundefined] at hi
  cases i with
  | succ i => cases hi
  | zero =>
    cases hi
    rw [hlocation] at htaken
    have hplace := htaken (by decide)
    exact ⟨hlabel, hnone, hentry, hfailed, hplace.value, hplace.before, hplace.warned,
      hplace.refused, hplace.entry 3 hentry⟩

/-- So a label of the last line cannot be used before, neither without a warning, nor without an
error, nor for the location that it should name. -/
theorem not_endLabel_resolves :
    ¬ ∀ (size : Nat) (text : String) (d : Draft) (name : String) (line : Nat),
      (Draft.start size).readLines 1 (Text.lines text) = d →
      d.endLabel = some (name, line) → d.symbols.get? name = none →
      ((∃ e ∈ (Draft.start size).readEmissions 1 (Text.lines text), ∃ patch,
        e.pending = .symbol name patch) ∨ ∃ l, d.entrySymbol = some (name, l)) →
      (∀ first place, ¬ (assemble size text).Reports first .warning (.undefinedSymbol name place)) ∨
        (∀ l v, ¬ (assemble size text).Reports l .error (.duplicateSymbol name v)) ∨
        (assemble size text).symbols.get? name =
          some ((Draft.ofLines size (Text.lines text)).location : Int) := by
  intro h
  obtain ⟨hlabel, hnone, hentry, -, -⟩ := labelledEnd_used
  rcases h 8 labelledEnd labelledEndDraft "X" 3 rfl hlabel hnone (.inr ⟨3, hentry⟩) with
    hquiet | haccepted | hvalue
  · refine hquiet 1 2 (reports_assemble ?_)
    decide +kernel
  · refine haccepted 3 2 (reports_assemble ?_)
    decide +kernel
  · revert hvalue
    decide +kernel

end Assembly

end MixComputer
