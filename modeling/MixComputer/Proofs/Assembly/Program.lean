import MixComputer.Proofs.Assembly.Denotation
import MixComputer.Proofs.Assembly.Entry

/-!
Whole programs. If a program is assembled without an error, and no place in memory is used twice,
then every instruction that reading comes to ends as a word that denotes its operand under the
final symbols, and the entry is the value of the operand of `END`. So the order in which symbols
are used and defined does not matter.
-/
namespace MixComputer

namespace Assembly

open Source

namespace Draft

def emissions (size : Nat) (lines : List String) : List Emission :=
  (start size).readEmissions 1 lines ++ ((start size).readLines 1 lines).resolveEmissions

/-- Reading comes to a line with the given parts, and has made the given draft by then. Lines
behind `END` are not reached. -/
def Reaches (size : Nat) (lines : List String) (d : Draft) (l : Line) (mnemonic : Mnemonic) :
    Prop :=
  ∃ k text, (start size).draftAt? 1 lines k = some d ∧ lines[k]? = some text ∧
    isComment text = false ∧ parseLine text = .ok (l, mnemonic)

section Line

variable {d : Draft} {text : String} {l : Line} {mnemonic : Mnemonic} {line : Nat}

/-- A line that is taken without an error has been obeyed. -/
theorem obey_of_clean (hcomment : isComment text = false)
    (hparse : parseLine text = .ok (l, mnemonic)) (hclean : (d.takeLine text line).1.Clean) :
    (d.obey mnemonic l line).2 = .ok () ∧
      d.takeLine text line = ((d.obey mnemonic l line).1, mnemonic == .directive .finish) := by
  have htakes := takes_takeLine d text line
  generalize d.takeLine text line = taken at hclean htakes ⊢
  cases htakes with
  | comment hcomment' => simp [hcomment] at hcomment'
  | malformed _ hparse' => simp [hparse] at hparse'
  | obeyed _ hparse' hobey =>
    obtain ⟨rfl, rfl⟩ := Prod.mk.inj (Except.ok.inj (hparse.symm.trans hparse'))
    rw [hobey]
    exact ⟨rfl, rfl⟩
  | refused _ _ _ => exact absurd hclean (not_clean_report_error _ _ _)

/-- The word of an instruction without an error is put at the location of the line. -/
theorem lineEmissions_of_clean {op : Operation} {standard : Byte}
    (hcomment : isComment text = false)
    (hparse : parseLine text = .ok (l, .instruction op standard))
    (hclean : (d.takeLine text line).1.Clean) :
    ∃ (d₁ : Draft) (entry : Word × Pending), d₁.location = d.location ∧
      d₁.instructionWord op standard l.operand line = .ok entry ∧
      d.lineEmissions text line = [⟨d.location, entry.1, entry.2⟩] ∧
      d₁.Leads (d.takeLine text line).1 := by
  obtain ⟨hobey, htake⟩ := obey_of_clean hcomment hparse hclean
  obtain ⟨d₁, d₂, hlabel, hword, hresult⟩ := attemptBoth_eq_ok hobey
  obtain ⟨entry, hentry, hput⟩ := (bind_eq_ok_iff _ _ _).mp hword
  have hlocation : d₁.location = d.location := by
    obtain ⟨symbols, -, rfl⟩ := defineLabel_eq_ok hlabel
    rfl
  refine ⟨d₁, entry, hlocation, hentry, ?_, ?_⟩
  · unfold lineEmissions obeyEmissions
    simp only [hcomment, Bool.false_eq_true, if_false, hparse, hlabel, lineWord, hentry]
    change d₁.emissionHere entry = [⟨d.location, entry.1, entry.2⟩]
    rw [emissionHere, if_pos (put_eq_ok_iff.mp hput).1, hlocation]
  · have htaken : (d.takeLine text line).1 = d₂ := by
      rw [htake]
      exact hresult
    rw [htaken]
    exact leads_put hput

end Line

section Program

variable {size : Nat} {lines : List String} {d : Draft} {l : Line}

/-- The word of a line is in the record, at the location of the line. -/
theorem Reaches.mem_readEmissions {d₁ : Draft} {mnemonic : Mnemonic}
    (h : Reaches size lines d l mnemonic) (hlabel : d.defineLabel l.label = .ok d₁)
    (hroom : d₁.location < d₁.memory.size) :
    ∃ line, ∀ entry, d₁.lineWord mnemonic l line = some entry →
      ⟨d₁.location, entry.1, entry.2⟩ ∈ (start size).readEmissions 1 lines := by
  obtain ⟨k, text, hdraft, htext, hcomment, hparse⟩ := h
  refine ⟨1 + k, fun entry hentry => lineEmissions_subset hdraft htext ?_⟩
  unfold lineEmissions obeyEmissions
  simp only [hcomment, Bool.false_eq_true, if_false, hparse, hlabel, hentry]
  change _ ∈ d₁.emissionHere entry
  rw [emissionHere, if_pos hroom]
  exact List.mem_singleton.mpr rfl

theorem leads_resolve_withSymbols (d : Draft) : d.withSymbols.Leads d.resolve :=
  ((leads_withLiterals d).trans (leads_withUses d)).trans (quiet_resolve d).leads

theorem leads_resolve (d : Draft) : d.Leads d.resolve :=
  (leads_withSymbols d).trans (leads_resolve_withSymbols d)

theorem clean_ofLines (text : String) (h : (assemble size text).succeeded = true) :
    (ofLines size (Text.lines text)).Clean := by
  intro r hr herror
  have hall := List.all_eq_true.mp h _ (List.mem_map_of_mem hr)
  rw [herror] at hall
  cases hall

/-- Every instruction ends as a word that denotes its operand under the final symbols. -/
theorem Reaches.denotes {op : Operation} {standard : Byte}
    (h : Reaches size lines d l (.instruction op standard))
    (hclean : (ofLines size lines).Clean)
    (hnodup : ((emissions size lines).map Emission.location).Nodup) :
    ∃ operand w i, readOperand l.operand = .ok operand ∧
      (ofLines size lines).memory[d.location]? = some w ∧ Instruction.decode w = .ok i ∧
      i.operation = op ∧
      Denotes ⟨(ofLines size lines).symbols, d.location⟩ (ofLines size lines).memory operand
        standard i := by
  obtain ⟨k, text, hdraft, htext, hcomment, hparse⟩ := h
  have hlead : (d.takeLine text (1 + k)).1.Leads (ofLines size lines) :=
    (leads_of_draftAt? hdraft htext).trans (leads_resolve _)
  obtain ⟨d₁, entry, hlocation, hentry, hemitted, hafter⟩ :=
    lineEmissions_of_clean hcomment hparse (hlead.clean hclean)
  obtain ⟨operand, index, field, hoperand, hindex, hfield, hassembles⟩ :=
    instructionWord_eq_ok hentry
  have hmem : (⟨d.location, entry.1, entry.2⟩ : Emission) ∈
      (start size).readEmissions 1 lines := by
    apply lineEmissions_subset hdraft htext
    rw [hemitted]
    exact List.mem_singleton.mpr rfl
  rw [emissions, List.map_append] at hnodup
  have hsettled := settled_resolve (accounts_readLines size lines) hclean hnodup hmem
  rw [← hlocation] at hsettled ⊢
  have hscope := (hafter.trans hlead).scope
  obtain ⟨w, i, hword, hdecode, hoperation, hdenotes⟩ :=
    hassembles.denotes hindex hfield hscope hsettled
  exact ⟨operand, w, i, hoperand, hword, hdecode, hoperation, hdenotes⟩

theorem checkLocation_eq_ok {quantity : Quantity} {v : Int} {n : Nat}
    (h : d.checkLocation quantity v = .ok n) : v = n := by
  unfold checkLocation at h
  split at h
  · rename_i hrange
    cases h
    exact (Int.toNat_of_nonneg hrange.1).symm
  · cases h

theorem entry_settleEndLabel (d : Draft) : d.settleEndLabel.entry = d.entry := by
  obtain ⟨symbols, reports, -, -, h⟩ := settleEndLabel_eq d
  rw [h]

/-- An entry that is known when `END` is read stays. -/
theorem entry_resolve_of_none (h : d.entrySymbol = none) : d.resolve.entry = d.entry := by
  have hsame := sameTasks_withUses d
  have hnone : d.withUses.entrySymbol = none := hsame.entrySymbol.trans h
  rw [resolve_eq, entry_settleEndLabel, settleEntry]
  simp only [hnone]
  exact hsame.entry

/-- A symbol that names the entry has a value in the end, and the value is the entry. -/
theorem entry_resolve_of_symbol {name : String} {line : Nat}
    (h : d.entrySymbol = some (name, line)) (hclean : d.resolve.Clean) :
    ∃ n : Nat, d.resolve.symbols.get? name = some (n : Int) ∧ d.resolve.entry = some n := by
  have hsame := sameTasks_withUses d
  have hsymbol : d.withUses.entrySymbol = some (name, line) := hsame.entrySymbol.trans h
  obtain ⟨value, hvalue⟩ := get?_withSymbols (clean_withSymbols hclean)
    (contains_or_mem_undefinedSymbols_of_entry h)
  have hvalue' : d.withUses.symbols.get? name = some value :=
    ((leads_withLiterals d).trans (leads_withUses d)).symbols.get? hvalue
  have hfinal := (quiet_resolve d).symbols.get? hvalue'
  rw [resolve_eq] at hclean
  have hclean' := (quiet_settleEndLabel _).leads.clean hclean
  rw [settleEntry] at hclean'
  simp only [hsymbol, hvalue'] at hclean'
  cases hcheck : d.withUses.checkLocation .entryPoint value with
  | error error =>
    simp only [hcheck] at hclean'
    exact absurd hclean' (not_clean_report_error _ _ _)
  | ok n =>
    refine ⟨n, ?_, ?_⟩
    · rw [← checkLocation_eq_ok hcheck]
      exact hfinal
    · rw [resolve_eq, entry_settleEndLabel, settleEntry]
      simp only [hsymbol, hvalue', hcheck]

/-- The entry is the value of the operand of `END` under the final symbols. -/
theorem Reaches.entry (h : Reaches size lines d l (.directive .finish))
    (hclean : (ofLines size lines).Clean) :
    ∃ (w : WValue) (n : Nat), readWValue l.operand = .ok w ∧
      (ofLines size lines).entry = some n ∧
      Scope.HasValue ⟨(ofLines size lines).symbols, d.location⟩ w n := by
  obtain ⟨k, text, hdraft, htext, hcomment, hparse⟩ := h
  have hlead := (leads_of_draftAt? hdraft htext).trans (leads_resolve _)
  obtain ⟨hobey, htake⟩ := obey_of_clean hcomment hparse (hlead.clean hclean)
  -- Reading ends here, so the draft of all lines is the draft after this line.
  have hlast : (start size).readLines 1 lines = (d.obey (.directive .finish) l (1 + k)).1 := by
    rw [(draftAt?_eq_some hdraft).1, drop_of_getElem? htext]
    unfold readLines
    rw [htake]
    rfl
  obtain ⟨d₁, d₂, hlabel, hset, hresult⟩ := attemptBoth_eq_ok hobey
  have hquiet := quiet_deferLabel hlabel
  obtain ⟨endLabel, rfl⟩ := deferLabel_eq_ok hlabel
  have hdone : ofLines size lines = d₂.resolve := by
    unfold ofLines
    rw [hlast]
    exact congrArg resolve hresult
  have hlead₂ : d.Leads d₂.resolve :=
    (hquiet.trans (quiet_setEntry hset)).leads.trans (leads_resolve d₂)
  rw [hdone] at hclean ⊢
  obtain ⟨w, hw, ⟨name, hname, rfl⟩ | ⟨v, n, hv, hcheck, rfl⟩⟩ := setEntry_eq_ok hset
  · obtain ⟨n, hvalue, hentry⟩ := entry_resolve_of_symbol rfl hclean
    refine ⟨w, n, hw, hentry, ?_⟩
    obtain ⟨e, he, hopen⟩ := Option.bind_eq_some_iff.mp hname
    unfold Scope.HasValue
    rw [he]
    simpa using Scope.evaluate_loneSymbol (openSymbol?_eq_some hopen).1 hvalue
  · have hnone : d.entrySymbol = none := entrySymbol_draftAt? hdraft
    refine ⟨w, n, hw, entry_resolve_of_none hnone, ?_⟩
    rw [← checkLocation_eq_ok hcheck]
    exact Scope.hasValue_of_word (hlead₂.scope.word hv)

end Program

end Draft

section Diagnostics

def Reports (a : Assembly) (line : Nat) (severity : Severity) (error : Error) : Prop :=
  ∃ g ∈ a.diagnostics, g.line = line ∧ g.severity = severity ∧ g.error = error

variable {size : Nat} {text : String} {line : Nat} {error : Error}

theorem reports_assemble {severity : Severity}
    (h : ⟨line, severity, error⟩ ∈ (Draft.ofLines size (Text.lines text)).reports) :
    (assemble size text).Reports line severity error :=
  ⟨_, List.mem_map_of_mem h, rfl, rfl, rfl⟩

theorem Reports.not_succeeded {a : Assembly} (h : a.Reports line .error error) :
    a.succeeded = false := by
  obtain ⟨g, hg, -, hseverity, -⟩ := h
  refine List.all_eq_false.mpr ⟨g, hg, ?_⟩
  rw [hseverity]
  decide

end Diagnostics

/-- What assembly without an error achieves. Every instruction that is reached is found at its
location, as a word that denotes its operand, and the entry is the value of the operand of
`END`. -/
theorem assemble_denotes (size : Nat) (text : String)
    (hsucceeded : (assemble size text).succeeded = true)
    (hdistinct : ((Draft.emissions size (Text.lines text)).map Emission.location).Nodup) :
    (∀ d l op standard, Draft.Reaches size (Text.lines text) d l (.instruction op standard) →
      ∃ operand w i, readOperand l.operand = .ok operand ∧
        (assemble size text).memory[d.location]? = some w ∧ Instruction.decode w = .ok i ∧
        i.operation = op ∧
        Denotes ⟨(assemble size text).symbols, d.location⟩ (assemble size text).memory operand
          standard i) ∧
    ∀ d l, Draft.Reaches size (Text.lines text) d l (.directive .finish) →
      ∃ (w : WValue) (n : Nat), readWValue l.operand = .ok w ∧
        (assemble size text).entry = some n ∧
        Scope.HasValue ⟨(assemble size text).symbols, d.location⟩ w n := by
  have hclean := Draft.clean_ofLines text hsucceeded
  constructor
  · intro d l op standard hreaches
    exact hreaches.denotes hclean hdistinct
  · intro d l hreaches
    exact hreaches.entry hclean

def crossReferences : String :=
  " LDA X,1(0:3)\n STA =-5=\n JMP -U\nX CON 3\n END X"

theorem crossReferences_denotes :
    (assemble 8 crossReferences).succeeded = true ∧
      ((Draft.emissions 8 (Text.lines crossReferences)).map Emission.location).Nodup ∧
      (∃ operand w i, readOperand "X,1(0:3)" = .ok operand ∧
        (assemble 8 crossReferences).memory[0]? = some w ∧ Instruction.decode w = .ok i ∧
        i.operation = .load .a ∧
        Denotes ⟨(assemble 8 crossReferences).symbols, 0⟩ (assemble 8 crossReferences).memory
          operand 5 i) ∧
      ∃ d l, Draft.Reaches 8 (Text.lines crossReferences) d l (.directive .finish) ∧
        ∃ (w : WValue) (n : Nat), readWValue l.operand = .ok w ∧
          (assemble 8 crossReferences).entry = some n ∧
          Scope.HasValue ⟨(assemble 8 crossReferences).symbols, d.location⟩ w n := by
  have hsucceeded : (assemble 8 crossReferences).succeeded = true := by decide +kernel
  have hdistinct :
      ((Draft.emissions 8 (Text.lines crossReferences)).map Emission.location).Nodup := by
    decide +kernel
  have hmeaning := assemble_denotes 8 crossReferences hsucceeded hdistinct
  have hload : Draft.Reaches 8 (Text.lines crossReferences) (Draft.start 8)
      ⟨none, "LDA", "X,1(0:3)", " X,1(0:3)"⟩ (.instruction (.load .a) 5) :=
    ⟨0, " LDA X,1(0:3)", rfl, by decide +kernel, by decide +kernel, by decide +kernel⟩
  have hdraft : ((Draft.start 8).draftAt? 1 (Text.lines crossReferences) 4).isSome = true := by
    decide +kernel
  obtain ⟨d, hd⟩ := Option.isSome_iff_exists.mp hdraft
  have hend : Draft.Reaches 8 (Text.lines crossReferences) d ⟨none, "END", "X", " X"⟩
      (.directive .finish) :=
    ⟨4, " END X", hd, by decide +kernel, by decide +kernel, by decide +kernel⟩
  refine ⟨hsucceeded, hdistinct, hmeaning.1 _ _ _ _ hload, d, _, hend, ?_⟩
  exact hmeaning.2 d _ hend

end Assembly

end MixComputer
