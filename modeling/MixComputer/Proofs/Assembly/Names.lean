import MixComputer.Proofs.Assembly.Numbering
import MixComputer.Proofs.Source.Symbol

/-!
The names in the symbol table. Lines define symbols by their labels, which are checked. A symbol
that is only referred to is a name of any length, and is defined as it was written when no line
defines it.
-/
namespace MixComputer.Assembly

open Source

namespace Draft

/-- Lines have defined symbols only, and refer to names. -/
structure Named (d : Draft) : Prop where
  symbols : ∀ e ∈ d.symbols.entries, symbolProblem? e.1 = none
  uses : ∀ u ∈ uses d.futures, IsName u.1
  entrySymbol : ∀ s ∈ d.entrySymbol, IsName s.1
  endLabel : ∀ s ∈ d.endLabel, symbolProblem? s.1 = none

variable {d d' : Draft} {line : Nat} {label : Option String}

theorem named_start (size : Nat) : (start size).Named :=
  ⟨fun _ h => absurd h List.not_mem_nil, fun _ h => absurd h List.not_mem_nil, nofun, nofun⟩

theorem Named.withReports (h : d.Named) (rs : List Report) : (d.withReports rs).Named :=
  ⟨h.symbols, h.uses, h.entrySymbol, h.endLabel⟩

section Written

theorem isName_of_loneSymbol? {cs : List Char} {t : Token} {e : Expression} {name : String}
    {negative : Bool} (ht : t ∈ Token.ofChars cs) (hfirst : Atom.ofToken? t = some e.first)
    (h : e.loneSymbol? = some (name, negative)) : IsName name := by
  unfold Expression.loneSymbol? at h
  split at h
  · rename_i written hsymbol _
    cases h
    exact isName_of_ofToken? ht (hfirst.trans (congrArg some hsymbol))
  · cases h

/-- What is left open in a directive is the name of a symbol. -/
theorem isName_of_wValue {operand : String} {w : WValue} {name : String} {negative : Bool}
    (hw : readWValue operand = .ok w)
    (h : (wholeExpression? w).bind d.openSymbol? = some (name, negative)) : IsName name := by
  obtain ⟨e, he, hopen⟩ := Option.bind_eq_some_iff.mp h
  unfold wholeExpression? at he
  split at he
  · cases he
    unfold readWValue at hw
    split at hw
    · rename_i hread
      cases hw
      unfold WValue.ofChars? at hread
      split at hread
      · cases hread
      · obtain ⟨t, ht, hfirst⟩ := wValue_first hread (List.mem_singleton.mpr rfl)
        exact isName_of_loneSymbol? ht hfirst (openSymbol?_eq_some hopen).1
    · cases hw
  · cases he

theorem isName_of_operand {text : String} {operand : Operand} {e : Expression} {name : String}
    {negative : Bool} (hread : readOperand text = .ok operand)
    (haddress : operand.address = .expression e)
    (h : d.openSymbol? e = some (name, negative)) : IsName name := by
  unfold readOperand at hread
  split at hread
  · rename_i hoperand
    cases hread
    obtain ⟨t, ht, hfirst⟩ := operand_first hoperand haddress
    exact isName_of_loneSymbol? ht hfirst (openSymbol?_eq_some h).1
  · cases hread

/-- The word of a line waits for no symbol, or for a name. -/
theorem isName_of_lineWord {mnemonic : Mnemonic} {l : Line} {w : Word} {name : String}
    {patch : Patch} (h : d.lineWord mnemonic l line = some (w, .symbol name patch)) :
    IsName name := by
  have hok {x : Except Error (Word × Pending)} {a : Word × Pending}
      (hx : x.toOption = some a) : x = .ok a := by
    cases x with
    | error error => cases hx
    | ok a => exact congrArg Except.ok (Option.some.inj hx)
  cases mnemonic with
  | instruction op standard =>
    obtain ⟨operand, index, field, hread, -, -, hassembles⟩ := instructionWord_eq_ok (hok h)
    obtain ⟨address, i, f⟩ := operand
    cases hassembles with
    | waiting hopen => exact isName_of_operand hread rfl hopen
  | directive directive =>
    cases directive with
    | constant =>
      obtain ⟨value, hread, h⟩ := (bind_eq_ok_iff _ _ _).mp (hok h)
      cases hopen : (wholeExpression? value).bind d.openSymbol? with
      | some reference =>
        simp only [hopen] at h
        cases h
        exact isName_of_wValue hread hopen
      | none =>
        simp only [hopen] at h
        obtain ⟨v, -, h⟩ := (bind_eq_ok_iff _ _ _).mp h
        cases h
    | characters => cases (charactersWord_patch (hok h))
    | equate => cases h
    | origin => cases h
    | finish => cases h

theorem symbolProblem?_of_parseLine {text name : String} {l : Line} {mnemonic : Mnemonic}
    (h : parseLine text = .ok (l, mnemonic)) (hname : l.label = some name) :
    symbolProblem? name = none := by
  unfold parseLine at h
  split at h
  · cases h
  · rename_i hline
    split at h
    · cases h
      exact symbolProblem?_of_label hline hname
    · cases h

end Written

section Line

theorem named_define {name : String} {value : Int} (h : d.Named)
    (hname : symbolProblem? name = none) (hdefine : d.define name value = .ok d') : d'.Named := by
  obtain ⟨symbols, hinsert, rfl⟩ := define_eq_ok_iff.mp hdefine
  obtain ⟨-, rfl⟩ := (SymbolTable.insert_eq_ok_iff _ _ _ _).mp hinsert
  refine ⟨fun e he => ?_, h.uses, h.entrySymbol, h.endLabel⟩
  obtain hold | hnew := List.mem_append.mp he
  · exact h.symbols e hold
  · rw [List.mem_singleton.mp hnew]
    exact hname

theorem named_defineLabel (h : d.Named) (hname : ∀ name ∈ label, symbolProblem? name = none)
    (hlabel : d.defineLabel label = .ok d') : d'.Named := by
  cases label with
  | none =>
    cases hlabel
    exact h
  | some name => exact named_define h (hname name rfl) hlabel

theorem named_equate {operand : String} (h : d.Named)
    (hname : ∀ name ∈ label, symbolProblem? name = none)
    (hequate : d.equate label operand = .ok d') : d'.Named := by
  obtain ⟨w, -, hequate⟩ := (bind_eq_ok_iff _ _ _).mp hequate
  cases label with
  | none =>
    cases hequate
    exact h
  | some name => exact named_define h (hname name rfl) hequate

theorem named_moveOrigin {operand : String} (h : d.Named)
    (horigin : d.moveOrigin operand = .ok d') : d'.Named := by
  obtain ⟨w, -, horigin⟩ := (bind_eq_ok_iff _ _ _).mp horigin
  obtain ⟨location, -, horigin⟩ := (bind_eq_ok_iff _ _ _).mp horigin
  cases horigin
  exact ⟨h.symbols, h.uses, h.entrySymbol, h.endLabel⟩

theorem named_deferLabel (h : d.Named) (hname : ∀ name ∈ label, symbolProblem? name = none)
    (hlabel : d.deferLabel label line = .ok d') : d'.Named := by
  rw [eq_note_of_deferLabel hlabel]
  cases hnew : d.newLabel? label with
  | none => exact h
  | some name =>
    refine ⟨h.symbols, h.uses, h.entrySymbol, fun s hs => ?_⟩
    cases hs
    exact hname name (Option.filter_eq_some_iff.mp hnew).1

theorem named_setEntry {operand : String} (h : d.Named)
    (hentry : d.setEntry operand line = .ok d') : d'.Named := by
  obtain ⟨w, hw, ⟨name, hopen, rfl⟩ | ⟨v, entry, -, -, rfl⟩⟩ := setEntry_eq_ok hentry
  · refine ⟨h.symbols, h.uses, fun s hs => ?_, h.endLabel⟩
    cases hs
    exact isName_of_wValue hw hopen
  · exact ⟨h.symbols, h.uses, h.entrySymbol, h.endLabel⟩

theorem named_put {entry : Word × Pending} (h : d.Named)
    (hsymbol : ∀ name patch, entry.2 = .symbol name patch → IsName name)
    (hput : d.put entry = .ok d') : d'.Named := by
  obtain ⟨-, rfl⟩ := put_eq_ok_iff.mp hput
  obtain ⟨w, pending⟩ := entry
  cases pending with
  | nothing | literal v patch => exact ⟨h.symbols, h.uses, h.entrySymbol, h.endLabel⟩
  | symbol name patch =>
    refine ⟨h.symbols, fun u hu => ?_, h.entrySymbol, h.endLabel⟩
    obtain rfl | hold := List.mem_cons.mp ((uses_addFuture name patch d.futures).mem_iff.mp hu)
    · exact hsymbol name patch rfl
    · exact h.uses u hold

theorem named_obey (h : d.Named) (mnemonic : Mnemonic) (l : Line)
    (hname : ∀ name ∈ l.label, symbolProblem? name = none) :
    (d.obey mnemonic l line).1.Named := by
  refine obey_keeps h (fun _ => named_defineLabel h hname) (fun _ => named_equate h hname)
    (fun _ _ => named_moveOrigin) ?_ (fun _ => named_deferLabel h hname) (fun _ _ => named_setEntry)
  intro d₁ d₂ entry h₁ hword hput
  refine named_put h₁ (fun name patch hsymbol => ?_) hput
  exact isName_of_lineWord (hword.trans (congrArg some (Prod.ext rfl hsymbol)))

/-- A line defines no symbol but its label, and refers to names. -/
theorem named_takeLine (d : Draft) (text : String) (line : Nat) (h : d.Named) :
    (d.takeLine text line).1.Named := by
  refine takeLine_keeps h (fun _ _ h => h.withReports _) fun l mnemonic hparse => ?_
  exact named_obey h mnemonic l fun name => symbolProblem?_of_parseLine hparse

theorem named_readLines (size : Nat) (texts : List String) :
    ((start size).readLines 1 texts).Named :=
  readLines_induction (P := Named) named_takeLine 1 texts (named_start size)

end Line

section Resolve

/-- An undefined symbol is the name that was referred to. -/
theorem Named.undefinedSymbols (h : d.Named) : ∀ u ∈ d.undefinedSymbols, IsName u.1 := by
  intro u hu
  obtain ⟨-, ⟨f, hf, rfl⟩ | hentry⟩ := mem_undefinedSymbols hu
  · refine h.uses (f.name, f.first) (List.mem_flatMap.mpr ⟨f, hf, ?_⟩)
    exact List.mem_map_of_mem List.mem_cons_self
  · exact h.entrySymbol u hentry

/-- Whatever is defined when undefined symbols get their words is one of them, with a warning. -/
theorem entries_foldl_allocateSymbol (us : List (String × Nat)) (d : Draft) {e : String × Int}
    (he : e ∈ (us.foldl (fun d u => d.allocateSymbol u.1 u.2) d).symbols.entries) :
    e ∈ d.symbols.entries ∨ ∃ u ∈ us, ∃ place : Nat, e = (u.1, (place : Int)) ∧
      ⟨u.2, .warning, .undefinedSymbol u.1 place⟩ ∈
        (us.foldl (fun d u => d.allocateSymbol u.1 u.2) d).reports := by
  induction us generalizing d with
  | nil => exact .inl he
  | cons u us ih =>
    rw [List.foldl_cons] at he ⊢
    have hrest := leads_foldl leads_allocateSymbol us (d.allocateSymbol u.1 u.2)
    obtain hfirst | ⟨u', hu', place, hplace, hwarned⟩ := ih _ he
    · obtain ⟨error, h⟩ | ⟨-, symbols, hinsert, h⟩ := allocateSymbol_cases d u.1 u.2
      · rw [h] at hfirst
        exact .inl hfirst
      · obtain ⟨-, rfl⟩ := (SymbolTable.insert_eq_ok_iff _ _ _ _).mp hinsert
        have hwarned : (⟨u.2, .warning, .undefinedSymbol u.1 d.location⟩ : Report) ∈
            (d.allocateSymbol u.1 u.2).reports := by
          rw [h]
          exact List.mem_append_right _ (List.mem_singleton.mpr rfl)
        rw [h] at hfirst
        obtain hold | hnew := List.mem_append.mp hfirst
        · exact .inl hold
        · exact .inr ⟨u, List.mem_cons_self, d.location, List.mem_singleton.mp hnew,
            hrest.reports.subset hwarned⟩
    · exact .inr ⟨u', List.mem_cons_of_mem u hu', place, hplace, hwarned⟩

/-- The symbols of the final table: those of the lines, those that no line defines, and the label
of the last line. -/
theorem entries_resolve {e : String × Int} (he : e ∈ d.resolve.symbols.entries) :
    e ∈ d.symbols.entries ∨
      (∃ u ∈ d.undefinedSymbols, ∃ place : Nat, e = (u.1, (place : Int)) ∧
        ⟨u.2, .warning, .undefinedSymbol u.1 place⟩ ∈ d.resolve.reports) ∨
      ∃ line, d.endLabel = some (e.1, line) := by
  have hreports := ((leads_withLiterals d).trans (leads_withUses d)).reports.trans
    (quiet_resolve d).reports
  have hknown (he : e ∈ d.withUses.settleEntry.symbols.entries) :
      e ∈ d.symbols.entries ∨ ∃ u ∈ d.undefinedSymbols, ∃ place : Nat, e = (u.1, (place : Int)) ∧
        ⟨u.2, .warning, .undefinedSymbol u.1 place⟩ ∈ d.resolve.reports := by
    rw [symbols_settleEntry, symbols_withUses] at he
    obtain hold | ⟨u, hu, place, hplace, hwarned⟩ := entries_foldl_allocateSymbol _ d he
    · exact .inl hold
    · exact .inr ⟨u, hu, place, hplace, hreports.subset hwarned⟩
  rw [resolve_eq, settleEndLabel, endLabel_settled] at he
  split at he
  · exact (hknown he).imp_right .inl
  · rename_i name line hlabel
    split at he
    · rename_i hdefine
      obtain ⟨symbols, hinsert, rfl⟩ := define_eq_ok_iff.mp hdefine
      obtain ⟨-, rfl⟩ := (SymbolTable.insert_eq_ok_iff _ _ _ _).mp hinsert
      obtain hold | hnew := List.mem_append.mp he
      · exact (hknown hold).imp_right .inl
      · rw [List.mem_singleton.mp hnew]
        exact .inr (.inr ⟨line, hlabel⟩)
    · exact (hknown he).imp_right .inl

end Resolve

end Draft

/-- A name in the symbol table is a symbol: one to ten letters and digits with a letter among them.
The only exception is a symbol of more than ten characters that was referred to and that no line
defines; the warning about it gives its name and its location. -/
theorem assemble_names (size : Nat) (text : String) {name : String} {value : Int}
    (h : (name, value) ∈ (assemble size text).symbols.entries) :
    symbolProblem? name = none ∨
      symbolProblem? name = some (.symbolTooLong name) ∧ ∃ (line place : Nat), value = place ∧
        (assemble size text).Reports line .warning (.undefinedSymbol name place) := by
  have hnamed := Draft.named_readLines size (Text.lines text)
  obtain hold | ⟨u, hu, place, hplace, hwarned⟩ | ⟨line, hlabel⟩ := Draft.entries_resolve h
  · exact .inl (hnamed.symbols (name, value) hold)
  · cases hplace
    have hproblem := symbolProblem?_of_isName (hnamed.undefinedSymbols u hu)
    by_cases hlong : maxSymbolLength < u.1.toList.length
    · rw [if_pos hlong] at hproblem
      exact .inr ⟨hproblem, u.2, place, rfl, reports_assemble hwarned⟩
    · rw [if_neg hlong] at hproblem
      exact .inl hproblem
  · exact .inl (hnamed.endLabel (name, line) hlabel)

def longReference : String := " LDA ABCDEFGHIJK"

theorem mem_longReference :
    ("ABCDEFGHIJK", 1) ∈ (assemble 4 longReference).symbols.entries := by decide +kernel

theorem symbolProblem?_longReference : symbolProblem? "ABCDEFGHIJK" ≠ none := by decide +kernel

theorem assemble_names_long :
    ("ABCDEFGHIJK", 1) ∈ (assemble 4 longReference).symbols.entries ∧
      symbolProblem? "ABCDEFGHIJK" = some (.symbolTooLong "ABCDEFGHIJK") ∧
      ∃ line, (assemble 4 longReference).Reports line .warning
        (.undefinedSymbol "ABCDEFGHIJK" 1) := by
  obtain hlegal | ⟨hproblem, line, place, hplace, hwarned⟩ :=
    assemble_names 4 longReference mem_longReference
  · exact absurd hlegal symbolProblem?_longReference
  · obtain rfl : 1 = place := Int.ofNat.inj hplace
    exact ⟨mem_longReference, hproblem, line, hwarned⟩

/-- So not all names in the symbol table are symbols. -/
theorem not_names_are_symbols :
    ¬ ∀ (size : Nat) (text : String), ∀ e ∈ (assemble size text).symbols.entries,
      symbolProblem? e.1 = none := by
  intro h
  exact symbolProblem?_longReference (h 4 longReference _ mem_longReference)

end MixComputer.Assembly
