import MixComputer.Proofs.Assembly.Program

/-!
Constants that are a symbol alone. If the symbol has a value when the line is read, the word is
made from the value at once; if not, the word waits and is patched in the end. Both give the word
of the value, with one difference: where a symbol with a minus sign has the value zero, the word
made at once is plus zero and the patched one is minus zero.
-/
namespace MixComputer

namespace Assembly

open Source

namespace Draft

section Word

theorem fits_signed (negative : Bool) {v : Int} (h : Word.Fits v) :
    Word.Fits (if negative then -v else v) := by
  unfold Word.Fits at h ⊢
  split
  · rwa [Int.natAbs_neg]
  · exact h

/-- Every value of a word fits into the whole of a word. -/
theorem patchFits_whole {location line : Nat} {negative : Bool} {v : Int} (h : Word.Fits v) :
    patchFits ⟨location, negative, Field.whole, line⟩
      (Patch.signed ⟨location, negative, Field.whole, line⟩ v) = true := by
  have hsigned := fits_signed negative h
  have hfield : (Field.whole != Field.address) = true := by decide
  unfold patchFits Patch.signed
  simp only [hfield, Bool.true_or, Bool.and_true, decide_eq_true_eq]
  exact hsigned

theorem settle_whole (location line : Nat) (negative : Bool) (w : Word) (v : Int) :
    Patch.settle ⟨location, negative, Field.whole, line⟩ w v =
      if v = 0 then Word.wrap negative 0 else Word.ofInt (if negative then -v else v) := by
  have hzero : (if negative then -v else v) = 0 ↔ v = 0 := by
    split <;> omega
  unfold Patch.settle patchWord Patch.signed
  simp only [Field.insert_whole, hzero]

variable {d : Draft} {operand : String} {e : Expression} {name : String} {negative : Bool}

theorem constantWord_of_get? (hoperand : readWValue operand = .ok [⟨e, none⟩])
    (he : e.loneSymbol? = some (name, negative)) {v : Int} (hv : d.symbols.get? name = some v)
    (hfits : Word.Fits v) (line : Nat) :
    d.constantWord operand line = .ok (Word.ofInt (if negative then -v else v), .nothing) := by
  have hopen : d.openSymbol? e = none := by
    unfold openSymbol?
    rw [he, Option.filter_some, SymbolTable.contains, hv]
    rfl
  have hvalue : d.scope.evaluate e = .ok (if negative then -v else v) :=
    Scope.evaluate_loneSymbol he hv
  have hfits' := fits_signed negative hfits
  have hword : d.scope.word [⟨e, none⟩] = .ok (Word.ofInt (if negative then -v else v)) := by
    refine (bind_eq_ok_iff _ _ _).mpr ⟨_, hvalue, ?_⟩
    refine (bind_eq_ok_iff _ _ _).mpr ⟨Field.whole, rfl, ?_⟩
    refine (bind_eq_ok_iff _ _ _).mpr ⟨_, (checkRange_eq_ok_iff _ _ _).mpr ⟨hfits', rfl⟩, ?_⟩
    rw [Field.insert_whole]
    rfl
  refine (bind_eq_ok_iff _ _ _).mpr ⟨_, hoperand, ?_⟩
  simp only [wholeExpression?, Option.bind_some, hopen]
  exact (bind_eq_ok_iff _ _ _).mpr ⟨_, hword, rfl⟩

theorem constantWord_of_get?_none (hoperand : readWValue operand = .ok [⟨e, none⟩])
    (he : e.loneSymbol? = some (name, negative)) (hnone : d.symbols.get? name = none)
    (line : Nat) :
    d.constantWord operand line =
      .ok (Word.wrap negative 0, .symbol name ⟨d.location, negative, Field.whole, line⟩) := by
  have hopen : d.openSymbol? e = some (name, negative) := by
    unfold openSymbol?
    rw [he, Option.filter_some, SymbolTable.contains, hnone]
    rfl
  refine (bind_eq_ok_iff _ _ _).mpr ⟨_, hoperand, ?_⟩
  simp only [wholeExpression?, Option.bind_some, hopen]

end Word

/-- Reading comes to a line `CON X` or `CON -X` that there is room for, and has made the given
draft when it comes to the operand. -/
def ReachesConstant (size : Nat) (lines : List String) (d : Draft) (name : String)
    (negative : Bool) : Prop :=
  ∃ d₀ l e, Reaches size lines d₀ l (.directive .constant) ∧ d₀.defineLabel l.label = .ok d ∧
    d.location < d.memory.size ∧ readWValue l.operand = .ok [⟨e, none⟩] ∧
    e.loneSymbol? = some (name, negative)

section Constant

variable {size : Nat} {lines : List String} {d : Draft} {name : String} {negative : Bool} {v : Int}

/-- The word of a symbol that has a value when the line is read. -/
theorem ReachesConstant.getElem?_of_known (h : ReachesConstant size lines d name negative)
    (hv : d.symbols.get? name = some v) (hfits : Word.Fits v)
    (honce : ((emissions size lines).map Emission.location).count d.location = 1) :
    (ofLines size lines).memory[d.location]? = some (Word.ofInt (if negative then -v else v)) := by
  obtain ⟨d₀, l, e, hreaches, hlabel, hroom, hoperand, he⟩ := h
  obtain ⟨line, hemitted⟩ := hreaches.mem_readEmissions hlabel hroom
  have hword := constantWord_of_get? hoperand he hv hfits line
  have hmem := hemitted _ (congrArg Except.toOption hword)
  exact getElem?_resolve_of_nothing (accounts_readLines size lines) hmem
    (Emission.alone_of_count honce (List.mem_append_left _ hmem)) rfl

/-- The word of a symbol that gets its value later. -/
theorem ReachesConstant.getElem?_of_open (h : ReachesConstant size lines d name negative)
    (hnone : d.symbols.get? name = none)
    (hv : ((start size).readLines 1 lines).withSymbols.symbols.get? name = some v)
    (hfits : Word.Fits v)
    (honce : ((emissions size lines).map Emission.location).count d.location = 1) :
    (ofLines size lines).memory[d.location]? =
      some (if v = 0 then Word.wrap negative 0 else Word.ofInt (if negative then -v else v)) := by
  obtain ⟨d₀, l, e, hreaches, hlabel, hroom, hoperand, he⟩ := h
  obtain ⟨line, hemitted⟩ := hreaches.mem_readEmissions hlabel hroom
  have hword := constantWord_of_get?_none hoperand he hnone line
  have hmem := hemitted _ (congrArg Except.toOption hword)
  have hpatch : patchFits ⟨d.location, negative, Field.whole, line⟩
      (Patch.signed ⟨d.location, negative, Field.whole, line⟩ v) = true :=
    patchFits_whole hfits
  refine (getElem?_resolve_of_symbol (accounts_readLines size lines) hmem
    (Emission.alone_of_count honce (List.mem_append_left _ hmem)) rfl hv hpatch).trans ?_
  rw [settle_whole]

end Constant

end Draft

/-- A constant whose symbol was defined before and one whose symbol is defined later, with the
same value in the end: unless a word is overwritten, or the symbol is the label of the last line,
both words are the value with the sign of the reference. They are one word, except that minus a
symbol of value zero is plus zero in the first and minus zero in the second. -/
theorem assemble_constant_eq_iff {size size' : Nat} {text text' : String} {d d' : Draft}
    {name : String} {negative : Bool} {v : Int} (hfits : Word.Fits v)
    (hknown : Draft.ReachesConstant size (Text.lines text) d name negative)
    (hvalue : d.symbols.get? name = some v)
    (honce : ((Draft.emissions size (Text.lines text)).map Emission.location).count
      d.location = 1)
    (hopen : Draft.ReachesConstant size' (Text.lines text') d' name negative)
    (hnone : d'.symbols.get? name = none)
    (hvalue' : (assemble size' text').symbols.get? name = some v)
    (hlabel : ∀ line,
      ((Draft.start size').readLines 1 (Text.lines text')).endLabel ≠ some (name, line))
    (honce' : ((Draft.emissions size' (Text.lines text')).map Emission.location).count
      d'.location = 1) :
    ∃ w w', (assemble size text).memory[d.location]? = some w ∧
      (assemble size' text').memory[d'.location]? = some w' ∧
      w = Word.ofInt (if negative then -v else v) ∧
      w' = (if v = 0 then Word.wrap negative 0 else Word.ofInt (if negative then -v else v)) ∧
      (w = w' ↔ ¬ (v = 0 ∧ negative = true)) := by
  have hfirst := hknown.getElem?_of_known hvalue hfits honce
  have hsecond := hopen.getElem?_of_open hnone ((Draft.get?_resolve hlabel).symm.trans hvalue')
    hfits honce'
  refine ⟨_, _, hfirst, hsecond, rfl, rfl, ?_⟩
  by_cases hzero : v = 0
  · subst hzero
    cases negative <;> decide
  · simp [hzero]

def zeroConstants : String := " CON -X\nX EQU 0\n CON -X"

def beforeSecondZero : Draft :=
  ((Draft.start 4).readLine " CON -X" 1).1.readLine "X EQU 0" 2 |>.1

theorem reachesConstant_first :
    Draft.ReachesConstant 4 (Text.lines zeroConstants) (Draft.start 4) "X" true :=
  ⟨Draft.start 4, ⟨none, "CON", "-X", " -X"⟩, ⟨true, .symbol "X", []⟩,
    ⟨0, " CON -X", rfl, by decide +kernel, by decide +kernel, by decide +kernel⟩, rfl,
    by decide +kernel, by decide +kernel, rfl⟩

theorem reachesConstant_second :
    Draft.ReachesConstant 4 (Text.lines zeroConstants) beforeSecondZero "X" true :=
  ⟨beforeSecondZero, ⟨none, "CON", "-X", " -X"⟩, ⟨true, .symbol "X", []⟩,
    ⟨2, " CON -X", by decide +kernel, by decide +kernel, by decide +kernel, by decide +kernel⟩, rfl,
    by decide +kernel, by decide +kernel, rfl⟩

theorem assemble_constant_eq_iff_zero :
    Word.Fits 0 ∧ beforeSecondZero.symbols.get? "X" = some 0 ∧
      (Draft.start 4).symbols.get? "X" = none ∧
      (assemble 4 zeroConstants).symbols.get? "X" = some 0 ∧
      ∃ w w', (assemble 4 zeroConstants).memory[beforeSecondZero.location]? = some w ∧
        (assemble 4 zeroConstants).memory[(Draft.start 4).location]? = some w' ∧
        w = Word.zero ∧ w' = Word.wrap true 0 ∧ w ≠ w' := by
  have hfits : Word.Fits 0 := by decide
  have hvalue : beforeSecondZero.symbols.get? "X" = some 0 := by decide +kernel
  have hfinal : (assemble 4 zeroConstants).symbols.get? "X" = some 0 := by decide +kernel
  have hlabel : ((Draft.start 4).readLines 1 (Text.lines zeroConstants)).endLabel = none := by
    decide +kernel
  have hlocations :
      (Draft.emissions 4 (Text.lines zeroConstants)).map Emission.location = [0, 1] := by
    decide +kernel
  have hsecond : ((Draft.emissions 4 (Text.lines zeroConstants)).map Emission.location).count
      beforeSecondZero.location = 1 := by
    rw [hlocations]
    decide +kernel
  have hfirst : ((Draft.emissions 4 (Text.lines zeroConstants)).map Emission.location).count
      (Draft.start 4).location = 1 := by
    rw [hlocations]
    rfl
  have hother : ∀ line,
      ((Draft.start 4).readLines 1 (Text.lines zeroConstants)).endLabel ≠ some ("X", line) := by
    intro line h
    rw [hlabel] at h
    cases h
  obtain ⟨w, w', hw, hw', rfl, rfl, hsame⟩ := assemble_constant_eq_iff hfits
    reachesConstant_second hvalue hsecond reachesConstant_first rfl hfinal hother hfirst
  exact ⟨hfits, hvalue, rfl, hfinal, _, _, hw, hw', rfl, rfl, fun heq => hsame.mp heq ⟨rfl, rfl⟩⟩

/-- So it can matter on which side of its definition a symbol is used, even where nothing is
reported and no word is overwritten. -/
theorem not_constants_agree :
    ¬ ∀ (size : Nat) (text : String) (d d' : Draft) (name : String) (negative : Bool) (v : Int),
      Word.Fits v → Draft.ReachesConstant size (Text.lines text) d name negative →
      d.symbols.get? name = some v →
      Draft.ReachesConstant size (Text.lines text) d' name negative →
      d'.symbols.get? name = none → (assemble size text).symbols.get? name = some v →
      (assemble size text).diagnostics = [] →
      ((Draft.emissions size (Text.lines text)).map Emission.location).Nodup →
      (assemble size text).memory[d.location]? = (assemble size text).memory[d'.location]? := by
  intro h
  have hsame := h 4 zeroConstants beforeSecondZero (Draft.start 4) "X" true 0 (by decide)
    reachesConstant_second (by decide +kernel) reachesConstant_first rfl (by decide +kernel)
    (by decide +kernel) (by decide +kernel)
  revert hsame
  decide +kernel

end Assembly

end MixComputer
