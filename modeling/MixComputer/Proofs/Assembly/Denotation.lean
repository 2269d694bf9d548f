import MixComputer.Proofs.Assembly.Settlement
import MixComputer.Proofs.Instruction

/-!
What an operand stands for, said about the symbols alone and not about when they are defined: an
instruction denotes its operand in a scope if its index, its `F` part and its address are the
values of the three parts there. The word that a line puts into memory, once it is settled, is
such an instruction.
-/
namespace MixComputer.Assembly

open Source

namespace Scope

def HasPart (s : Scope) (part : Option Expression) (standard v : Int) : Prop :=
  match part with
  | none => v = standard
  | some e => s.evaluate e = .ok v

/-- The value of a w-value. An expression alone may also be too large for a word. -/
def HasValue (s : Scope) (w : WValue) (v : Int) : Prop :=
  match wholeExpression? w with
  | some e => s.evaluate e = .ok v
  | none => ∃ word, s.word w = .ok word ∧ word.value = v

/-- The address for an address part. A value of zero has the sign of the expression, and a literal
is found in memory. -/
def HasAddress (s : Scope) (memory : Memory) (a : Address) : AddressPart → Prop
  | .empty => a = Address.zero
  | .expression e =>
    ∃ v, s.evaluate e = .ok v ∧ a.value = v ∧ (v = 0 → a.negative = e.negative)
  | .literal w =>
    ∃ word, s.word w = .ok word ∧ a.negative = false ∧ memory[a.magnitude]? = some word

variable {s t : Scope}

theorem hasPart_some (h : s.Extends t) {e : Expression} {v : Int} (hv : s.evaluate e = .ok v)
    (hrange : 0 ≤ v) (standard : Int) : t.HasPart (some e) standard (v.toNat : Nat) := by
  have hcast : ((v.toNat : Nat) : Int) = v := Int.toNat_of_nonneg hrange
  rw [HasPart, hcast]
  exact h.evaluate hv

theorem hasPart_indexOf (h : s.Extends t) {part : Option Expression} {index : Fin 7}
    (hindex : s.indexOf part = .ok index) : t.HasPart part 0 index.val := by
  cases part with
  | none =>
    cases hindex
    rfl
  | some e =>
    obtain ⟨v, hv, hindex⟩ := (bind_eq_ok_iff _ _ _).mp hindex
    by_cases hrange : 0 ≤ v ∧ v ≤ 6
    · rw [dif_pos hrange] at hindex
      cases hindex
      exact hasPart_some h hv hrange.1 0
    · rw [dif_neg hrange] at hindex
      cases hindex

theorem hasPart_fieldPartOf (h : s.Extends t) {part : Option Expression} {standard field : Byte}
    (hfield : s.fieldPartOf standard part = .ok field) :
    t.HasPart part standard.val field.val := by
  cases part with
  | none =>
    cases hfield
    rfl
  | some e =>
    obtain ⟨v, hv, hfield⟩ := (bind_eq_ok_iff _ _ _).mp hfield
    by_cases hrange : 0 ≤ v ∧ v ≤ 63
    · rw [dif_pos hrange] at hfield
      cases hfield
      exact hasPart_some h hv hrange.1 standard.val
    · rw [dif_neg hrange] at hfield
      cases hfield

/-- The value of an expression alone is the value of its word. -/
theorem hasValue_of_word {w : WValue} {v : Word} (h : s.word w = .ok v) :
    s.HasValue w v.value := by
  unfold HasValue
  split
  · rename_i e he
    have hw : w = [⟨e, none⟩] := by
      unfold wholeExpression? at he
      split at he
      · rw [Option.some.inj he]
      · cases he
    subst hw
    obtain ⟨value, hvalue, h⟩ := (bind_eq_ok_iff _ _ _).mp h
    obtain ⟨field, hfield, h⟩ := (bind_eq_ok_iff _ _ _).mp h
    obtain ⟨checked, hchecked, hstore⟩ := (bind_eq_ok_iff _ _ _).mp h
    obtain ⟨hfits, rfl⟩ := (checkRange_eq_ok_iff _ _ _).mp hchecked
    cases hfield
    cases hstore
    rw [Field.insert_whole, Word.value_ofInt hfits]
    exact hvalue
  · exact ⟨v, h, rfl⟩

end Scope

structure Denotes (s : Scope) (memory : Memory) (operand : Operand) (standard : Byte)
    (i : Instruction) : Prop where
  index : s.HasPart operand.index 0 i.index.val
  field : s.HasPart operand.field standard.val i.field.val
  address : s.HasAddress memory i.address operand.address

theorem addressOf_eq_ok {s : Scope} {e : Expression} {a : Address}
    (h : addressOf s e = .ok a) :
    ∃ v, s.evaluate e = .ok v ∧ a.value = v ∧ (v = 0 → a.negative = e.negative) ∧
      a.magnitude < weight 2 := by
  obtain ⟨v, hv, h⟩ := (bind_eq_ok_iff _ _ _).mp h
  refine ⟨v, hv, ?_⟩
  by_cases hzero : v = 0
  · rw [if_pos hzero] at h
    cases h
    refine ⟨?_, fun _ => rfl, weight_pos 2⟩
    simp [Address.value, hzero]
  · rw [if_neg hzero] at h
    by_cases hfits : v.natAbs < weight 2
    · rw [if_pos hfits] at h
      cases h
      rw [weight_two] at hfits ⊢
      refine ⟨?_, fun h => absurd h hzero, ?_⟩
      · simp only [Address.value, Address.ofInt, decide_eq_true_eq]
        split <;> omega
      · simp only [Address.ofInt]
        omega
    · rw [if_neg hfits] at h
      cases h

namespace Patch

/-- An instruction whose address is patched gets the value as its address. -/
theorem decode_settle {patch : Patch} (hfield : patch.field = Field.address) {i : Instruction}
    (hi : i.address.magnitude < weight 2) {value : Int}
    (hfits : Draft.patchFits patch (patch.signed value) = true) :
    ∃ a : Address, Instruction.decode (patch.settle i.encode value) = .ok { i with address := a } ∧
      a.value = patch.signed value ∧ (patch.signed value = 0 → a.negative = patch.negative) := by
  unfold settle
  rw [hfield, Instruction.decode_insert_address i hi]
  refine ⟨_, rfl, ?_⟩
  generalize patch.signed value = v at hfits ⊢
  have hlt : v.natAbs < weight 2 := by
    simpa [Draft.patchFits, hfield] using (Bool.and_eq_true_iff.mp hfits).2
  rw [weight_two] at hlt ⊢
  unfold Draft.patchWord
  by_cases hzero : v = 0
  · rw [if_pos hzero, hzero]
    refine ⟨?_, fun _ => rfl⟩
    simp only [Address.value, Word.magnitude_wrap, Nat.zero_mod]
    split <;> rfl
  · rw [if_neg hzero]
    refine ⟨?_, fun h => absurd h hzero⟩
    simp only [Address.value, Word.ofInt, Word.negative_wrap, Word.magnitude_wrap, weight_five,
      decide_eq_true_eq]
    split <;> omega

end Patch

namespace Draft

theorem openSymbol?_eq_some {d : Draft} {e : Expression} {name : String} {negative : Bool}
    (h : d.openSymbol? e = some (name, negative)) :
    e.loneSymbol? = some (name, negative) ∧ d.symbols.contains name = false := by
  obtain ⟨hlone, hcontains⟩ := Option.filter_eq_some_iff.mp h
  exact ⟨hlone, by simpa using hcontains⟩

theorem negative_of_loneSymbol? {e : Expression} {name : String} {negative : Bool}
    (h : e.loneSymbol? = some (name, negative)) : e.negative = negative := by
  unfold Expression.loneSymbol? at h
  split at h
  · exact (Prod.mk.inj (Option.some.inj h)).2
  · cases h

/-- The word of an instruction, when it is settled, denotes the operand in every scope that has
all symbols. -/
theorem Assembles.denotes {d final : Draft} {op : Operation} {index : Fin 7}
    {field standard : Byte} {line : Nat} {operand : Operand} {entry : Word × Pending}
    (h : d.Assembles (fun a => Instruction.encode ⟨op, index, field, a⟩) line operand.address
      entry)
    (hindex : d.scope.indexOf operand.index = .ok index)
    (hfield : d.scope.fieldPartOf standard operand.field = .ok field)
    (hscope : d.scope.Extends ⟨final.symbols, d.location⟩)
    (hsettled : Emission.Settled ⟨d.location, entry.1, entry.2⟩ final) :
    ∃ w i, final.memory[d.location]? = some w ∧ Instruction.decode w = .ok i ∧
      i.operation = op ∧
      Denotes ⟨final.symbols, d.location⟩ final.memory operand standard i := by
  have hparts := And.intro (Scope.hasPart_indexOf hscope hindex)
    (Scope.hasPart_fieldPartOf hscope hfield)
  obtain ⟨address, indexPart, fieldPart⟩ := operand
  cases h with
  | empty =>
    refine ⟨_, _, hsettled, Instruction.decode_encode _ (weight_pos 2), rfl, ?_⟩
    exact ⟨hparts.1, hparts.2, rfl⟩
  | @known e a ha =>
    obtain ⟨v, hv, hvalue, hsign, hlt⟩ := addressOf_eq_ok ha
    refine ⟨_, _, hsettled, Instruction.decode_encode _ hlt, rfl, ?_⟩
    exact ⟨hparts.1, hparts.2, v, hscope.evaluate hv, hvalue, hsign⟩
  | @waiting e name negative hopen =>
    obtain ⟨value, hvalue, hfits, hmemory⟩ := hsettled
    obtain ⟨a, hdecode, ha, hsign⟩ := Patch.decode_settle
      (i := ⟨op, index, field, ⟨negative, 0⟩⟩) rfl (weight_pos 2) hfits
    obtain ⟨hlone, -⟩ := openSymbol?_eq_some hopen
    refine ⟨_, _, hmemory, hdecode, rfl, hparts.1, hparts.2, _,
      Scope.evaluate_loneSymbol hlone hvalue, ha, ?_⟩
    intro hzero
    rw [hsign hzero, negative_of_loneSymbol? hlone]
  | @literal w v hv =>
    obtain ⟨place, hfits, hmemory, hplace⟩ := hsettled
    obtain ⟨a, hdecode, ha, hsign⟩ := Patch.decode_settle
      (i := ⟨op, index, field, Address.zero⟩) rfl (weight_pos 2) hfits
    have ha : a.value = place := ha
    have hpositive : a.negative = false := by
      cases hnegative : a.negative with
      | false => rfl
      | true =>
        simp only [Address.value, hnegative, if_true] at ha
        have hzero : (place : Int) = 0 := by omega
        exact hnegative.symm.trans (hsign hzero)
    have hmagnitude : a.magnitude = place := by
      simp only [Address.value, hpositive, Bool.false_eq_true, if_false] at ha
      omega
    refine ⟨_, _, hmemory, hdecode, rfl, hparts.1, hparts.2, v, hscope.word hv, hpositive, ?_⟩
    rw [hmagnitude]
    exact hplace

end Draft

end MixComputer.Assembly
