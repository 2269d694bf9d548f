import MixComputer.Listing
import MixComputer.Proofs.Assembly.Program
import MixComputer.Proofs.Source.Line
import MixComputer.Proofs.Source.Operand

/-!
Assembling what has been written. The text of an instruction, put behind a blank, is a program of
one line, and assembling it gives the word of the instruction back. Only `NOP` is written without
an `F` part that it may have.
-/
namespace MixComputer

open Source Assembly

namespace Mnemonic

theorem ofName?_of_mem_all : ∀ op ∈ Operation.all, ∀ m ∈ op.mnemonics,
    ofName? m.1 = some (.instruction op (Byte.ofNat m.2)) ∧ m.1.toList ≠ [] ∧
      m.1.toList.all Char.isAlphanum = true := by
  decide +kernel

/-- Every mnemonic of an operation is found by its name, which has letters and digits. -/
theorem ofName?_of_mem {op : Operation} {m : String × Nat} (h : m ∈ op.mnemonics) :
    ofName? m.1 = some (.instruction op (Byte.ofNat m.2)) ∧ m.1.toList ≠ [] ∧
      ∀ c ∈ m.1.toList, c.isAlphanum = true := by
  obtain ⟨hname, hne, hletters⟩ :=
    ofName?_of_mem_all op (List.mem_of_getElem? op.ofCode?_code) m h
  exact ⟨hname, hne, List.all_eq_true.mp hletters⟩

end Mnemonic

namespace Operation

theorem usage_eq_ignored_iff (op : Operation) : op.usage = .ignored ↔ op = nop := by
  cases op <;> simp [usage]

/-- A name that is written without the `F` part stands for it, except the name of `NOP`. -/
theorem nameFor_cases (op : Operation) (field : Nat) :
    ∃ m ∈ op.mnemonics, (op.nameFor field).1 = m.1 ∧
      (((op.nameFor field).2 = false ∧ m.2 = if op = nop then 0 else field) ∨
        ((op.nameFor field).2 = true ∧ op ≠ nop)) := by
  unfold nameFor
  cases hfind : op.mnemonics.find? fun m => m.2 == field with
  | some m =>
    have hfield : m.2 = field := by simpa using List.find?_some hfind
    have hmem := List.mem_of_find?_eq_some hfind
    refine ⟨m, hmem, rfl, .inl ⟨rfl, ?_⟩⟩
    by_cases hnop : op = nop
    · subst hnop
      rw [List.mem_singleton.mp hmem]
      rfl
    · rw [if_neg hnop]
      exact hfield
  | none =>
    refine ⟨op.mnemonic, List.mem_cons_self, rfl, ?_⟩
    by_cases hnop : op = nop
    · subst hnop
      exact .inl ⟨rfl, rfl⟩
    · have husage : op.usage ≠ .ignored := fun h => hnop ((usage_eq_ignored_iff op).mp h)
      exact .inr ⟨by simpa using husage, hnop⟩

end Operation

namespace Instruction

variable (i : Instruction)

def fieldExpression : Expression :=
  match i.operation.usage, i.spec? with
  | .bytes, some spec => ⟨false, .number spec.left, [(.field, .number spec.right)]⟩
  | _, _ => ⟨false, .number i.field.val, []⟩

def operand : Operand where
  address := .expression ⟨i.address.negative, .number i.address.magnitude, []⟩
  index := if i.index.val = 0 then none else some ⟨false, .number i.index.val, []⟩
  field := if (i.operation.nameFor i.field).2 then some i.fieldExpression else none

def operandChars : List Char :=
  (Expression.tokens ⟨i.address.negative, .number i.address.magnitude, []⟩
    (indexTokens i.operand.index (fieldTokens i.operand.field))).flatMap Token.chars

def writtenField : Byte := if i.operation = .nop then Byte.ofNat 0 else i.field

/-- A field is written by its bounds, and any other `F` part by its number. -/
theorem fieldText_cases :
    (∃ spec, i.spec? = some spec ∧ i.fieldText = spec.text ∧
        i.fieldExpression = ⟨false, .number spec.left, [(.field, .number spec.right)]⟩) ∨
      (i.fieldText = "(" ++ toString i.field.val ++ ")" ∧
        i.fieldExpression = ⟨false, .number i.field.val, []⟩) := by
  unfold fieldText fieldExpression
  cases hspec : i.spec? with
  | none => cases i.operation.usage <;> exact .inr ⟨rfl, rfl⟩
  | some spec =>
    cases i.operation.usage with
    | bytes => exact .inl ⟨spec, rfl, rfl, rfl⟩
    | variant count => exact .inr ⟨rfl, rfl⟩
    | count => exact .inr ⟨rfl, rfl⟩
    | unit => exact .inr ⟨rfl, rfl⟩
    | ignored => exact .inr ⟨rfl, rfl⟩

theorem toList_fieldText :
    i.fieldText.toList = (fieldTokens (some i.fieldExpression)).flatMap Token.chars := by
  rcases i.fieldText_cases with ⟨spec, -, htext, hexpression⟩ | ⟨htext, hexpression⟩
  · rw [htext, hexpression]
    simp [Field.text, fieldTokens, Expression.tokens, Expression.operationTokens, Atom.token,
      Operator.token, Token.chars]
  · rw [htext, hexpression]
    simp [fieldTokens, Expression.tokens, Expression.operationTokens, Atom.token, Token.chars]

/-- A blank and the text of an instruction are a line with the operand. -/
theorem blank_append_text :
    " " ++ i.text = writtenLine (i.operation.nameFor i.field).1.toList i.operandChars := by
  have hfield : (if (i.operation.nameFor i.field).2 then i.fieldText else "").toList =
      (fieldTokens i.operand.field).flatMap Token.chars := by
    unfold operand
    cases (i.operation.nameFor i.field).2 with
    | true => exact i.toList_fieldText
    | false => rfl
  have hindex : i.indexText.toList ++ (fieldTokens i.operand.field).flatMap Token.chars =
      (indexTokens i.operand.index (fieldTokens i.operand.field)).flatMap Token.chars := by
    unfold indexText operand
    by_cases hzero : i.index.val = 0
    · simp [hzero, indexTokens]
    · simp [hzero, indexTokens, Expression.tokens, Expression.operationTokens, Atom.token,
        Token.chars]
  apply String.toList_inj.mp
  have htext : i.text = (i.operation.nameFor i.field).1 ++ " " ++ i.address.text ++ i.indexText ++
      (if (i.operation.nameFor i.field).2 then i.fieldText else "") := rfl
  rw [htext, writtenLine, String.toList_ofList, operandChars]
  cases hnegative : i.address.negative with
  | true =>
    simp [hfield, hindex, Address.text, hnegative, Expression.tokens, Expression.operationTokens,
      Atom.token, Token.chars]
  | false =>
    simp [hfield, hindex, Address.text, hnegative, Expression.tokens, Expression.operationTokens,
      Atom.token, Token.chars]

theorem proper_index : ∀ e ∈ i.operand.index, e.Proper := by
  have hlt := i.index.isLt
  intro e he
  unfold operand at he
  by_cases hzero : i.index.val = 0
  · simp [hzero] at he
  · simp only [hzero, if_false, Option.mem_def, Option.some.injEq] at he
    rw [← he]
    exact Expression.proper_number (by omega) false

theorem proper_fieldExpression : i.fieldExpression.Proper := by
  have hlt := i.field.isLt
  rcases i.fieldText_cases with ⟨spec, -, -, hexpression⟩ | ⟨-, hexpression⟩
  · have hleft := spec.left_le
    have hright := spec.right_le
    rw [hexpression]
    refine ⟨?_, ?_⟩
    · show spec.left < 0x8000000000000000
      omega
    · intro o ho
      rw [List.mem_singleton.mp ho]
      show spec.right < 0x8000000000000000
      omega
  · rw [hexpression]
    exact Expression.proper_number (by omega) false

/-- The operand is made of numerals that can be read. -/
theorem proper_operand (h : i.address.magnitude < weight 2) :
    Expression.Proper ⟨i.address.negative, .number i.address.magnitude, []⟩ ∧
      (∀ e ∈ i.operand.index, e.Proper) ∧ ∀ e ∈ i.operand.field, e.Proper := by
  rw [weight_two] at h
  refine ⟨Expression.proper_number (by omega) _, i.proper_index, ?_⟩
  intro e he
  unfold operand at he
  cases hshown : (i.operation.nameFor i.field).2 with
  | false => simp [hshown] at he
  | true =>
    simp only [hshown, if_true, Option.mem_def, Option.some.injEq] at he
    rw [← he]
    exact i.proper_fieldExpression

theorem readOperand_operandChars (h : i.address.magnitude < weight 2) :
    readOperand (String.ofList i.operandChars) = .ok i.operand := by
  obtain ⟨haddress, hindex, hfield⟩ := i.proper_operand h
  have hread := ofChars?_tokens haddress hindex hfield
  rw [readOperand, String.toList_ofList, operandChars, hread]
  rfl

theorem isBlank_operandChars (h : i.address.magnitude < weight 2) :
    ∀ c ∈ i.operandChars, Text.isBlank c = false := by
  obtain ⟨haddress, hindex, hfield⟩ := i.proper_operand h
  intro c hc
  obtain ⟨t, ht, hc⟩ := List.mem_flatMap.mp hc
  exact visible_operand haddress hindex hfield t ht c hc

section Values

variable (s : Scope)

theorem indexOf_operand : s.indexOf i.operand.index = .ok i.index := by
  have hlt := i.index.isLt
  unfold operand
  by_cases hzero : i.index.val = 0
  · rw [if_pos hzero]
    exact congrArg Except.ok (Fin.ext hzero.symm)
  · rw [if_neg hzero]
    have hfits : i.index.val < weight 5 := by
      rw [weight_five]
      omega
    refine (bind_eq_ok_iff _ _ _).mpr ⟨i.index.val, Scope.evaluate_number hfits s false, ?_⟩
    have hrange : (0 : Int) ≤ i.index.val ∧ (i.index.val : Int) ≤ 6 := by omega
    rw [dif_pos hrange]
    rfl

theorem evaluate_fieldExpression : s.evaluate i.fieldExpression = .ok (i.field.val : Int) := by
  rcases i.fieldText_cases with ⟨spec, hspec, -, hexpression⟩ | ⟨-, hexpression⟩
  · rw [hexpression, Scope.evaluate_bounds, Field.code_of_ofCode? hspec]
  · have hfits : i.field.val < weight 5 := by
      have hlt := i.field.isLt
      rw [weight_five]
      omega
    rw [hexpression]
    exact Scope.evaluate_number hfits s false

/-- With the `F` part of the mnemonic for a missing one, the operand has the `F` part back. -/
theorem fieldPartOf_operand {m : String × Nat}
    (hfield : ((i.operation.nameFor i.field).2 = false ∧
        m.2 = if i.operation = .nop then 0 else i.field.val) ∨
      ((i.operation.nameFor i.field).2 = true ∧ i.operation ≠ .nop)) :
    s.fieldPartOf (Byte.ofNat m.2) i.operand.field = .ok i.writtenField := by
  have hlt := i.field.isLt
  unfold operand writtenField
  rcases hfield with ⟨hshown, hm⟩ | ⟨hshown, hop⟩
  · rw [hshown, hm]
    refine congrArg Except.ok ?_
    by_cases hnop : i.operation = .nop
    · rw [if_pos hnop, if_pos hnop]
    · rw [if_neg hnop, if_neg hnop]
      exact Byte.ofNat_val i.field
  · rw [hshown, if_neg hop]
    refine (bind_eq_ok_iff _ _ _).mpr ⟨i.field.val, i.evaluate_fieldExpression s, ?_⟩
    have hrange : (0 : Int) ≤ i.field.val ∧ (i.field.val : Int) ≤ 63 := by omega
    rw [dif_pos hrange]
    rfl

/-- The sign of the address is kept, also before a zero. -/
theorem addressOf_operand (h : i.address.magnitude < weight 2) :
    addressOf s ⟨i.address.negative, .number i.address.magnitude, []⟩ = .ok i.address := by
  obtain ⟨operation, index, field, negative, magnitude⟩ := i
  have hlt : magnitude < 4096 := by rwa [weight_two] at h
  have hfits : magnitude < weight 5 := by
    rw [weight_five]
    omega
  refine (bind_eq_ok_iff _ _ _).mpr ⟨_, Scope.evaluate_number hfits s negative, ?_⟩
  by_cases hzero : magnitude = 0
  · subst hzero
    cases negative <;> rfl
  · cases negative with
    | true =>
      have hne : -(magnitude : Int) ≠ 0 := by omega
      have habs : (-(magnitude : Int)).natAbs < weight 2 := by
        rw [weight_two]
        omega
      have haddress : Address.ofInt (-(magnitude : Int)) = ⟨true, magnitude⟩ := by
        simp only [Address.ofInt, Address.mk.injEq, decide_eq_true_eq]
        omega
      simp only [if_true, if_neg hne, if_pos habs, haddress]
    | false =>
      have hne : (magnitude : Int) ≠ 0 := by omega
      have habs : (magnitude : Int).natAbs < weight 2 := by
        rw [weight_two]
        omega
      have haddress : Address.ofInt (magnitude : Int) = ⟨false, magnitude⟩ := by
        simp only [Address.ofInt, Address.mk.injEq, decide_eq_false_iff_not]
        omega
      simp only [Bool.false_eq_true, if_false, if_neg hne, if_pos habs, haddress]

end Values

/-- The word that the written form of the instruction stands for. -/
theorem instructionWord_operandChars (h : i.address.magnitude < weight 2) (d : Draft)
    {m : String × Nat}
    (hfield : ((i.operation.nameFor i.field).2 = false ∧
        m.2 = if i.operation = .nop then 0 else i.field.val) ∨
      ((i.operation.nameFor i.field).2 = true ∧ i.operation ≠ .nop)) (line : Nat) :
    d.instructionWord i.operation (Byte.ofNat m.2) (String.ofList i.operandChars) line =
      .ok ({ i with field := i.writtenField }.encode, .nothing) := by
  refine (bind_eq_ok_iff _ _ _).mpr ⟨i.operand, i.readOperand_operandChars h, ?_⟩
  refine (bind_eq_ok_iff _ _ _).mpr ⟨i.index, i.indexOf_operand d.scope, ?_⟩
  refine (bind_eq_ok_iff _ _ _).mpr ⟨i.writtenField, i.fieldPartOf_operand d.scope hfield, ?_⟩
  exact (bind_eq_ok_iff _ _ _).mpr ⟨i.address, i.addressOf_operand d.scope h, rfl⟩

/-- The word that is assembled from the text of an instruction. -/
theorem encode_writtenField {w : Word} {i : Instruction} (h : decode w = .ok i) :
    { i with field := i.writtenField }.encode =
      if i.operation = .nop then Parts.pack { Parts.unpack w with field := Byte.ofNat 0 }
      else w := by
  have hencode := encode_of_decode h
  unfold writtenField
  by_cases hnop : i.operation = .nop
  · rw [if_pos hnop, if_pos hnop, ← hencode, unpack_encode i (address_lt_of_decode h)]
    rfl
  · rw [if_neg hnop, if_neg hnop]
    exact hencode

/-- Taking the written form of an instruction as the first line of a program. -/
theorem takeLine_text (h : i.address.magnitude < weight 2) {size : Nat} (hsize : 0 < size) :
    (Draft.start size).takeLine (" " ++ i.text) 1 =
      ({ Draft.start size with
          location := 1
          memory := (Memory.blank size).write 0 { i with field := i.writtenField }.encode },
        false) := by
  obtain ⟨m, hm, hname, hfield⟩ := i.operation.nameFor_cases i.field.val
  obtain ⟨hmnemonic, hne, hletters⟩ := Mnemonic.ofName?_of_mem hm
  have hvisible : ∀ c ∈ m.1.toList, Text.isBlank c = false :=
    fun c hc => Text.isBlank_of_isAlphanum (hletters c hc)
  have hoperand := i.isBlank_operandChars h
  have hcomment : isComment (writtenLine m.1.toList i.operandChars) = false :=
    isComment_writtenLine hne hvisible
  have hne' : i.operandChars ≠ [] := by
    intro hnil
    have hread := i.readOperand_operandChars h
    rw [hnil] at hread
    cases hread
  have hparse : Draft.parseLine (writtenLine m.1.toList i.operandChars) =
      .ok (⟨none, m.1, String.ofList i.operandChars, String.ofList (' ' :: i.operandChars)⟩,
        .instruction i.operation (Byte.ofNat m.2)) := by
    simp only [Draft.parseLine, ofText?_writtenLine hne hvisible hne' hoperand,
      String.ofList_toList, hmnemonic]
  have hword := i.instructionWord_operandChars h (Draft.start size) hfield 1
  have hput : (Draft.start size).put ({ i with field := i.writtenField }.encode, .nothing) =
      .ok { Draft.start size with
        location := 1
        memory := (Memory.blank size).write 0 { i with field := i.writtenField }.encode } := by
    refine Draft.put_eq_ok_iff.mpr ⟨?_, rfl⟩
    simpa [Draft.start, Memory.blank] using hsize
  rw [blank_append_text, hname]
  refine Draft.takeLine_of_obey hcomment hparse ?_
  change (Draft.start size).attempt (Draft.instructionWord _ _ _ _ 1 >>= Draft.put _) = _
  rw [hword]
  change (Draft.start size).attempt (Draft.put _ _) = _
  rw [hput]
  rfl

end Instruction

/-- The text of an instruction is assembled to the word of the instruction, without the `F` part
if it is a `NOP`. -/
theorem assemble_text {size : Nat} (hsize : 0 < size) {w : Word} {i : Instruction}
    (h : Instruction.decode w = .ok i) :
    assemble size (" " ++ i.text) =
      { memory := (Memory.blank size).write 0
          (if i.operation = .nop then Parts.pack { Parts.unpack w with field := Byte.ofNat 0 }
          else w)
        symbols := SymbolTable.empty
        entry := none
        diagnostics := [] } := by
  have haddress := Instruction.address_lt_of_decode h
  have hlines : Text.lines (" " ++ i.text) = [" " ++ i.text] := by
    obtain ⟨m, hm, hname, -⟩ := i.operation.nameFor_cases i.field.val
    obtain ⟨-, -, hletters⟩ := Mnemonic.ofName?_of_mem hm
    rw [i.blank_append_text, hname]
    exact lines_writtenLine (fun c hc => Text.isBlank_of_isAlphanum (hletters c hc))
      (i.isBlank_operandChars haddress)
  have hread : (Draft.start size).readLines 1 [" " ++ i.text] =
      { Draft.start size with
        location := 1
        memory := (Memory.blank size).write 0 { i with field := i.writtenField }.encode } := by
    rw [Draft.readLines, i.takeLine_text haddress hsize]
    rfl
  simp only [assemble, hlines, Draft.ofLines, hread]
  rw [Draft.resolve_of_nothing rfl rfl rfl rfl, Instruction.encode_writtenField h]
  rfl

/-- `LDA -0,2(63)`: the minus zero and the `F` part, which is no field, are kept. -/
theorem assemble_text_minus_zero :
    0 < 2 ∧ Instruction.decode (Word.wrap true 12232) = .ok ⟨.load .a, 2, 63, ⟨true, 0⟩⟩ ∧
      assemble 2 (" " ++ Instruction.text ⟨.load .a, 2, 63, ⟨true, 0⟩⟩) =
        { memory := (Memory.blank 2).write 0 (Word.wrap true 12232)
          symbols := SymbolTable.empty
          entry := none
          diagnostics := [] } := by
  have hdecode : Instruction.decode (Word.wrap true 12232) =
      .ok ⟨.load .a, 2, 63, ⟨true, 0⟩⟩ := by decide +kernel
  exact ⟨by omega, hdecode, assemble_text (by omega) hdecode⟩

end MixComputer
