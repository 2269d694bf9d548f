import MixComputer.Instruction
import MixComputer.Proofs.Word

/-!
Words and instructions. A word and its four parts determine each other, every operation is found
by its code, and an instruction with a two-byte address is read back from the word that it
writes. Storing into the address part of such a word changes the address and nothing else.
-/
namespace MixComputer

namespace Operation

theorem ofCode?_code (op : Operation) : ofCode? op.code = some op := by
  cases op
  case load r => revert r; decide
  case loadNegative r => revert r; decide
  case store r => revert r; decide
  case registerJump r => revert r; decide
  case addressTransfer r => revert r; decide
  case compare r => revert r; decide
  all_goals rfl

theorem code_lt (op : Operation) : op.code < 64 := by
  cases op <;> simp only [code] <;> omega

/-- Every byte is the code of an operation. -/
theorem exists_ofCode? (code : Byte) : ∃ op, ofCode? code = some op ∧ op.code = code.val := by
  have h : ∀ c : Byte, (ofCode? c).map Operation.code = some c.val := by decide
  obtain ⟨op, hop, hcode⟩ := Option.map_eq_some_iff.mp (h code)
  exact ⟨op, hop, hcode⟩

end Operation

namespace Parts

theorem magnitude_pack (p : Parts) (h : p.address.magnitude < weight 2) :
    (pack p).magnitude =
      ((p.address.magnitude * 64 + p.index.val) * 64 + p.field.val) * 64 + p.code.val := by
  have hi := p.index.isLt
  have hf := p.field.isLt
  have hc := p.code.isLt
  rw [weight_two] at h
  rw [pack, Word.magnitude_wrap, weight_two, weight_five]
  omega

@[simp]
theorem negative_pack (p : Parts) : (pack p).negative = p.address.negative := by
  rw [pack, Word.negative_wrap]

theorem unpack_pack (p : Parts) (h : p.address.magnitude < weight 2) :
    unpack (pack p) = p := by
  have hm := magnitude_pack p h
  obtain ⟨code, index, field, negative, magnitude⟩ := p
  have hi := index.isLt
  have hf := field.isLt
  have hc := code.isLt
  simp only at hm
  simp only [unpack, Word.byte, hm, Nat.reduceSub, weight, Byte.ofNat, negative_pack,
    Parts.mk.injEq, Address.mk.injEq, Fin.ext_iff, Fin.ofNat, true_and]
  omega

/-- The word that holds the given parts is the only one. -/
theorem pack_unpack (w : Word) : pack (unpack w) = w := by
  have hw := w.magnitude_lt_numeral
  have ha : (unpack w).address.magnitude < weight 2 := by
    simp only [unpack, weight]
    omega
  apply Word.ext
  · rw [negative_pack, unpack]
  · rw [magnitude_pack _ ha]
    simp only [unpack, Word.byte, Byte.val_ofNat, Nat.reduceSub, weight]
    omega

theorem unpack_insert_address (w source : Word) :
    unpack (Field.address.insert w source) =
      { unpack w with address := ⟨source.negative, source.magnitude % weight 2⟩ } := by
  have hm := Field.magnitude_insert_address w source
  rw [weight_two, weight_three] at hm
  simp only [unpack, Word.byte, hm, Nat.reduceSub, weight, Byte.ofNat,
    Field.negative_insert_address, Parts.mk.injEq, Address.mk.injEq, Fin.ext_iff, Fin.ofNat,
    true_and]
  omega

end Parts

namespace Instruction

/-- A word is an instruction if its index is at most 6. -/
theorem decode_eq_ok_iff (w : Word) (i : Instruction) :
    decode w = .ok i ↔
      Operation.ofCode? (Parts.unpack w).code = some i.operation ∧
      (Parts.unpack w).index.val = i.index.val ∧ (Parts.unpack w).field = i.field ∧
      (Parts.unpack w).address = i.address := by
  obtain ⟨op, hop, -⟩ := Operation.exists_ofCode? (Parts.unpack w).code
  obtain ⟨operation, index, field, address⟩ := i
  simp only [decode, hop]
  by_cases h : (Parts.unpack w).index.val < 7
  · simp only [h, dite_true, Except.ok.injEq, Instruction.mk.injEq, Fin.ext_iff,
      Option.some.injEq]
  · have hne : (Parts.unpack w).index.val ≠ index.val := by
      have := index.isLt
      omega
    simp [h, hne]

theorem unpack_encode (i : Instruction) (h : i.address.magnitude < weight 2) :
    Parts.unpack i.encode =
      ⟨Byte.ofNat i.operation.code, Byte.ofNat i.index, i.field, i.address⟩ :=
  Parts.unpack_pack _ h

theorem ofCode?_byte (op : Operation) : Operation.ofCode? (Byte.ofNat op.code) = some op := by
  rw [Byte.val_ofNat, Nat.mod_eq_of_lt op.code_lt]
  exact op.ofCode?_code

theorem val_indexByte (i : Fin 7) : (Byte.ofNat i).val = i.val := by
  rw [Byte.val_ofNat]
  have := i.isLt
  omega

theorem decode_encode (i : Instruction) (h : i.address.magnitude < weight 2) :
    decode i.encode = .ok i := by
  rw [decode_eq_ok_iff, unpack_encode i h]
  exact ⟨ofCode?_byte i.operation, val_indexByte i.index, rfl, rfl⟩

/-- The address of a decoded instruction has two bytes. -/
theorem address_lt_of_decode {w : Word} {i : Instruction} (h : decode w = .ok i) :
    i.address.magnitude < weight 2 := by
  obtain ⟨-, -, -, ha⟩ := (decode_eq_ok_iff w i).mp h
  have hw := w.magnitude_lt_numeral
  rw [← ha]
  simp only [Parts.unpack, weight]
  omega

theorem encode_of_decode {w : Word} {i : Instruction} (h : decode w = .ok i) :
    i.encode = w := by
  obtain ⟨hop, hi, hf, ha⟩ := (decode_eq_ok_iff w i).mp h
  obtain ⟨op, hop', hcode⟩ := Operation.exists_ofCode? (Parts.unpack w).code
  have heq : op = i.operation := Option.some.inj (hop'.symm.trans hop)
  rw [encode, ← hf, ← ha, ← hi, ← heq, hcode, Byte.ofNat_val, Byte.ofNat_val]
  exact Parts.pack_unpack w

/-- Whether a word is an instruction depends on its index alone. -/
theorem exists_decode_iff (w : Word) : (∃ i, decode w = .ok i) ↔ (w.byte 3).val ≤ 6 := by
  constructor
  · rintro ⟨i, h⟩
    obtain ⟨-, hindex, -, -⟩ := (decode_eq_ok_iff w i).mp h
    exact hindex ▸ Nat.le_of_lt_succ i.index.isLt
  · intro hindex
    obtain ⟨op, hop, -⟩ := Operation.exists_ofCode? (Parts.unpack w).code
    exact ⟨⟨op, ⟨(w.byte 3).val, Nat.lt_succ_of_le hindex⟩, _, _⟩,
      (decode_eq_ok_iff w _).mpr ⟨hop, rfl, rfl, rfl⟩⟩

/-- A word with another address is the same instruction with this address, or is none either. -/
theorem decode_of_unpack {w w' : Word} {a : Address}
    (h : Parts.unpack w' = { Parts.unpack w with address := a }) :
    decode w' = (decode w).map fun i => { i with address := a } := by
  unfold decode
  rw [h]
  generalize Parts.unpack w = parts
  cases hop : Operation.ofCode? parts.code with
  | none => simp only [hop, Except.map]
  | some op =>
    by_cases hindex : parts.index.val < 7
    · simp only [hop, hindex, dite_true, Except.map]
    · simp only [hop, hindex, dite_false, Except.map]

/-- Storing into the address part of a word leaves the rest of it as it was. -/
theorem decode_insert (w source : Word) :
    decode (Field.address.insert w source) =
      (decode w).map fun i =>
        { i with address := ⟨source.negative, source.magnitude % weight 2⟩ } :=
  decode_of_unpack (Parts.unpack_insert_address w source)

/-- So an instruction gets another address and nothing else. -/
theorem decode_insert_address (i : Instruction) (h : i.address.magnitude < weight 2)
    (source : Word) :
    decode (Field.address.insert i.encode source) =
      .ok { i with address := ⟨source.negative, source.magnitude % weight 2⟩ } := by
  rw [decode_insert, decode_encode i h]
  rfl

def lastAddress (w : Word) : Address := ⟨w.negative, 64 * (w.byte 4).val + (w.byte 5).val⟩

theorem lastAddress_eq (w : Word) : lastAddress w = ⟨w.negative, w.magnitude % weight 2⟩ := by
  have hlast : 64 * (w.byte 4).val + (w.byte 5).val = w.magnitude % weight 2 := by
    simp only [Word.byte, Byte.val_ofNat, Nat.reduceSub, weight]
    omega
  rw [lastAddress, hlast]

/-- Words and the parts of instructions correspond one to one. A word is an instruction if its
third byte is at most 6, and then it is the word that the instruction writes. A word that is stored
into the field `(0:2)` becomes the address, and neither the other parts nor whether the word is an
instruction depend on what is stored. -/
theorem encoding_bijective :
    (∀ w, Parts.pack (Parts.unpack w) = w) ∧
      (∀ bits < 0x80000000, (Parts.pack (Parts.unpack (Word.ofBits bits))).bits = bits) ∧
      (∀ p : Parts, p.address.magnitude ≤ 4095 → Parts.unpack (Parts.pack p) = p) ∧
      (∀ w, ((∃ i, decode w = .ok i) ↔ (w.byte 3).val ≤ 6) ∧ ∀ i, decode w = .ok i → i.encode = w) ∧
      ∀ w source,
        Parts.unpack (Field.address.insert w source) =
            { Parts.unpack w with address := lastAddress source } ∧
          decode (Field.address.insert w source) =
            (decode w).map fun i => { i with address := lastAddress source } := by
  refine ⟨Parts.pack_unpack, fun bits h => ?_, fun p h => ?_, fun w => ?_, fun w source => ?_⟩
  · rw [Parts.pack_unpack, Word.bits_ofBits h]
  · exact Parts.unpack_pack p (weight_two ▸ Nat.lt_succ_of_le h)
  · exact ⟨exists_decode_iff w, fun i => encode_of_decode⟩
  · rw [lastAddress_eq]
    exact ⟨Parts.unpack_insert_address w source, decode_insert w source⟩

/-- `ENTA -0`, and the same word with the address `-17` stored into it. -/
theorem encoding_bijective_minus_zero :
    (Parts.pack (Parts.unpack (Word.ofBits 0x400000B0))).bits = 0x400000B0 ∧
      Parts.unpack (Parts.pack ⟨48, 0, 2, ⟨true, 0⟩⟩) = ⟨48, 0, 2, ⟨true, 0⟩⟩ ∧
      (∃ i, decode (Word.ofBits 0x400000B0) = .ok i ∧ i.encode = Word.ofBits 0x400000B0) ∧
      decode (Field.address.insert (Word.ofBits 0x400000B0) (Word.ofInt (-17))) =
        .ok ⟨.addressTransfer .a, 0, 2, ⟨true, 17⟩⟩ := by
  obtain ⟨-, hbits, hparts, hdecode, hstore⟩ := encoding_bijective
  have hindex : ((Word.ofBits 0x400000B0).byte 3).val ≤ 6 := by decide
  obtain ⟨i, hi⟩ := (hdecode _).1.mpr hindex
  refine ⟨hbits _ (by decide), hparts _ (by decide), ⟨i, hi, (hdecode _).2 i hi⟩, ?_⟩
  rw [(hstore _ _).2]
  rfl

end Instruction

end MixComputer
