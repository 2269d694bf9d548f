import MixComputer.Proofs.Address
import MixComputer.Proofs.Guarded.Number
import MixComputer.Proofs.Instruction

/-!
Words, fields, addresses and instructions in numbers of fixed width. The bytes of a word are moved
and masked in 32 bits, values are signed numbers of 64 bits. None of it traps, and all of it gives
what it gives without a width.
-/
namespace MixComputer.Guarded

section Words

variable {w : Word} {k : Nat}

def value (w : Word) : Guarded Int :=
  if w.negative then integer (-(w.magnitude : Int)) else .ok w.magnitude

def byte (w : Word) (k : Nat) : Guarded Nat := do
  require (1 ≤ k ∧ k ≤ 5)
  let amount ← mul .w32 (cast .w32 (← sub 5 k)) 6
  let moved ← shiftRight .w32 w.bits amount
  return cast .w8 (moved &&& 63)

def bytes (w : Word) : Guarded (List Nat) :=
  [0, 1, 2, 3, 4].mapM fun i => do byte w (← add .w64 i 1)

def ofBytes (negative : Bool) (bytes : List Nat) : Guarded Word := do
  let magnitude ← bytes.foldlM (fun n b => do return (← shiftLeft .w32 n 6) ||| (b &&& 63)) 0
  return Word.wrap negative magnitude

theorem value_eq (w : Word) : value w = .ok w.value := by
  have hw := w.magnitude_lt_numeral
  unfold value Word.value
  split
  · exact integer_eq (by omega)
  · rfl

theorem byte_eq (w : Word) (h : 1 ≤ k) (h' : k ≤ 5) : byte w k = .ok (w.byte k).val := by
  have hcast : cast .w32 (5 - k) = 5 - k := cast_eq (by simp only [Width.limit]; omega)
  have hmul : mul .w32 (5 - k) 6 = .ok ((5 - k) * 6) := mul_eq (by simp only [Width.limit]; omega)
  have hshift : shiftRight .w32 w.bits ((5 - k) * 6) = .ok (w.bits / weight (5 - k)) := by
    rw [shiftRight_eq (by simp only [Width.bits]; omega), shiftRight_bytes]
  have hbyte : cast .w8 (w.bits / weight (5 - k) &&& 63) = (w.byte k).val := by
    rw [and_byte, cast, Word.byte, Byte.val_ofNat, Word.bits]
    obtain rfl | rfl | rfl | rfl | rfl : k = 1 ∨ k = 2 ∨ k = 3 ∨ k = 4 ∨ k = 5 := by omega
    all_goals
      simp only [Nat.reduceSub, Nat.sub_self, weight, Width.limit]
      split <;> omega
  simp only [byte, require_eq (p := 1 ≤ k ∧ k ≤ 5) ⟨h, h'⟩, sub_eq h', hcast, hmul, hshift, hbyte,
    ok_bind, pure_eq]

theorem bytes_eq (w : Word) : bytes w = .ok (w.bytes.map Fin.val) := by
  have hbyte (i : Nat) (hi : i < 5) :
      (do byte w (← add .w64 i 1)) = .ok (w.byte (i + 1)).val := by
    rw [add_eq (by simp only [Width.limit]; omega), ok_bind]
    exact byte_eq w (by omega) hi
  simp only [bytes, List.mapM_cons, List.mapM_nil, hbyte 0 (by decide), hbyte 1 (by decide),
    hbyte 2 (by decide), hbyte 3 (by decide), hbyte 4 (by decide), ok_bind, pure_eq]
  rfl

/-- As long as there is room, a byte more moves the number to the left and fills the end. -/
theorem foldlM_bytes {j n : Nat} (bytes : List Byte) (hn : n < weight j)
    (hroom : j + bytes.length ≤ 5) :
    (bytes.map Fin.val).foldlM
        (fun n b => do return (← shiftLeft .w32 n 6) ||| (b &&& 63) : Nat → Nat → Guarded Nat) n =
      .ok (bytes.foldl (fun n b => 64 * n + b.val) n) := by
  induction bytes generalizing n j with
  | nil => rfl
  | cons b bytes ih =>
    rw [List.length_cons] at hroom
    have hb : b.val < weight 1 := b.isLt
    have hnext : 64 * n + b.val < weight (j + 1) := by
      simp only [weight] at hb ⊢
      omega
    have hlimit : weight (j + 1) ≤ weight 5 := weight_le (by omega)
    rw [weight_five] at hlimit
    have hmoved : shiftLeft .w32 n 6 = .ok (n * weight 1) := by
      rw [shiftLeft_eq (by decide), show 6 = 1 * 6 from rfl, shiftLeft_bytes, Nat.mod_eq_of_lt]
      simp only [weight, Width.limit] at hnext hlimit ⊢
      omega
    have hstep : n * weight 1 ||| (b.val &&& 63) = 64 * n + b.val := by
      rw [and_byte, Nat.mod_eq_of_lt hb, or_bytes hb, Nat.mul_comm]
      rfl
    rw [List.map_cons, List.foldlM_cons, List.foldl_cons, hmoved]
    simp only [ok_bind, pure_eq, hstep]
    exact ih hnext (by omega)

theorem ofBytes_eq (negative : Bool) (bytes : List Byte) (h : bytes.length ≤ 5) :
    ofBytes negative (bytes.map Fin.val) = .ok (Word.ofBytes negative bytes) := by
  have hfold := foldlM_bytes bytes (n := 0) (j := 0) (by decide) (by omega)
  unfold ofBytes
  rw [hfold]
  rfl

end Words

section Instructions

def decode (w : Word) : Guarded (Except DecodeError Instruction) := do
  let code := cast .w8 (w.magnitude &&& 63)
  let field := cast .w8 ((← shiftRight .w32 w.magnitude 6) &&& 63)
  let index := cast .w8 ((← shiftRight .w32 w.magnitude 12) &&& 63)
  let address := (← shiftRight .w32 w.magnitude 18) &&& 4095
  if 63 < code then return .error (.operationCode (Byte.ofNat code))
  else match Operation.ofCode? code with
    | none => return .error (.operationCode (Byte.ofNat code))
    | some operation =>
      if h : index < 7 then
        return .ok ⟨operation, ⟨index, h⟩, Byte.ofNat field, ⟨w.negative, address⟩⟩
      else return .error (.index (Byte.ofNat index))

theorem shiftRight_magnitude (w : Word) {k amount : Nat} (hamount : k * 6 = amount)
    (hk : k ≤ 5) : shiftRight .w32 w.magnitude amount = .ok (w.magnitude / weight k) := by
  rw [← hamount, shiftRight_eq (by simp only [Width.bits]; omega), shiftRight_bytes]

theorem cast_and_bytes (n : Nat) : cast .w8 (n &&& 63) = n % 64 := by
  rw [and_byte, cast_eq]
  · rfl
  · exact Nat.lt_of_lt_of_le (Nat.mod_lt n (weight_pos 1)) (by decide)

theorem decode_eq (w : Word) : decode w = .ok (Instruction.decode w) := by
  have hw := w.magnitude_lt_numeral
  have haddress : w.magnitude / weight 3 &&& 4095 = w.magnitude / weight 3 := by
    rw [and_two_bytes, weight_two, weight_three]
    omega
  have hcode : ¬ 63 < w.magnitude % 64 := by omega
  have hpart (n : Nat) : Byte.ofNat (n % 64) = Byte.ofNat n := by
    apply Fin.ext
    simp only [Byte.val_ofNat, Nat.mod_mod]
  have hlast : (w.byte 5).val = w.magnitude % 64 := by
    rw [Word.byte, Byte.val_ofNat, Nat.sub_self, weight, Nat.div_one]
  -- Every code has an operation.
  obtain ⟨op, hop, -⟩ := Operation.exists_ofCode? (Parts.unpack w).code
  have hop' : Operation.ofCode? (w.magnitude % 64) = some op := hlast ▸ hop
  unfold decode Instruction.decode
  simp only [shiftRight_magnitude w (k := 1) rfl (by decide),
    shiftRight_magnitude w (k := 2) rfl (by decide),
    shiftRight_magnitude w (k := 3) rfl (by decide), ok_bind, pure_eq, cast_and_bytes, haddress,
    hcode, if_false, hpart, hop, hop']
  by_cases hindex : (Parts.unpack w).index.val < 7
  · have hindex' : w.magnitude / weight 2 % 64 < 7 := hindex
    rw [dif_pos hindex', dif_pos hindex]
    rfl
  · have hindex' : ¬ w.magnitude / weight 2 % 64 < 7 := hindex
    rw [dif_neg hindex', dif_neg hindex]
    rfl

end Instructions

section Fields

def firstByte (f : Field) : Option Nat :=
  if max f.left 1 ≤ f.right then some (max f.left 1) else none

def byteCount (f : Field) : Guarded Nat :=
  match firstByte f with
  | some first => do add .w8 (← sub f.right first) 1
  | none => .ok 0

def distance (f : Field) : Guarded Nat := do mul .w32 (← sub 5 f.right) 6

def mask (f : Field) : Guarded Nat := do
  sub (← shiftLeft .w32 1 (← mul .w32 (← byteCount f) 6)) 1

def extract (f : Field) (w : Word) : Guarded Word := do
  let moved ← shiftRight .w32 w.magnitude (← distance f)
  return Word.wrap (f.includesSign && w.negative) (moved &&& (← mask f))

def insert (f : Field) (w source : Word) : Guarded Word := do
  let place ← shiftLeft .w32 (← mask f) (← distance f)
  let bytes ← shiftLeft .w32 (source.magnitude &&& (← mask f)) (← distance f)
  return Word.wrap (if f.includesSign then source.negative else w.negative)
    ((w.magnitude &&& (place ^^^ 0xffffffff)) ||| bytes)

def fieldOf (code : Nat) : Guarded (Option Field) := do
  return Field.ofBounds? (← div code 8) (← mod code 8)

variable (f : Field)

theorem fieldOf_eq (code : Nat) : fieldOf code = .ok (Field.ofCode? code) := rfl

theorem byteCount_eq : byteCount f = .ok f.byteCount := by
  have hright := f.right_le
  unfold byteCount firstByte Field.byteCount
  split
  · rename_i first hfirst
    split at hfirst
    · cases hfirst
      rename_i hle
      rw [sub_eq hle, ok_bind, add_eq (by simp only [Width.limit]; omega)]
      congr 1
      omega
    · cases hfirst
  · rename_i hnone
    split at hnone
    · cases hnone
    · congr 1
      omega

/-- The bytes of a field and those to its right are at most five. -/
theorem byteCount_add_le : 5 - f.right + f.byteCount ≤ 5 := by
  have hright := f.right_le
  unfold Field.byteCount
  omega

theorem distance_eq : distance f = .ok ((5 - f.right) * 6) := by
  unfold distance
  rw [sub_eq f.right_le, ok_bind, mul_eq (by simp only [Width.limit]; omega)]

theorem unit_mul_span_le : f.unit * f.span ≤ 1073741824 := by
  rw [Field.unit, Field.span, ← weight_add, ← weight_five]
  exact weight_le (byteCount_add_le f)

theorem mask_eq : mask f = .ok (f.span - 1) := by
  have hcount := byteCount_add_le f
  have hspan : f.span ≤ weight 5 := weight_le (by omega)
  rw [weight_five] at hspan
  have hmul : mul .w32 f.byteCount 6 = .ok (f.byteCount * 6) :=
    mul_eq (by simp only [Width.limit]; omega)
  have hfits : weight f.byteCount < Width.w32.limit := Nat.lt_of_le_of_lt hspan (by decide)
  have hshift : shiftLeft .w32 1 (f.byteCount * 6) = .ok f.span := by
    rw [shiftLeft_eq (by simp only [Width.bits]; omega), shiftLeft_bytes, Nat.one_mul,
      Nat.mod_eq_of_lt hfits, Field.span]
  unfold mask
  rw [byteCount_eq, ok_bind, hmul, ok_bind, hshift, ok_bind]
  exact sub_eq (weight_pos f.byteCount)

theorem extract_eq (w : Word) : extract f w = .ok (f.extract w) := by
  have hshift : shiftRight .w32 w.magnitude ((5 - f.right) * 6) = .ok (w.magnitude / f.unit) :=
    shiftRight_magnitude w rfl (by omega)
  have hbytes : w.magnitude / f.unit &&& (f.span - 1) = w.magnitude / f.unit % f.span :=
    and_bytes _ _
  simp only [extract, distance_eq, mask_eq, hshift, hbytes, ok_bind, pure_eq, Field.extract]

theorem shiftLeft_unit {n : Nat} (h : n < f.span) :
    shiftLeft .w32 n ((5 - f.right) * 6) = .ok (n * f.unit) := by
  have hroom := unit_mul_span_le f
  have hlt : n * f.unit < f.unit * f.span := by
    rw [Nat.mul_comm n]
    exact Nat.mul_lt_mul_of_pos_left h (weight_pos _)
  rw [shiftLeft_eq (by simp only [Width.bits]; omega), shiftLeft_bytes, ← Field.unit,
    Nat.mod_eq_of_lt (by simp only [Width.limit]; omega)]

theorem insert_eq (w source : Word) : insert f w source = .ok (f.insert w source) := by
  have hw := w.magnitude_lt_numeral
  have hspan : 0 < f.span := weight_pos _
  have hbytes : source.magnitude &&& (f.span - 1) = source.magnitude % f.span := and_bytes _ _
  have hreplace := replace_bytes (n := w.magnitude) (y := source.magnitude % f.span)
    (c := f.byteCount) (j := 5 - f.right) (by omega) (Nat.mod_lt _ hspan)
  simp only [insert, distance_eq, mask_eq, shiftLeft_unit f (Nat.sub_lt hspan Nat.one_pos), hbytes,
    shiftLeft_unit f (Nat.mod_lt _ hspan), ok_bind, pure_eq, Field.insert]
  exact congrArg (fun n => Except.ok (Word.wrap _ n)) hreplace

end Fields

section Addresses

variable {a : Address}

def addressValue (a : Address) : Guarded Int :=
  if a.negative then integer (-(a.magnitude : Int)) else .ok a.magnitude

def indexed (a : Address) (n : Int) : Guarded Address := do
  let sum ← integer ((← addressValue a) + n)
  return if sum = 0 then ⟨a.negative, 0⟩ else Address.ofInt sum

def location (a : Address) (size : Nat) : Guarded (Option Nat) := do
  let v ← addressValue a
  return if 0 ≤ v ∧ v.toNat < size then some v.toNat else none

theorem addressValue_eq (h : a.magnitude < 0x100000000) : addressValue a = .ok a.value := by
  unfold addressValue Address.value
  split
  · exact integer_eq (by omega)
  · rfl

theorem indexed_eq (h : a.magnitude < 0x100000000) {n : Int} (hn : n.natAbs < 0x100000000) :
    indexed a n = .ok (a.add n) := by
  have ha := a.natAbs_value
  unfold indexed
  rw [addressValue_eq h, ok_bind, integer_eq (by omega)]
  rfl

theorem magnitude_add_lt (a : Address) (n : Int) : (a.add n).magnitude < 0x100000000 := by
  unfold Address.add
  split
  · exact (by decide : 0 < 0x100000000)
  · exact Nat.mod_lt _ (by decide)

theorem location_eq (h : a.magnitude < 0x100000000) (size : Nat) :
    location a size = .ok (a.location? size) := by
  unfold location
  rw [addressValue_eq h]
  rfl

end Addresses

end MixComputer.Guarded
