import MixComputer.Proofs.Bytes
import MixComputer.Proofs.Guarded.Word

/-!
Partial fields as lists of bytes. A field cuts the bytes of a word in three: those before it, its
own and those after it. What is extracted are its own bytes, moved to the right end of a word, and
what is inserted comes from the right end of a word and replaces them. The sign is in a field that
begins with byte 0.
-/
namespace MixComputer.Field

def before (f : Field) : Nat := max f.left 1 - 1

/-- Bytes `max L 1` to `R` of a list that counts from byte 1. -/
def select (f : Field) (bytes : List Byte) : List Byte := (bytes.take f.right).drop f.before

/-- Whether byte `k` is in the field. Byte 0 is the sign. -/
def Covers (f : Field) (k : Nat) : Prop := f.left ≤ k ∧ k ≤ f.right

def Apart (f g : Field) : Prop := ∀ k, ¬ (f.Covers k ∧ g.Covers k)

variable {f g : Field} {w source later : Word} {front own back : List Byte}

theorem before_add_byteCount (f : Field) : f.before + f.byteCount = f.right := by
  have := f.left_le
  unfold before byteCount
  omega

theorem byteCount_le (f : Field) : f.byteCount ≤ 5 := by
  have := f.before_add_byteCount
  have := f.right_le
  omega

/-- Of two fields that are apart one ends before the other begins. -/
theorem apart_iff : f.Apart g ↔ f.right < g.left ∨ g.right < f.left := by
  have hf := f.left_le
  have hg := g.left_le
  unfold Apart Covers
  constructor
  · intro h
    have hmax := h (max f.left g.left)
    omega
  · intro h k
    omega

instance (f g : Field) : Decidable (f.Apart g) := decidable_of_iff _ apart_iff.symm

example : Field.address.Apart ⟨3, 5, by decide, by decide⟩ := by decide

section Bytes

/-- The bytes of a word before, in and after a field. -/
structure Cuts (f : Field) (w : Word) (front own back : List Byte) : Prop where
  bytes : w.bytes = front ++ own ++ back
  front : front.length = f.before
  own : own.length = f.byteCount

theorem cuts (f : Field) (w : Word) :
    f.Cuts w (w.bytes.take f.before) (f.select w.bytes) (w.bytes.drop f.right) := by
  have hright := f.right_le
  have hcount := f.before_add_byteCount
  refine ⟨?_, ?_, ?_⟩
  · have hfront : w.bytes.take f.before = (w.bytes.take f.right).take f.before := by
      rw [List.take_take, Nat.min_eq_left (by omega)]
    rw [hfront, select, List.take_append_drop, List.take_append_drop]
  · rw [List.length_take, Word.length_bytes]
    omega
  · rw [select, List.length_drop, List.length_take, Word.length_bytes]
    omega

/-- The three parts of a word are those of its magnitude. -/
theorem Cuts.eq_lastBytes (h : f.Cuts w front own back) :
    front = lastBytes f.before (w.magnitude / (f.unit * f.span)) ∧
      own = lastBytes f.byteCount (w.magnitude / f.unit) ∧
      back = lastBytes (5 - f.right) w.magnitude := by
  have hright := f.right_le
  have hcount := f.before_add_byteCount
  have hfive : 5 = f.before + f.byteCount + (5 - f.right) := by omega
  have hbytes : front ++ own ++ back = lastBytes 5 w.magnitude := by
    rw [← h.bytes, Word.bytes_eq_lastBytes]
  have hweight : w.magnitude / f.unit / weight f.byteCount = w.magnitude / (f.unit * f.span) :=
    Nat.div_div_eq_div_mul _ _ _
  rw [hfive, lastBytes_add, lastBytes_add] at hbytes
  have hfront : (front ++ own).length = (lastBytes f.before (w.magnitude / f.unit /
      weight f.byteCount) ++ lastBytes f.byteCount (w.magnitude / f.unit)).length := by
    rw [List.length_append, List.length_append, length_lastBytes, length_lastBytes, h.front, h.own]
  obtain ⟨hfirst, hback⟩ := List.append_inj hbytes hfront
  obtain ⟨hfront, hown⟩ := List.append_inj hfirst (by rw [length_lastBytes, h.front])
  exact ⟨hweight ▸ hfront, hown, hback⟩

/-- The bytes of the field, with zeros in front. -/
theorem Cuts.bytes_extract (h : f.Cuts w front own back) :
    (f.extract w).bytes = zeroBytes (5 - f.byteCount) ++ own := by
  have hcount := f.byteCount_le
  have hfive : 5 = 5 - f.byteCount + f.byteCount := by omega
  have hlt : w.magnitude / f.unit % f.span < weight f.byteCount := Nat.mod_lt _ (weight_pos _)
  obtain ⟨-, hown, -⟩ := h.eq_lastBytes
  calc (f.extract w).bytes = lastBytes 5 (w.magnitude / f.unit % f.span) := Word.bytes_wrap _ _
    _ = lastBytes (5 - f.byteCount + f.byteCount) (w.magnitude / f.unit % f.span) := by rw [← hfive]
    _ = zeroBytes (5 - f.byteCount) ++ lastBytes f.byteCount (w.magnitude / f.unit % f.span) :=
      lastBytes_of_lt _ hlt
    _ = zeroBytes (5 - f.byteCount) ++ own := by rw [span, lastBytes_mod, hown]

/-- The last bytes of a word, as many as the field has. -/
theorem drop_bytes (f : Field) (w : Word) :
    w.bytes.drop (5 - f.byteCount) = lastBytes f.byteCount w.magnitude := by
  have hcount := f.byteCount_le
  have hfive : 5 = 5 - f.byteCount + f.byteCount := by omega
  calc w.bytes.drop (5 - f.byteCount)
      = (lastBytes (5 - f.byteCount + f.byteCount) w.magnitude).drop (5 - f.byteCount) := by
        rw [← hfive, Word.bytes_eq_lastBytes]
    _ = lastBytes f.byteCount w.magnitude := drop_lastBytes _ _ _

/-- Inserting replaces the bytes of the field and keeps those before and after it. -/
theorem Cuts.insert (h : f.Cuts w front own back) (source : Word) :
    f.Cuts (f.insert w source) front (source.bytes.drop (5 - f.byteCount)) back := by
  have hright := f.right_le
  have hcount := f.before_add_byteCount
  have hfive : 5 = f.before + f.byteCount + (5 - f.right) := by omega
  obtain ⟨hfront, -, hback⟩ := h.eq_lastBytes
  refine ⟨?_, h.front, ?_⟩
  · have hlow : w.magnitude % f.unit < weight (5 - f.right) := Nat.mod_lt _ (weight_pos _)
    have hmiddle : source.magnitude % f.span < weight f.byteCount := Nat.mod_lt _ (weight_pos _)
    have hjoin : w.magnitude / (f.unit * f.span) * (f.unit * f.span) +
        source.magnitude % f.span * f.unit + w.magnitude % f.unit =
        (w.magnitude / (f.unit * f.span) * weight f.byteCount + source.magnitude % f.span) *
          weight (5 - f.right) + w.magnitude % f.unit := by
      rw [Nat.add_mul, Nat.mul_assoc, Nat.mul_comm (weight f.byteCount)]
      rfl
    calc (f.insert w source).bytes
        = lastBytes 5 ((w.magnitude / (f.unit * f.span) * weight f.byteCount +
            source.magnitude % f.span) * weight (5 - f.right) + w.magnitude % f.unit) := by
          rw [Field.insert, Word.bytes_wrap, hjoin]
      _ = lastBytes (f.before + f.byteCount + (5 - f.right))
            ((w.magnitude / (f.unit * f.span) * weight f.byteCount + source.magnitude % f.span) *
              weight (5 - f.right) + w.magnitude % f.unit) := by rw [← hfive]
      _ = lastBytes f.before (w.magnitude / (f.unit * f.span)) ++
            lastBytes f.byteCount (source.magnitude % f.span) ++
            lastBytes (5 - f.right) (w.magnitude % f.unit) := by
          rw [lastBytes_join _ _ hlow, lastBytes_join _ _ hmiddle]
      _ = front ++ source.bytes.drop (5 - f.byteCount) ++ back := by
          rw [hfront, hback, drop_bytes, span, lastBytes_mod, unit, lastBytes_mod]
  · rw [List.length_drop, Word.length_bytes, Nat.sub_sub_self f.byteCount_le]

end Bytes

section Signs

theorem negative_extract (f : Field) (w : Word) :
    (f.extract w).negative = if f.left = 0 then w.negative else false := by
  rw [extract, Word.negative_wrap, includesSign]
  by_cases hleft : f.left = 0 <;> simp [hleft]

theorem negative_insert (f : Field) (w source : Word) :
    (f.insert w source).negative = if f.left = 0 then source.negative else w.negative := by
  rw [insert, Word.negative_wrap, includesSign]
  by_cases hleft : f.left = 0 <;> simp [hleft]

end Signs

section Laws

theorem insert_extract (f : Field) (w : Word) : f.insert w (f.extract w) = w := by
  have hcuts := f.cuts w
  refine Word.eq_of_bytes_eq ?_ ?_
  · rw [negative_insert, negative_extract]
    split <;> rfl
  · rw [(hcuts.insert _).bytes, hcuts.bytes_extract, List.drop_left' (length_zeroBytes _)]
    exact hcuts.bytes.symm

theorem insert_insert (f : Field) (w source later : Word) :
    f.insert (f.insert w source) later = f.insert w later := by
  have hcuts := f.cuts w
  refine Word.eq_of_bytes_eq ?_ ?_
  · rw [negative_insert, negative_insert, negative_insert]
    split <;> rfl
  · rw [((hcuts.insert source).insert later).bytes, (hcuts.insert later).bytes]

/-- Two fields cut a word in five parts. -/
theorem exists_cuts_of_right_lt (h : f.right < g.left) (w : Word) :
    ∃ front own middle own' back, f.Cuts w front own (middle ++ own' ++ back) ∧
      g.Cuts w (front ++ own ++ middle) own' back := by
  have hright := g.right_le
  have hcount := f.before_add_byteCount
  have hcount' := g.before_add_byteCount
  have hbetween : f.right ≤ g.before := by
    unfold before
    omega
  obtain ⟨hbytes, hfront, hown⟩ := f.cuts w
  generalize w.bytes.take f.before = front at hbytes hfront
  generalize f.select w.bytes = own at hbytes hown
  generalize w.bytes.drop f.right = rest at hbytes
  have hlength : rest.length = 5 - f.right := by
    have hall := congrArg List.length hbytes
    rw [Word.length_bytes, List.length_append, List.length_append] at hall
    omega
  have hrest : rest = rest.take (g.before - f.right) ++
      (rest.drop (g.before - f.right)).take g.byteCount ++
      (rest.drop (g.before - f.right)).drop g.byteCount := by
    rw [List.append_assoc, List.take_append_drop, List.take_append_drop]
  refine ⟨front, own, rest.take (g.before - f.right),
    (rest.drop (g.before - f.right)).take g.byteCount,
    (rest.drop (g.before - f.right)).drop g.byteCount, ⟨?_, hfront, hown⟩, ⟨?_, ?_, ?_⟩⟩
  · rw [← hrest, hbytes]
  · rw [List.append_assoc _ _ (List.take _ _), List.append_assoc, List.append_assoc,
      ← List.append_assoc, ← hrest, ← hbytes]
  · rw [List.length_append, List.length_append, List.length_take, hfront, hown, hlength]
    omega
  · rw [List.length_take, List.length_drop, hlength]
    omega

theorem insert_comm_of_right_lt (h : f.right < g.left) (w source later : Word) :
    g.insert (f.insert w source) later = f.insert (g.insert w later) source := by
  have hunsigned : ¬ g.left = 0 := by omega
  obtain ⟨front, own, middle, own', back, hf, hg⟩ := exists_cuts_of_right_lt h w
  have hf' : f.Cuts (g.insert w later) front own
      (middle ++ later.bytes.drop (5 - g.byteCount) ++ back) := by
    refine ⟨?_, hf.front, hf.own⟩
    rw [(hg.insert later).bytes]
    simp only [List.append_assoc]
  have hg' : g.Cuts (f.insert w source)
      (front ++ source.bytes.drop (5 - f.byteCount) ++ middle) own' back := by
    refine ⟨?_, ?_, hg.own⟩
    · rw [(hf.insert source).bytes]
      simp only [List.append_assoc]
    · rw [List.append_assoc, List.length_append, List.length_append, (hf.insert source).own,
        ← hf.own, ← List.length_append, ← List.length_append, ← List.append_assoc, hg.front]
  refine Word.eq_of_bytes_eq ?_ ?_
  · rw [negative_insert, if_neg hunsigned, negative_insert, negative_insert, negative_insert,
      if_neg hunsigned]
  · rw [(hg'.insert later).bytes, (hf'.insert source).bytes]
    simp only [List.append_assoc]

theorem insert_comm (h : f.Apart g) (w source later : Word) :
    g.insert (f.insert w source) later = f.insert (g.insert w later) source := by
  obtain hlt | hlt := apart_iff.mp h
  · exact insert_comm_of_right_lt hlt w source later
  · exact (insert_comm_of_right_lt hlt w later source).symm

theorem extract_insert (f : Field) (w source : Word) :
    f.extract (f.insert w source) =
      Word.ofBytes (if f.left = 0 then source.negative else false)
        (zeroBytes (5 - f.byteCount) ++ source.bytes.drop (5 - f.byteCount)) := by
  have hbytes := ((f.cuts w).insert source).bytes_extract
  have hlength := Word.length_bytes (f.extract (f.insert w source))
  refine Word.eq_of_bytes_eq ?_ ?_
  · rw [negative_extract, negative_insert]
    split <;> rfl
  · rw [Word.bytes_ofBytes _ (hbytes ▸ hlength), hbytes]

end Laws

/-- What a field reads and writes, byte by byte, and how reading and writing go together. -/
structure ActsOnBytes (f : Field) (w source : Word) : Prop where
  negative_extract : (f.extract w).negative = if f.left = 0 then w.negative else false
  bytes_extract : (f.extract w).bytes = zeroBytes (5 - f.byteCount) ++ f.select w.bytes
  negative_insert :
    (f.insert w source).negative = if f.left = 0 then source.negative else w.negative
  bytes_insert : (f.insert w source).bytes =
    w.bytes.take f.before ++ source.bytes.drop (5 - f.byteCount) ++ w.bytes.drop f.right
  insert_extract : f.insert w (f.extract w) = w
  extract_insert : f.extract (f.insert w source) =
    Word.ofBytes (if f.left = 0 then source.negative else false)
      (zeroBytes (5 - f.byteCount) ++ source.bytes.drop (5 - f.byteCount))
  insert_insert : ∀ later, f.insert (f.insert w source) later = f.insert w later
  insert_comm : ∀ (g : Field) later, f.Apart g →
    g.insert (f.insert w source) later = f.insert (g.insert w later) source
  /-- Shifts and masks of 32 bits read and write the same. -/
  extract_bits : Guarded.extract f w = .ok (f.extract w)
  insert_bits : Guarded.insert f w source = .ok (f.insert w source)

/-- Every field is its bytes: it reads them, with the sign if it begins with byte 0, and it replaces
them and nothing else. -/
theorem actsOnBytes (f : Field) (w source : Word) : f.ActsOnBytes w source where
  negative_extract := f.negative_extract w
  bytes_extract := (f.cuts w).bytes_extract
  negative_insert := f.negative_insert w source
  bytes_insert := ((f.cuts w).insert source).bytes
  insert_extract := f.insert_extract w
  extract_insert := f.extract_insert w source
  insert_insert := f.insert_insert w source
  insert_comm := fun _ later h => insert_comm h w source later
  extract_bits := Guarded.extract_eq f w
  insert_bits := Guarded.insert_eq f w source

end MixComputer.Field
