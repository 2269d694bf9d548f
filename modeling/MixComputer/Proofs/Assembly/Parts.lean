import MixComputer.Proofs.Assembly.ExactValue
import MixComputer.Proofs.Field
import Mathlib.Data.List.Induction

/-!
The parts of a w-value. Each part is stored into a field of the word, one after the other, so each
byte is the work of the last part whose field covers it, and the sign, which is byte 0, is that of
the last part whose field begins with it. What no part covers is zero. Two parts whose fields are
apart do not see each other, and the first part without a value or a field is where everything ends.
-/
namespace MixComputer

theorem Word.getElem?_bytes (w : Word) {k : Nat} (hlow : 1 ≤ k) (hhigh : k ≤ 5) :
    w.bytes[k - 1]? = some (w.byte k) := by
  obtain rfl | rfl | rfl | rfl | rfl : k = 1 ∨ k = 2 ∨ k = 3 ∨ k = 4 ∨ k = 5 := by omega
  all_goals rfl

namespace Field

variable {k : Nat}

instance (f : Field) (k : Nat) : Decidable (f.Covers k) :=
  inferInstanceAs (Decidable (f.left ≤ k ∧ k ≤ f.right))

/-- The code of a field is decoded to the field. -/
theorem ofCode?_code (f : Field) : ofCode? f.code = some f := by
  have hleft := f.left_le
  have hright := f.right_le
  have hquotient : f.code / 8 = f.left := by
    unfold code
    omega
  have hremainder : f.code % 8 = f.right := by
    unfold code
    omega
  rw [ofCode?, ofBounds?, dif_pos (by rw [hquotient, hremainder]; exact ⟨hleft, hright⟩)]
  simp only [hquotient, hremainder]

/-- Inserting puts the last bytes of the source into the field, and keeps the other bytes. -/
theorem byte_insert (f : Field) (w source : Word) (hlow : 1 ≤ k) (hhigh : k ≤ 5) :
    (f.insert w source).byte k =
      if f.Covers k then source.byte (5 - (f.right - k)) else w.byte k := by
  have hleft := f.left_le
  have hright := f.right_le
  have hcount := f.before_add_byteCount
  have hbefore : f.before = max f.left 1 - 1 := rfl
  have hbytes := ((f.cuts w).insert source).bytes
  have hfront : (w.bytes.take f.before).length = f.before := (f.cuts w).front
  have hown : (source.bytes.drop (5 - f.byteCount)).length = f.byteCount :=
    ((f.cuts w).insert source).own
  apply Option.some.inj
  rw [← Word.getElem?_bytes _ hlow hhigh, hbytes]
  by_cases hcovers : f.Covers k
  · obtain ⟨hfrom, hto⟩ := hcovers
    have hplace : 5 - f.byteCount + (k - 1 - f.before) = 5 - (f.right - k) - 1 := by omega
    rw [if_pos ⟨hfrom, hto⟩, List.getElem?_append_left (by rw [List.length_append]; omega),
      List.getElem?_append_right (by omega), hfront, List.getElem?_drop, hplace]
    exact Word.getElem?_bytes source (by omega) (by omega)
  · rw [if_neg hcovers, ← Word.getElem?_bytes w hlow hhigh]
    by_cases hto : k ≤ f.right
    · have hfrom : ¬ f.left ≤ k := fun hfrom => hcovers ⟨hfrom, hto⟩
      rw [List.getElem?_append_left (by rw [List.length_append]; omega),
        List.getElem?_append_left (by omega), List.getElem?_take_of_lt (by omega)]
    · have hplace : f.right + (k - 1 - (f.before + f.byteCount)) = k - 1 := by omega
      rw [List.getElem?_append_right (by rw [List.length_append]; omega), List.length_append,
        hfront, hown, List.getElem?_drop, hplace]

end Field

namespace Assembly

open Source

structure Store where
  field : Field
  value : Int
deriving DecidableEq

namespace Store

variable {stores : List Store} {p : Store} {w : Word} {k : Nat}

def apply (w : Word) (p : Store) : Word := p.field.insert w (Word.ofInt p.value)

/-- The byte that goes to place `k`: the last byte of the value goes to the end of the field. -/
def byteAt (p : Store) (k : Nat) : Byte := Byte.ofNat (p.value.natAbs / weight (p.field.right - k))

def last? (stores : List Store) (k : Nat) : Option Store :=
  (stores.filter fun p => decide (p.field.Covers k)).getLast?

theorem last?_concat (stores : List Store) (p : Store) (k : Nat) :
    last? (stores ++ [p]) k = if p.field.Covers k then some p else last? stores k := by
  unfold last?
  rw [List.filter_append]
  by_cases hcovers : p.field.Covers k
  · have hlast : [p].filter (fun p => decide (p.field.Covers k)) = [p] := by simp [hcovers]
    rw [if_pos hcovers, hlast, List.getLast?_concat]
  · have hnone : [p].filter (fun p => decide (p.field.Covers k)) = [] := by simp [hcovers]
    rw [if_neg hcovers, hnone, List.append_nil]

theorem negative_apply (w : Word) (p : Store) :
    (apply w p).negative = if p.field.Covers 0 then decide (p.value < 0) else w.negative := by
  have hcovers : p.field.Covers 0 ↔ p.field.left = 0 :=
    ⟨fun h => Nat.le_zero.mp h.1, fun h => ⟨Nat.le_of_eq h, Nat.zero_le _⟩⟩
  rw [apply, Field.negative_insert]
  simp only [hcovers]
  rfl

theorem byte_apply (hfits : Word.Fits p.value) (w : Word) (hlow : 1 ≤ k) (hhigh : k ≤ 5) :
    (apply w p).byte k = if p.field.Covers k then p.byteAt k else w.byte k := by
  have hright := p.field.right_le
  have hmagnitude : (Word.ofInt p.value).magnitude = p.value.natAbs := Nat.mod_eq_of_lt hfits
  have hplace : 5 - (5 - (p.field.right - k)) = p.field.right - k := by omega
  rw [apply, Field.byte_insert _ _ _ hlow hhigh, Word.byte, hmagnitude, hplace]
  rfl

/-- The sign is that of the last store that covers it. Zero has a positive sign. -/
theorem negative_foldl_apply (stores : List Store) :
    (stores.foldl apply Word.zero).negative =
      (last? stores 0).elim false fun p => decide (p.value < 0) := by
  induction stores using List.reverseRecOn with
  | nil => rfl
  | append_singleton stores p ih =>
    rw [List.foldl_append, List.foldl_cons, List.foldl_nil, negative_apply, last?_concat, ih]
    split <;> rfl

/-- A byte is that of the last store that covers it. -/
theorem byte_foldl_apply (hfits : ∀ p ∈ stores, Word.Fits p.value) (hlow : 1 ≤ k) (hhigh : k ≤ 5) :
    (stores.foldl apply Word.zero).byte k =
      (last? stores k).elim (Byte.ofNat 0) fun p => p.byteAt k := by
  induction stores using List.reverseRecOn with
  | nil => exact congrArg Byte.ofNat (Nat.zero_div _)
  | append_singleton stores p ih =>
    obtain ⟨hbefore, hlast⟩ := List.forall_mem_append.mp hfits
    rw [List.foldl_append, List.foldl_cons, List.foldl_nil,
      byte_apply (hlast p List.mem_cons_self) _ hlow hhigh, last?_concat, ih hbefore]
    split <;> rfl

theorem apply_comm {q : Store} (h : p.field.Apart q.field) (w : Word) :
    apply (apply w p) q = apply (apply w q) p := Field.insert_comm h w _ _

end Store

namespace Scope

variable {s : Scope} {p q : WPart} {a b : Store} {error : Error} {w w' : WValue} {word : Word}

/-- The field of a part is given by its code `8L + R`. A part without one goes to the whole word. -/
def HasField (s : Scope) (part : Option Expression) (f : Field) : Prop :=
  match part with
  | none => f = Field.whole
  | some e => s.evaluate e = .ok (f.code : Int)

structure Stores (s : Scope) (p : WPart) (a : Store) : Prop where
  value : s.evaluate p.value = .ok a.value
  field : s.HasField p.field a.field
  fits : Word.Fits a.value

/-- What can be wrong with a part: its value, its field, a number in place of the field that is no
code `8L + R`, or a value that has no room in a word. -/
inductive Refuses (s : Scope) (p : WPart) : Error → Prop
  | value {error : Error} (h : s.evaluate p.value = .error error) : s.Refuses p error
  | field {v : Int} {e : Expression} {error : Error} (hv : s.evaluate p.value = .ok v)
      (he : p.field = some e) (h : s.evaluate e = .error error) : s.Refuses p error
  | code {v code : Int} {e : Expression} (hv : s.evaluate p.value = .ok v) (he : p.field = some e)
      (hcode : s.evaluate e = .ok code) (h : ∀ f : Field, (f.code : Int) ≠ code) :
      s.Refuses p (.outOfRange .field code)
  | large {v : Int} {f : Field} (hv : s.evaluate p.value = .ok v) (hf : s.HasField p.field f)
      (h : ¬ Word.Fits v) : s.Refuses p (.outOfRange .wValue v)

theorem HasField.fieldOf {part : Option Expression} {f : Field} (h : s.HasField part f) :
    s.fieldOf part = .ok f := by
  cases part with
  | none => exact congrArg Except.ok h.symm
  | some e =>
    refine (bind_eq_ok_iff _ _ _).mpr ⟨f.code, h, ?_⟩
    rw [if_pos (Int.natCast_nonneg _), Int.toNat_natCast, Field.ofCode?_code]

/-- A number in place of a field is a code or is refused. -/
theorem fieldOf_of_value {e : Expression} {code : Int} (h : s.evaluate e = .ok code) :
    (∃ f : Field, (f.code : Int) = code) ∨
      (∀ f : Field, (f.code : Int) ≠ code) ∧
        s.fieldOf (some e) = .error (.outOfRange .field code) := by
  by_cases hcode : ∃ f : Field, (f.code : Int) = code
  · exact .inl hcode
  · refine .inr ⟨fun f hf => hcode ⟨f, hf⟩, ?_⟩
    have hnone : (if 0 ≤ code then Field.ofCode? code.toNat else none) = none := by
      by_cases hsign : 0 ≤ code
      · rw [if_pos hsign, Option.eq_none_iff_forall_ne_some]
        intro f hf
        refine hcode ⟨f, ?_⟩
        rw [Field.code_of_ofCode? hf, Int.toNat_of_nonneg hsign]
      · exact if_neg hsign
    simp only [fieldOf, h, bind, Except.bind, hnone]

theorem storeParts_of_stores (h : s.Stores p a) (word : Word) (w : WValue) :
    s.storeParts word (p :: w) = s.storeParts (a.apply word) w := by
  have hrange : checkRange .wValue a.value = .ok a.value :=
    (checkRange_eq_ok_iff _ _ _).mpr ⟨h.fits, rfl⟩
  simp only [storeParts, h.value, h.field.fieldOf, hrange, bind, Except.bind]
  rfl

theorem storeParts_of_refuses (h : s.Refuses p error) (word : Word) (w : WValue) :
    s.storeParts word (p :: w) = .error error := by
  cases h with
  | value h => simp only [storeParts, h, bind, Except.bind]
  | field hv he h =>
    have hfield : s.fieldOf p.field = .error error := by
      simp only [he, Scope.fieldOf, h, bind, Except.bind]
    simp only [storeParts, hv, hfield, bind, Except.bind]
  | code hv he hcode h =>
    obtain ⟨f, hf⟩ | ⟨-, hfield⟩ := fieldOf_of_value hcode
    · exact absurd hf (h f)
    · rw [← he] at hfield
      simp only [storeParts, hv, hfield, bind, Except.bind]
  | @large v f hv hf h =>
    have hrange : checkRange .wValue v = .error (.outOfRange .wValue v) := if_neg h
    simp only [storeParts, hv, hf.fieldOf, hrange, bind, Except.bind]

/-- A part with a value has a field or is refused. -/
theorem exists_hasField (s : Scope) (p : WPart) {v : Int} (hv : s.evaluate p.value = .ok v) :
    (∃ f, s.HasField p.field f) ∨ ∃ error, s.Refuses p error := by
  cases hpart : p.field with
  | none => exact .inl ⟨Field.whole, rfl⟩
  | some e =>
    cases hcode : s.evaluate e with
    | error error => exact .inr ⟨error, .field hv hpart hcode⟩
    | ok code =>
      obtain ⟨f, rfl⟩ | ⟨hnone, -⟩ := fieldOf_of_value hcode
      · exact .inl ⟨f, hcode⟩
      · exact .inr ⟨_, .code hv hpart hcode hnone⟩

theorem stores_or_refuses (s : Scope) (p : WPart) :
    (∃ a, s.Stores p a) ∨ ∃ error, s.Refuses p error := by
  cases hv : s.evaluate p.value with
  | error error => exact .inr ⟨error, .value hv⟩
  | ok v =>
    obtain ⟨f, hf⟩ | hrefuses := s.exists_hasField p hv
    · by_cases hfits : Word.Fits v
      · exact .inl ⟨⟨f, v⟩, hv, hf, hfits⟩
      · exact .inr ⟨_, .large hv hf hfits⟩
    · exact .inr hrefuses

/-- Parts that can be stored are stored one after the other. -/
theorem storeParts_of_forall₂ {stores : List Store} (h : List.Forall₂ s.Stores w stores)
    (word : Word) : s.storeParts word w = .ok (stores.foldl Store.apply word) := by
  induction h generalizing word with
  | nil => rfl
  | cons hp _ ih => rw [storeParts_of_stores hp, ih, List.foldl_cons]

/-- Everything ends at the first part that is refused. -/
theorem storeParts_of_first {front : WValue} (hfront : ∀ q ∈ front, ∃ a, s.Stores q a)
    (hp : s.Refuses p error) (word : Word) (back : WValue) :
    s.storeParts word (front ++ p :: back) = .error error := by
  induction front generalizing word with
  | nil => exact storeParts_of_refuses hp word back
  | cons q front ih =>
    obtain ⟨⟨a, hq⟩, hmore⟩ := List.forall_mem_cons.mp hfront
    rw [List.cons_append, storeParts_of_stores hq]
    exact ih hmore _

theorem first_of_storeParts (h : s.storeParts word w = .error error) :
    ∃ front p back, w = front ++ p :: back ∧ (∀ q ∈ front, ∃ a, s.Stores q a) ∧
      s.Refuses p error := by
  induction w generalizing word with
  | nil => cases h
  | cons q w ih =>
    obtain ⟨a, hq⟩ | ⟨cause, hq⟩ := s.stores_or_refuses q
    · rw [storeParts_of_stores hq] at h
      obtain ⟨front, p, back, rfl, hfront, hp⟩ := ih h
      exact ⟨q :: front, p, back, rfl, List.forall_mem_cons.mpr ⟨⟨a, hq⟩, hfront⟩, hp⟩
    · rw [storeParts_of_refuses hq] at h
      cases h
      exact ⟨[], q, w, rfl, fun _ hnot => absurd hnot List.not_mem_nil, hq⟩

theorem storeParts_append (word : Word) (front back : WValue) :
    s.storeParts word (front ++ back) =
      s.storeParts word front >>= fun word => s.storeParts word back := by
  induction front generalizing word with
  | nil => rfl
  | cons p front ih =>
    rw [List.cons_append]
    obtain ⟨a, hp⟩ | ⟨error, hp⟩ := s.stores_or_refuses p
    · rw [storeParts_of_stores hp, storeParts_of_stores hp, ih]
    · rw [storeParts_of_refuses hp, storeParts_of_refuses hp]
      rfl

/-- A w-value in another order: any number of times, two parts that stand side by side and go to
fields that are apart have changed places. -/
inductive Reordered (s : Scope) (w : WValue) : WValue → Prop
  | refl : s.Reordered w w
  | swap {front back : WValue} {p q : WPart} {a b : Store}
      (h : s.Reordered w (front ++ p :: q :: back)) (hp : s.Stores p a) (hq : s.Stores q b)
      (hapart : a.field.Apart b.field) : s.Reordered w (front ++ q :: p :: back)

theorem storeParts_swap (hp : s.Stores p a) (hq : s.Stores q b) (hapart : a.field.Apart b.field)
    (front back : WValue) (word : Word) :
    s.storeParts word (front ++ q :: p :: back) = s.storeParts word (front ++ p :: q :: back) := by
  have hpair (word : Word) :
      s.storeParts word (q :: p :: back) = s.storeParts word (p :: q :: back) := by
    rw [storeParts_of_stores hq, storeParts_of_stores hp, storeParts_of_stores hp,
      storeParts_of_stores hq, Store.apply_comm hapart]
  rw [storeParts_append, storeParts_append, funext hpair]

theorem Reordered.word_eq (h : s.Reordered w w') : s.word w' = s.word w := by
  induction h with
  | refl => rfl
  | swap _ hp hq hapart ih => exact (storeParts_swap hp hq hapart _ _ _).trans ih

/-- The word of parts that can all be stored: its sign and its bytes are those of the last part
whose field covers them. -/
theorem word_of_forall₂ {stores : List Store} (h : List.Forall₂ s.Stores w stores) :
    ∃ word, s.word w = .ok word ∧
      word.negative = (Store.last? stores 0).elim false (fun p => decide (p.value < 0)) ∧
      ∀ k, 1 ≤ k → k ≤ 5 →
        word.byte k = (Store.last? stores k).elim (Byte.ofNat 0) (fun p => p.byteAt k) := by
  have hfits : ∀ a ∈ stores, Word.Fits a.value := by
    induction h with
    | nil => exact fun a ha => absurd ha List.not_mem_nil
    | cons hp _ ih => exact List.forall_mem_cons.mpr ⟨hp.fits, ih⟩
  refine ⟨_, storeParts_of_forall₂ h Word.zero, Store.negative_foldl_apply stores, ?_⟩
  exact fun k hlow hhigh => Store.byte_foldl_apply hfits hlow hhigh

/-- A w-value is decided part by part. If all parts can be stored, then the sign and each byte of
the word come from the last part whose field covers them, and are plus and zero if there is none.
Side by side, parts whose fields are apart may change places. If a part is refused, the first one
says what the error is; and where all symbols fit into words, no value is too large. -/
theorem word_parts (s : Scope) (w : WValue) :
    (∀ stores, List.Forall₂ s.Stores w stores → ∃ word, s.word w = .ok word ∧
        word.negative = (Store.last? stores 0).elim false (fun p => decide (p.value < 0)) ∧
        ∀ k, 1 ≤ k → k ≤ 5 →
          word.byte k = (Store.last? stores k).elim (Byte.ofNat 0) (fun p => p.byteAt k)) ∧
      (∀ w', s.Reordered w w' → s.word w' = s.word w) ∧
      (∀ error, s.word w = .error error ↔ ∃ front p back, w = front ++ p :: back ∧
        (∀ q ∈ front, ∃ a, s.Stores q a) ∧ s.Refuses p error) ∧
      (s.WithinWords → ∀ p v, s.evaluate (WPart.value p) = .ok v → Word.Fits v) := by
  refine ⟨fun stores h => word_of_forall₂ h, fun w' h => h.word_eq, fun error => ?_,
    fun h p v hv => h.fits_evaluate hv⟩
  constructor
  · exact first_of_storeParts
  · rintro ⟨front, p, back, rfl, hfront, hp⟩
    exact storeParts_of_first hfront hp Word.zero back

def wholePart : WPart := ⟨⟨false, .number 1, []⟩, none⟩

/-- `-1000(0:2)`. -/
def frontPart : WPart :=
  ⟨⟨true, .number 1000, []⟩, some ⟨false, .number 0, [(.field, .number 2)]⟩⟩

/-- `3(5:5)`. -/
def backPart : WPart := ⟨⟨false, .number 3, []⟩, some ⟨false, .number 5, [(.field, .number 5)]⟩⟩

/-- `1/0(6)`, which has an error in its value and another in its field. -/
def wrongPart : WPart :=
  ⟨⟨false, .number 1, [(.divide, .number 0)]⟩, some ⟨false, .number 6, []⟩⟩

def noSymbols : Scope := ⟨SymbolTable.empty, 0⟩

/-- What is stored into the front of a word and what is stored into its back may change places. -/
theorem word_parts_front_back :
    (∃ word, noSymbols.word [wholePart, frontPart, backPart] = .ok word ∧
      word.negative = true ∧ word.byte 2 = Byte.ofNat 40 ∧ word.byte 3 = Byte.ofNat 0 ∧
      word.byte 5 = Byte.ofNat 3) ∧
    noSymbols.word [wholePart, backPart, frontPart] =
      noSymbols.word [wholePart, frontPart, backPart] ∧
    noSymbols.word [wholePart, wrongPart, backPart] = .error .divisionByZero ∧
    Word.Fits (-1000) := by
  have hwhole : noSymbols.Stores wholePart ⟨Field.whole, 1⟩ := ⟨rfl, rfl, by decide⟩
  have hfront : noSymbols.Stores frontPart ⟨Field.address, -1000⟩ := ⟨rfl, rfl, by decide⟩
  have hback : noSymbols.Stores backPart ⟨⟨5, 5, by decide, by decide⟩, 3⟩ :=
    ⟨rfl, rfl, by decide⟩
  obtain ⟨hword, horder, -, hfits⟩ := word_parts noSymbols [wholePart, frontPart, backPart]
  obtain ⟨-, -, hrefused, -⟩ := word_parts noSymbols [wholePart, wrongPart, backPart]
  refine ⟨?_, ?_, ?_, ?_⟩
  · obtain ⟨word, hok, hnegative, hbytes⟩ :=
      hword _ (.cons hwhole (.cons hfront (.cons hback .nil)))
    exact ⟨word, hok, hnegative, hbytes 2 (by decide) (by decide),
      hbytes 3 (by decide) (by decide), hbytes 5 (by decide) (by decide)⟩
  · have hapart : Field.address.Apart ⟨5, 5, by decide, by decide⟩ :=
      Field.apart_iff.mpr (.inl (by decide))
    have hswapped : noSymbols.Reordered [wholePart, frontPart, backPart]
        ([wholePart] ++ backPart :: frontPart :: []) := .swap .refl hfront hback hapart
    exact horder _ hswapped
  · refine (hrefused .divisionByZero).mpr
      ⟨[wholePart], wrongPart, [backPart], rfl, ?_, .value rfl⟩
    exact List.forall_mem_singleton.mpr ⟨_, hwhole⟩
  · have hwithin : noSymbols.WithinWords := by
      refine ⟨fun name v hv => ?_, by decide⟩
      cases hv
    exact hfits hwithin frontPart (-1000) rfl

end Scope

end Assembly

end MixComputer
