import MixComputer.Assembly.Reading
import MixComputer.Proofs.Assembly.Evaluation
import MixComputer.Proofs.Guarded.Table
import MixComputer.Proofs.Guarded.Word

/-!
Values of operands in numbers of fixed width. The values of symbols and the results of operators
fit into a word, which leaves room for the next operator in 64 bits; the product that is divided
by `//` has 128. So no operator overflows, however long an expression is, and what is moved to a
shorter number afterwards has been found to be small.
-/
namespace MixComputer.Guarded

open Assembly Source

section Chains

variable {α β : Type}

def andThen (x : Guarded (Except Error α)) (next : α → Guarded (Except Error β)) :
    Guarded (Except Error β) := do
  match ← x with
  | .ok a => next a
  | .error error => return .error error

theorem andThen_eq {x : Guarded (Except Error α)} {r : Except Error α}
    {next : α → Guarded (Except Error β)} {f : α → Except Error β} (hx : x = .ok r)
    (hnext : ∀ a, r = .ok a → next a = .ok (f a)) : andThen x next = .ok (r >>= f) := by
  rw [hx]
  cases r with
  | error error => rfl
  | ok a => exact hnext a rfl

end Chains

section Operators

def wide (v : Int) : Guarded Int :=
  if -0x80000000000000000000000000000000 ≤ v ∧ v < 0x80000000000000000000000000000000 then .ok v
  else .error .overflow

def quotient (a b : Int) : Guarded Int := if b = 0 then .error .division else .ok (a.tdiv b)

def signed (negative : Bool) (v : Int) : Guarded Int := if negative then integer (-v) else .ok v

def bounded (quantity : Quantity) (v : Int) : Guarded (Except Error Int) := do
  if 0x3fffffff < (← integer v.natAbs) then return .error (.outOfRange quantity v)
  else return .ok v

def operate (op : Operator) (a b : Int) : Guarded (Except Error Int) :=
  match op with
  | .add => do bounded .expression (← integer (a + b))
  | .subtract => do bounded .expression (← integer (a - b))
  | .multiply => do bounded .expression (← integer (a * b))
  | .divide =>
    if b = 0 then .ok (.error .divisionByZero)
    else do bounded .expression (← integer (← quotient a b))
  | .divideFraction =>
    if b = 0 then .ok (.error .divisionByZero)
    else do
      let dividend ← wide (a * (← wide (0x3fffffff + 1)))
      -- The quotient is cut to 64 bits.
      bounded .expression (← integer (← wide (← quotient dividend b)))
  | .field => do bounded .expression (← integer ((← integer (8 * a)) + b))

variable {a b v : Int}

theorem fits_iff : Word.Fits v ↔ v.natAbs < 1073741824 := by
  rw [Word.Fits, weight_five]

theorem fits_value (w : Word) : Word.Fits w.value := fits_iff.mpr w.natAbs_value_lt

theorem wide_eq (h : v.natAbs < 0x80000000000000000000000000000000) : wide v = .ok v :=
  if_pos (by omega)

theorem quotient_eq (h : b ≠ 0) : quotient a b = .ok (a.tdiv b) := if_neg h

theorem signed_eq (negative : Bool) (h : v.natAbs < 0x8000000000000000) :
    signed negative v = .ok (if negative then -v else v) := by
  unfold signed
  split
  · exact integer_eq (by omega)
  · rfl

theorem bounded_eq (quantity : Quantity) (h : v.natAbs < 0x8000000000000000) :
    bounded quantity v = .ok (checkRange quantity v) := by
  have habs : integer v.natAbs = .ok (v.natAbs : Int) := integer_eq (by omega)
  unfold bounded checkRange
  rw [habs, ok_bind]
  by_cases hfits : Word.Fits v
  · have hsmall := fits_iff.mp hfits
    rw [if_pos hfits, if_neg (by omega)]
    rfl
  · have hlarge := mt fits_iff.mpr hfits
    rw [if_neg hfits, if_pos (by omega)]
    rfl

/-- A result of 64 bits is checked. -/
theorem bounded_integer (h : v.natAbs < 0x8000000000000000) :
    (do bounded .expression (← integer v)) = .ok (checkRange .expression v) := by
  rw [integer_eq h, ok_bind]
  exact bounded_eq .expression h

theorem natAbs_mul_lt (ha : Word.Fits a) (hb : b.natAbs ≤ 1073741824) :
    (a * b).natAbs ≤ 1152921504606846976 := by
  rw [Int.natAbs_mul]
  exact Nat.mul_le_mul (Nat.le_of_lt (fits_iff.mp ha)) hb

/-- Operators on values that fit into words do not overflow. -/
theorem operate_eq (op : Operator) (ha : Word.Fits a) (hb : Word.Fits b) :
    operate op a b = .ok (Assembly.apply op a b) := by
  have ha' := fits_iff.mp ha
  have hb' := fits_iff.mp hb
  cases op with
  | add => exact bounded_integer (by omega)
  | subtract => exact bounded_integer (by omega)
  | multiply =>
    have hproduct := natAbs_mul_lt ha (Nat.le_of_lt hb')
    exact bounded_integer (by omega)
  | field =>
    have height : integer (8 * a) = .ok (8 * a) := integer_eq (by omega)
    show (do bounded .expression (← integer ((← integer (8 * a)) + b))) = _
    rw [height, ok_bind]
    exact bounded_integer (by omega)
  | divide =>
    by_cases hzero : b = 0
    · rw [hzero]
      rfl
    · have hquotient := Int.natAbs_tdiv_le_natAbs a b
      rw [operate, if_neg hzero, quotient_eq hzero, ok_bind, Assembly.apply, exactResult?,
        if_neg hzero]
      exact bounded_integer (by omega)
  | divideFraction =>
    by_cases hzero : b = 0
    · rw [hzero]
      rfl
    · have hunit : (weight 5 : Int) = 1073741824 := congrArg Nat.cast weight_five
      have hscale : (0x3fffffff + 1 : Int) = 1073741824 := by omega
      have hfactor : wide 1073741824 = .ok 1073741824 := wide_eq (by omega)
      have hproduct := natAbs_mul_lt (b := 1073741824) ha (by omega)
      have hquotient := Int.natAbs_tdiv_le_natAbs (a * 1073741824) b
      have hdividend : wide (a * 1073741824) = .ok (a * 1073741824) := wide_eq (by omega)
      have hresult : wide ((a * 1073741824).tdiv b) = .ok ((a * 1073741824).tdiv b) :=
        wide_eq (by omega)
      rw [operate, if_neg hzero, hscale, hfactor, ok_bind, hdividend, ok_bind, quotient_eq hzero,
        ok_bind, hresult, ok_bind, Assembly.apply, exactResult?, hunit, if_neg hzero]
      exact bounded_integer (by omega)

end Operators

section Expressions

def atom (symbols : Table Int) (here : Nat) : Atom → Guarded (Except Error Int)
  | .number n => .ok (if 0x3fffffff < n then .error (.outOfRange .number n) else .ok n)
  | .here => do return .ok (← integer here)
  | .symbol name =>
    match symbols.get? name with
    | some v => .ok (.ok v)
    | none => .ok (.error (.futureReference name))

def continueFrom (symbols : Table Int) (here : Nat) (v : Int) :
    List (Operator × Atom) → Guarded (Except Error Int)
  | [] => .ok (.ok v)
  | (op, right) :: rest =>
    andThen (atom symbols here right) fun b =>
      andThen (operate op v b) fun v => continueFrom symbols here v rest

def evaluate (symbols : Table Int) (here : Nat) (e : Expression) : Guarded (Except Error Int) :=
  andThen (atom symbols here e.first) fun v => do
    continueFrom symbols here (← signed e.negative v) e.rest

/-- The values are those of a scope, and all that may stand in an expression fits into a word. -/
structure Gives (symbols : Table Int) (s : Scope) : Prop where
  symbol : ∀ name, symbols.get? name = s.symbols.get? name
  fits : ∀ name v, s.symbols.get? name = some v → Word.Fits v
  here : s.here < 0x40000000

variable {symbols : Table Int} {s : Scope} (h : Gives symbols s)

include h

theorem fits_atom {a : Atom} {v : Int} (ha : s.atom a = .ok v) : Word.Fits v := by
  cases a with
  | number n =>
    obtain ⟨hfits, rfl⟩ := (checkRange_eq_ok_iff _ _ _).mp ha
    exact hfits
  | here =>
    have hhere := h.here
    cases ha
    rw [fits_iff]
    omega
  | symbol name =>
    unfold Scope.atom at ha
    cases hvalue : s.symbols.get? name with
    | none =>
      simp only [hvalue] at ha
      cases ha
    | some v' =>
      simp only [hvalue] at ha
      cases ha
      exact h.fits name v hvalue

theorem atom_eq (a : Atom) : atom symbols s.here a = .ok (s.atom a) := by
  cases a with
  | number n =>
    simp only [atom, Scope.atom, checkRange]
    by_cases hfits : Word.Fits (n : Int)
    · have hsmall := fits_iff.mp hfits
      rw [if_pos hfits, if_neg (by omega)]
    · have hlarge := mt fits_iff.mpr hfits
      rw [if_neg hfits, if_pos (by omega)]
  | here =>
    have hhere := h.here
    simp only [atom, Scope.atom, integer_eq (v := (s.here : Int)) (by omega), ok_bind, pure_eq]
  | symbol name =>
    simp only [atom, Scope.atom, h.symbol name]
    cases s.symbols.get? name <;> rfl

omit h in
theorem fits_apply {op : Operator} {a b v : Int} (hv : Assembly.apply op a b = .ok v) :
    Word.Fits v := by
  unfold Assembly.apply at hv
  split at hv
  · obtain ⟨hfits, rfl⟩ := (checkRange_eq_ok_iff _ _ _).mp hv
    exact hfits
  · cases hv

omit h in
/-- The last operator has been checked. -/
theorem fits_continueFrom {rest : List (Operator × Atom)} {v w : Int} (hv : Word.Fits v)
    (hw : s.continueFrom v rest = .ok w) : Word.Fits w := by
  induction rest generalizing v with
  | nil =>
    cases hw
    exact hv
  | cons first rest ih =>
    obtain ⟨op, right⟩ := first
    obtain ⟨b, -, hw⟩ := (bind_eq_ok_iff _ _ _).mp hw
    obtain ⟨c, hc, hw⟩ := (bind_eq_ok_iff _ _ _).mp hw
    exact ih (fits_apply hc) hw

theorem continueFrom_eq {rest : List (Operator × Atom)} {v : Int} (hv : Word.Fits v) :
    continueFrom symbols s.here v rest = .ok (s.continueFrom v rest) := by
  induction rest generalizing v with
  | nil => rfl
  | cons first rest ih =>
    obtain ⟨op, right⟩ := first
    refine andThen_eq (atom_eq h right) fun b hb => ?_
    exact andThen_eq (operate_eq op hv (fits_atom h hb)) fun c hc => ih (fits_apply hc)

omit h in
theorem fits_signed {v : Int} (hv : Word.Fits v) (negative : Bool) :
    Word.Fits (if negative then -v else v) := by
  rw [fits_iff] at hv ⊢
  split <;> omega

theorem fits_evaluate {e : Expression} {v : Int} (hv : s.evaluate e = .ok v) : Word.Fits v := by
  obtain ⟨first, hfirst, hv⟩ := (bind_eq_ok_iff _ _ _).mp hv
  exact fits_continueFrom (fits_signed (fits_atom h hfirst) e.negative) hv

theorem evaluate_eq (e : Expression) : evaluate symbols s.here e = .ok (s.evaluate e) := by
  refine andThen_eq (atom_eq h e.first) fun v hv => ?_
  have hfits := fits_atom h hv
  have hsmall := fits_iff.mp hfits
  rw [signed_eq e.negative (by omega), ok_bind]
  exact continueFrom_eq h (fits_signed hfits e.negative)

end Expressions

section Parts

def wordOf (v : Int) : Guarded (Option Word) := do
  if v.natAbs ≤ 0x3fffffff then return some (Word.wrap (v < 0) (← number .w32 v.natAbs))
  else return none

def fieldOfCode (code : Int) : Guarded (Option Field) :=
  if 0 ≤ code ∧ code ≤ 63 then do fieldOf (← number .w8 code.toNat) else .ok none

def partField (symbols : Table Int) (here : Nat) : Option Expression → Guarded (Except Error Field)
  | none => .ok (.ok Field.whole)
  | some e => andThen (evaluate symbols here e) fun code => do
    match ← fieldOfCode code with
    | some field => return .ok field
    | none => return .error (.outOfRange .field code)

def storeParts (symbols : Table Int) (here : Nat) (w : Word) : WValue → Guarded (Except Error Word)
  | [] => .ok (.ok w)
  | part :: parts =>
    andThen (evaluate symbols here part.value) fun v =>
      andThen (partField symbols here part.field) fun field => do
        match ← wordOf v with
        | some source => storeParts symbols here (← insert field w source) parts
        | none => return .error (.outOfRange .wValue v)

def smallPart (quantity : Quantity) (largest : Nat) (v : Int) : Guarded (Except Error Nat) := do
  if v < 0 ∨ (largest : Int) < v then return .error (.outOfRange quantity v)
  else return .ok (← number .w8 v.toNat)

def partValue (symbols : Table Int) (here : Nat) (standard : Nat) :
    Option Expression → Guarded (Except Error Int)
  | none => .ok (.ok standard)
  | some e => evaluate symbols here e

def indexOf (symbols : Table Int) (here : Nat) (part : Option Expression) :
    Guarded (Except Error Nat) :=
  andThen (partValue symbols here 0 part) (smallPart .index 6)

def codeOf (symbols : Table Int) (here : Nat) (standard : Byte) (part : Option Expression) :
    Guarded (Except Error Nat) :=
  andThen (partValue symbols here standard.val part) (smallPart .field 63)

def addressOf (symbols : Table Int) (here : Nat) (e : Expression) :
    Guarded (Except Error Address) :=
  andThen (evaluate symbols here e) fun v => do
    if v = 0 ∧ e.negative = true then return .ok ⟨true, 0⟩
    else if (← integer v.natAbs) ≤ 4095 then return .ok ⟨v < 0, ← number .w32 v.natAbs⟩
    else return .error (.outOfRange .address v)

def pack (code index field : Nat) (a : Address) : Guarded Word := do
  let address ← shiftLeft .w32 (a.magnitude &&& 4095) 18
  let index ← shiftLeft .w32 (index &&& 63) 12
  let field ← shiftLeft .w32 (field &&& 63) 6
  return Word.wrap a.negative (address ||| index ||| field ||| (code &&& 63))

theorem wordOf_eq (v : Int) :
    wordOf v = .ok (if Word.Fits v then some (Word.ofInt v) else none) := by
  unfold wordOf
  by_cases hfits : Word.Fits v
  · have hsmall := fits_iff.mp hfits
    have hnumber : number .w32 v.natAbs = .ok v.natAbs :=
      if_pos (by simp only [Width.limit]; omega)
    rw [if_pos (by omega), if_pos hfits, hnumber]
    rfl
  · have hlarge := mt fits_iff.mpr hfits
    rw [if_neg (by omega), if_neg hfits]
    rfl

/-- A code with a seventh bit is that of no field. -/
theorem fieldOfCode_eq (code : Int) :
    fieldOfCode code = .ok (if 0 ≤ code then Field.ofCode? code.toNat else none) := by
  unfold fieldOfCode
  by_cases hcode : 0 ≤ code ∧ code ≤ 63
  · have hnumber : number .w8 code.toNat = .ok code.toNat :=
      if_pos (by simp only [Width.limit]; omega)
    rw [if_pos hcode, if_pos hcode.1, hnumber, ok_bind, fieldOf_eq]
  · rw [if_neg hcode]
    split
    · rename_i hpositive
      have hnone : ¬ (code.toNat / 8 ≤ code.toNat % 8 ∧ code.toNat % 8 ≤ 5) := by omega
      rw [Field.ofCode?, Field.ofBounds?, dif_neg hnone]
    · rfl

/-- A part of one byte, moved to the left. -/
theorem shiftLeft_part {n k amount : Nat} (hamount : k * 6 = amount) (hk : k ≤ 4) (hn : n < 64) :
    shiftLeft .w32 (n &&& 63) amount = .ok (n * weight k) := by
  have hlimit : n * weight k < Width.w32.limit := by
    have hle := Nat.mul_le_mul (Nat.le_of_lt hn) (weight_le hk)
    exact Nat.lt_of_le_of_lt hle (by decide)
  rw [← hamount, shiftLeft_eq (by simp only [Width.bits]; omega), shiftLeft_bytes, and_byte,
    Nat.mod_eq_of_lt (show n < weight 1 from hn), Nat.mod_eq_of_lt hlimit]

theorem pack_eq (op : Operation) (index : Fin 7) (field : Byte) (a : Address) :
    pack op.code index.val field.val a = .ok (Instruction.encode ⟨op, index, field, a⟩) := by
  have hindex := index.isLt
  have hfield := field.isLt
  have hcode := op.code_lt
  have haddress : shiftLeft .w32 (a.magnitude &&& 4095) 18 =
      .ok (a.magnitude % weight 2 * weight 3) := by
    rw [shiftLeft_eq (by decide), show 18 = 3 * 6 from rfl, shiftLeft_bytes, and_two_bytes,
      Nat.mod_eq_of_lt]
    rw [weight_two, weight_three]
    simp only [Width.limit]
    omega
  have hcode' : op.code &&& 63 = op.code := by
    rw [and_byte, Nat.mod_eq_of_lt (show op.code < weight 1 from hcode)]
  have hsum : a.magnitude % weight 2 * weight 3 ||| index.val * weight 2 |||
      field.val * weight 1 ||| op.code =
        ((a.magnitude % weight 2 * 64 + index.val) * 64 + field.val) * 64 + op.code := by
    have hfirst : a.magnitude % weight 2 * weight 3 + index.val * weight 2 =
        (a.magnitude % weight 2 * 64 + index.val) * weight 2 := by
      rw [weight_two, weight_three]
      omega
    have hsecond : (a.magnitude % weight 2 * 64 + index.val) * weight 2 + field.val * weight 1 =
        ((a.magnitude % weight 2 * 64 + index.val) * 64 + field.val) * weight 1 := by
      simp only [weight]
      omega
    rw [or_bytes (by rw [weight_two, weight_three]; omega), hfirst,
      or_bytes (by simp only [weight]; omega), hsecond,
      or_bytes (show op.code < weight 1 from hcode)]
    rfl
  unfold pack
  rw [haddress, ok_bind, shiftLeft_part (k := 2) rfl (by decide) (by omega), ok_bind,
    shiftLeft_part (k := 1) rfl (by decide) hfield, ok_bind, hcode', hsum, pure_eq]
  unfold Instruction.encode Parts.pack
  simp only [Byte.val_ofNat, Nat.mod_eq_of_lt hcode,
    Nat.mod_eq_of_lt (show index.val < 64 by omega)]

section Scope

variable {symbols : Table Int} {s : Scope} (h : Gives symbols s)

include h

theorem partField_eq (part : Option Expression) :
    partField symbols s.here part = .ok (s.fieldOf part) := by
  cases part with
  | none => rfl
  | some e =>
    refine andThen_eq (evaluate_eq h e) fun code _ => ?_
    rw [fieldOfCode_eq, ok_bind]
    generalize (if 0 ≤ code then Field.ofCode? code.toNat else none) = field
    cases field <;> rfl

theorem storeParts_eq (w : Word) (parts : WValue) :
    storeParts symbols s.here w parts = .ok (s.storeParts w parts) := by
  induction parts generalizing w with
  | nil => rfl
  | cons part parts ih =>
    refine andThen_eq (evaluate_eq h part.value) fun v _ => ?_
    refine andThen_eq (partField_eq h part.field) fun field _ => ?_
    rw [wordOf_eq, ok_bind]
    unfold checkRange
    by_cases hfits : Word.Fits v
    · simp only [if_pos hfits, insert_eq, ok_bind]
      exact ih _
    · simp only [if_neg hfits]
      rfl

omit h in
theorem smallPart_eq (quantity : Quantity) {largest : Nat} (hlargest : largest < 64) (v : Int) :
    smallPart quantity largest v =
      .ok (if 0 ≤ v ∧ v ≤ largest then .ok v.toNat else .error (.outOfRange quantity v)) := by
  unfold smallPart
  by_cases hrange : 0 ≤ v ∧ v ≤ largest
  · have hnumber : number .w8 v.toNat = .ok v.toNat := if_pos (by simp only [Width.limit]; omega)
    rw [if_pos hrange, if_neg (by omega), hnumber]
    rfl
  · rw [if_neg hrange, if_pos (by omega)]
    rfl

omit h in
/-- The same number, whether or not it is known to be small. -/
theorem bind_smallPart {n : Nat} {quantity : Quantity} {largest : Int} (r : Except Error Int)
    {check : Int → Except Error (Fin n)}
    (hcheck : ∀ v, (check v).map Fin.val =
      if 0 ≤ v ∧ v ≤ largest then .ok v.toNat else .error (.outOfRange quantity v)) :
    (r >>= fun v =>
        if 0 ≤ v ∧ v ≤ largest then .ok v.toNat else .error (.outOfRange quantity v)) =
      (r >>= check).map Fin.val := by
  cases r with
  | error error => rfl
  | ok v => exact (hcheck v).symm

theorem indexOf_eq (part : Option Expression) :
    indexOf symbols s.here part = .ok ((s.indexOf part).map Fin.val) := by
  cases part with
  | none => rfl
  | some e =>
    refine (andThen_eq (evaluate_eq h e) fun v _ => smallPart_eq .index (by decide) v).trans ?_
    refine congrArg Except.ok (bind_smallPart (s.evaluate e) fun v => ?_)
    split
    · rename_i hrange
      exact (if_pos hrange).symm
    · rename_i hrange
      exact (if_neg hrange).symm

theorem codeOf_eq (standard : Byte) (part : Option Expression) :
    codeOf symbols s.here standard part = .ok ((s.fieldPartOf standard part).map Fin.val) := by
  cases part with
  | none =>
    have hstandard := standard.isLt
    refine (smallPart_eq .field (by decide) (standard.val : Int)).trans ?_
    rw [if_pos (by omega)]
    rfl
  | some e =>
    refine (andThen_eq (evaluate_eq h e) fun v _ => smallPart_eq .field (by decide) v).trans ?_
    refine congrArg Except.ok (bind_smallPart (s.evaluate e) fun v => ?_)
    split
    · rename_i hrange
      exact (if_pos hrange).symm
    · rename_i hrange
      exact (if_neg hrange).symm

theorem addressOf_eq (e : Expression) :
    addressOf symbols s.here e = .ok (Assembly.addressOf s e) := by
  refine andThen_eq (evaluate_eq h e) fun v hv => ?_
  have hfits := fits_iff.mp (fits_evaluate h hv)
  have habs : integer v.natAbs = .ok (v.natAbs : Int) := integer_eq (by omega)
  have hnumber : number .w32 v.natAbs = .ok v.natAbs := if_pos (by simp only [Width.limit]; omega)
  rw [weight_two, habs]
  by_cases hzero : v = 0
  · subst hzero
    cases e.negative <;> rfl
  · rw [if_neg fun hminus => hzero hminus.1, if_neg hzero, ok_bind, hnumber]
    by_cases hsmall : v.natAbs < 4096
    · rw [if_pos (by omega), if_pos hsmall, Address.ofInt, Nat.mod_eq_of_lt (by omega)]
      rfl
    · rw [if_neg (by omega), if_neg hsmall]
      rfl

end Scope

end Parts

end MixComputer.Guarded
