import MixComputer.Machine.Execute
import MixComputer.Proofs.Guarded.Arithmetic
import MixComputer.Proofs.Machine.Invariant

/-!
Instructions in numbers of fixed width. Registers are found by their numbers and words by their
locations, both of which must exist; locations have 64 bits, and so do the values that are added
and compared. Each operation here goes through the same computations as the machine does, one trap
at a time, and comes to the same outcome without a trap.
-/
namespace MixComputer.Guarded

variable {σ : Type}

section Access

def register (s : Registers) (r : Nat) : Guarded Word := item s.general.toArray r

def setGeneral (m : Machine σ) (r : Nat) (w : Word) : Guarded (Machine σ) :=
  if h : r < 8 then .ok (m.setRegisters (m.registers.set ⟨r, h⟩ w)) else .error .index

def setPair (m : Machine σ) (words : Word × Word) : Guarded (Machine σ) := do
  setGeneral (← setGeneral m 0 words.1) 7 words.2

def content (m : Machine σ) (l : Nat) : Guarded Word := item m.memory l

def write (m : Machine σ) (l : Nat) (w : Word) : Guarded (Machine σ) :=
  if l < m.memory.size then .ok (m.write l w) else .error .index

def indexValue (s : Registers) (i : Nat) : Guarded Int :=
  if i = 0 then .ok 0 else do value (← register s i)

def atLocation (m : Machine σ) (here : Nat) (a : Address) (next : Nat → Guarded (Outcome σ)) :
    Guarded (Outcome σ) := do
  match ← location a m.memory.size with
  | some l => next l
  | none => return m.fail (.memoryLocation here (← addressValue a))

def setRegister (m : Machine σ) (here r : Nat) (w : Word) : Guarded (Machine σ) :=
  if Register.isIndex r && 4095 < w.magnitude then do
    let anomaly := Fault.indexAnomaly here ⟨r % 8, Nat.mod_lt r (by decide)⟩ (← value w)
    setGeneral (m.record anomaly) r (Word.wrap w.negative (w.magnitude &&& 4095))
  else setGeneral m r w

variable (m : Machine σ) {here : Nat} {a : Address} {l : Nat}

theorem register_eq (s : Registers) (r : Register) : register s r.val = .ok (s.get r) := by
  unfold register
  rw [item_eq (by rw [Vector.size_toArray]; exact r.isLt)]
  rfl

theorem setGeneral_eq (r : Register) (w : Word) :
    setGeneral m r.val w = .ok (m.setRegisters (m.registers.set r w)) := dif_pos r.isLt

theorem setPair_eq (words : Word × Word) : setPair m words = .ok (m.setPair words) := by
  unfold setPair
  rw [show 0 = Register.a.val from rfl, setGeneral_eq, ok_bind,
    show 7 = Register.x.val from rfl, setGeneral_eq]
  rfl

variable {m} in
theorem content_eq (h : l < m.memory.size) : content m l = .ok (m.content l) := by
  unfold content
  rw [item_eq h, Machine.content, Array.getD_eq_getD_getElem?, Array.getElem?_eq_getElem h,
    Option.getD_some]

variable {m} in
theorem write_eq (h : l < m.memory.size) (w : Word) : write m l w = .ok (m.write l w) := if_pos h

theorem indexValue_eq (s : Registers) (i : Fin 7) : indexValue s i.val = .ok (s.indexValue i) := by
  unfold indexValue Registers.indexValue
  split
  · rfl
  · have hregister := register_eq s (i.castLE (by decide))
    rw [Fin.val_castLE] at hregister
    rw [hregister, ok_bind, value_eq]

/-- A location that exists is one of memory, and has no more bits than an address. -/
theorem atLocation_eq (ha : a.magnitude < 0x100000000) {next : Nat → Guarded (Outcome σ)}
    {next' : Nat → Outcome σ}
    (hnext : ∀ l < m.memory.size, l < 0x100000000 → next l = .ok (next' l)) :
    atLocation m here a next = .ok (m.atLocation here a next') := by
  have hvalue := a.natAbs_value
  unfold atLocation Machine.atLocation
  rw [location_eq ha, ok_bind]
  change (match m.location? a with | some l => _ | none => _) = _
  cases hlocation : m.location? a with
  | some l =>
    obtain ⟨hl, heq⟩ := Machine.location?_eq_some hlocation
    exact hnext l hl (by omega)
  | none => simp only [addressValue_eq ha, ok_bind, pure_eq]

theorem setRegister_eq (here : Nat) (r : Register) (w : Word) :
    setRegister m here r.val w = .ok (m.setRegister here r w) := by
  have hlarge : (Register.isIndex r.val && decide (4095 < w.magnitude)) =
      (Register.isIndex r.val && decide (weight 2 ≤ w.magnitude)) := by
    rw [weight_two]
    rfl
  have hlow := and_two_bytes w.magnitude
  have hr : (⟨r.val % 8, Nat.mod_lt r.val (by decide)⟩ : Register) = r :=
    Fin.ext (Nat.mod_eq_of_lt r.isLt)
  unfold setRegister Machine.setRegister
  rw [hlarge, hlow]
  split
  · rw [value_eq, ok_bind, setGeneral_eq, hr]
    rfl
  · exact setGeneral_eq m r w

end Access

section Words

def load (m : Machine σ) (here r : Nat) (a : Address) (f : Field) (negate : Bool) :
    Guarded (Outcome σ) :=
  atLocation m here a fun l => do
    let w ← extract f (← content m l)
    return (← setRegister m here r (if negate then w.negated else w)).proceed

def store (m : Machine σ) (here : Nat) (a : Address) (f : Field) (w : Word) :
    Guarded (Outcome σ) :=
  atLocation m here a fun l => do
    return (← write m l (← insert f (← content m l) w)).proceed

/-- The field of the register is taken before memory is looked for. -/
def compareWith (m : Machine σ) (here r : Nat) (a : Address) (f : Field) :
    Guarded (Outcome σ) := do
  let left ← extract f (← register m.registers r)
  atLocation m here a fun l => do
    let right ← extract f (← content m l)
    let comparison := compare (← value left) (← value right)
    return (m.setRegisters { m.registers with comparison }).proceed

variable (m : Machine σ) (here : Nat) {a : Address} (f : Field) (r : Register)

theorem load_eq (ha : a.magnitude < 0x100000000) :
    load m here r.val a f false =
      .ok (m.atLocation here a fun l =>
        (m.setRegister here r (f.extract (m.content l))).proceed) := by
  refine atLocation_eq m ha fun l hl _ => ?_
  simp only [content_eq hl, extract_eq, setRegister_eq, ok_bind, pure_eq, if_false,
    Bool.false_eq_true]

theorem load_negated_eq (ha : a.magnitude < 0x100000000) :
    load m here r.val a f true =
      .ok (m.atLocation here a fun l =>
        (m.setRegister here r (f.extract (m.content l)).negated).proceed) := by
  refine atLocation_eq m ha fun l hl _ => ?_
  simp only [content_eq hl, extract_eq, setRegister_eq, ok_bind, pure_eq, if_true]

theorem store_eq (ha : a.magnitude < 0x100000000) (w : Word) :
    store m here a f w =
      .ok (m.atLocation here a fun l => (m.write l (f.insert (m.content l) w)).proceed) := by
  refine atLocation_eq m ha fun l hl _ => ?_
  simp only [content_eq hl, insert_eq, write_eq hl, ok_bind, pure_eq]

theorem compareWith_eq (ha : a.magnitude < 0x100000000) :
    compareWith m here r.val a f =
      .ok (m.atLocation here a fun l => (m.compareWith r f (m.content l)).proceed) := by
  unfold compareWith
  rw [register_eq, ok_bind, extract_eq, ok_bind]
  refine atLocation_eq m ha fun l hl _ => ?_
  simp only [content_eq hl, extract_eq, value_eq, ok_bind, pure_eq]
  rfl

end Words

section Arithmetic

/-- A sum that is too large is noted before its low bytes are kept. -/
def addTo (m : Machine σ) (r : Nat) (n : Int) : Guarded (Machine σ) := do
  let w ← register m.registers r
  let sum ← integer ((← value w) + n)
  if sum = 0 then setGeneral m r (Word.wrap w.negative 0)
  else
    let noted := if 0x3fffffff < sum.natAbs then
        m.setRegisters { m.registers with overflow := true }
      else m
    setGeneral noted r (Word.wrap (sum < 0) (cast .w32 (sum.natAbs &&& 0x3fffffff)))

def addField (m : Machine σ) (here : Nat) (a : Address) (f : Field) (negate : Bool) :
    Guarded (Outcome σ) :=
  atLocation m here a fun l => do
    let w ← extract f (← content m l)
    return (← addTo m 0 (← value (if negate then w.negated else w))).proceed

def multiplyField (m : Machine σ) (here : Nat) (a : Address) (f : Field) :
    Guarded (Outcome σ) :=
  atLocation m here a fun l => do
    let w ← extract f (← content m l)
    return (← setPair m (← multiply (← register m.registers 0) w)).proceed

def divideField (m : Machine σ) (here : Nat) (a : Address) (f : Field) : Guarded (Outcome σ) :=
  atLocation m here a fun l => do
    let w ← extract f (← content m l)
    match ← divide? (← register m.registers 0) (← register m.registers 7) w with
    | some words => return (← setPair m words).proceed
    | none => return (m.setRegisters { m.registers with overflow := true }).proceed

def transferAddress (m : Machine σ) (here r : Nat) (a : Address) (variant : Nat) :
    Guarded (Machine σ) :=
  if variant ≤ 1 then do
    let amount ← if variant = 0 then addressValue a else do integer (-(← addressValue a))
    if Register.isIndex r then
      let w ← register m.registers r
      let sum ← integer ((← value w) + amount)
      setRegister m here r
        (if sum = 0 then Word.wrap w.negative 0 else Word.wrap (sum < 0) (cast .w32 sum.natAbs))
    else addTo m r amount
  else if variant = 2 then setRegister m here r a.toWord
  else setRegister m here r a.toWord.negated

def shiftRegisters (m : Machine σ) (here : Nat) (a : Address) (variant : Nat) :
    Guarded (Outcome σ) := do
  if (← addressValue a) < 0 then return m.fail (.negativeShift here a)
  else
    let count := (← addressValue a).toNat
    let words ← shift variant (← register m.registers 0) (← register m.registers 7) count
    return (← setPair m words).proceed

def special (m : Machine σ) (variant : Nat) : Guarded (Outcome σ) :=
  match variant with
  | 0 => do
    let a ← fromDigits (← register m.registers 0) (← register m.registers 7)
    return (← setGeneral m 0 a).proceed
  | 1 => do
    let words ← toDigits (← register m.registers 0) (← register m.registers 7)
    return (← setPair m words).proceed
  | _ => .ok (m, .ok .halt)

def moveWords (m : Machine σ) (here : Nat) (a : Address) (k : Nat) :
    (count : Nat) → Guarded (Outcome σ)
  | 0 => .ok m.proceed
  | count + 1 => do
    atLocation m here (← indexed a k) fun source => do
      let target := Address.ofWord (← register m.registers 1)
      atLocation m here target fun l => do
        let written ← write m l (← content m source)
        moveWords (← transferAddress written here 1 (Address.ofInt 1) 0) here a (k + 1) count

variable (m : Machine σ) {here : Nat} {a : Address} (f : Field) (r : Register)

/-- A value that is added comes from a word or from an address. -/
theorem addTo_eq {n : Int} (hn : n.natAbs ≤ 0x100000000) :
    addTo m r.val n = .ok (m.addTo r n) := by
  have hw := Word.natAbs_value_lt (m.registers.get r)
  unfold addTo Machine.addTo Arithmetic.add Arithmetic.overflows Word.Fits Word.ofInt
  rw [register_eq, ok_bind, value_eq, ok_bind, integer_eq (by omega), ok_bind]
  simp only [weight_five]
  generalize (m.registers.get r).value + n = sum
  by_cases hzero : sum = 0
  · rw [if_pos hzero, if_pos hzero, setGeneral_eq, hzero]
    simp only [Int.natAbs_zero, Nat.zero_lt_succ, decide_true, Bool.not_true, Bool.or_false]
    rfl
  · rw [if_neg hzero, if_neg hzero]
    simp only [wrap_cast, wrap_and, setGeneral_eq]
    by_cases hlarge : 0x3fffffff < sum.natAbs
    · have hlost : ¬ sum.natAbs < 1073741824 := by omega
      rw [if_pos hlarge, decide_eq_false hlost, Bool.not_false, Bool.or_true]
      rfl
    · have hfits : sum.natAbs < 1073741824 := by omega
      rw [if_neg hlarge, decide_eq_true hfits, Bool.not_true, Bool.or_false]
      rfl

theorem natAbs_extract_le (w : Word) : (f.extract w).value.natAbs ≤ 0x100000000 := by
  have hlt := Word.natAbs_value_lt (f.extract w)
  omega

theorem addField_eq (ha : a.magnitude < 0x100000000) :
    addField m here a f false =
      .ok (m.atLocation here a fun l =>
        (m.addTo .a (f.extract (m.content l)).value).proceed) := by
  refine atLocation_eq m ha fun l hl _ => ?_
  have hadd := addTo_eq m .a (natAbs_extract_le f (m.content l))
  simp only [content_eq hl, extract_eq, value_eq, ok_bind, pure_eq, if_false, Bool.false_eq_true]
  exact congrArg (· >>= _) hadd

theorem addField_negated_eq (ha : a.magnitude < 0x100000000) :
    addField m here a f true =
      .ok (m.atLocation here a fun l =>
        (m.addTo .a (f.extract (m.content l)).negated.value).proceed) := by
  refine atLocation_eq m ha fun l hl _ => ?_
  have hlt := Word.natAbs_value_lt (f.extract (m.content l)).negated
  have hadd := addTo_eq m .a (n := (f.extract (m.content l)).negated.value) (by omega)
  simp only [content_eq hl, extract_eq, value_eq, ok_bind, pure_eq, if_true]
  exact congrArg (· >>= _) hadd

theorem register_a (s : Registers) : register s 0 = .ok s.a := register_eq s .a

theorem register_x (s : Registers) : register s 7 = .ok s.x := register_eq s .x

theorem multiplyField_eq (ha : a.magnitude < 0x100000000) :
    multiplyField m here a f =
      .ok (m.atLocation here a fun l =>
        (m.setPair (Arithmetic.multiply m.registers.a (f.extract (m.content l)))).proceed) := by
  refine atLocation_eq m ha fun l hl _ => ?_
  simp only [content_eq hl, extract_eq, register_a, multiply_eq, setPair_eq, ok_bind, pure_eq]

theorem divideField_eq (ha : a.magnitude < 0x100000000) :
    divideField m here a f =
      .ok (m.atLocation here a fun l => (m.divide (f.extract (m.content l))).proceed) := by
  refine atLocation_eq m ha fun l hl _ => ?_
  simp only [content_eq hl, extract_eq, register_a, register_x, divide?_eq, ok_bind,
    Machine.divide]
  cases Arithmetic.divide? m.registers.a m.registers.x (f.extract (m.content l)) with
  | some words => simp only [setPair_eq, ok_bind, pure_eq]
  | none => rfl

/-- Adding to any register. -/
theorem increase_eq {amount : Int} (hamount : amount.natAbs ≤ 0x100000000) :
    (if Register.isIndex r.val then do
        let w ← register m.registers r.val
        let sum ← integer ((← value w) + amount)
        setRegister m here r.val
          (if sum = 0 then Word.wrap w.negative 0 else Word.wrap (sum < 0) (cast .w32 sum.natAbs))
      else addTo m r.val amount) = .ok (m.increase here r amount) := by
  have hw := Word.natAbs_value_lt (m.registers.get r)
  unfold Machine.increase Arithmetic.add Word.ofInt
  split
  · simp only [register_eq, value_eq, ok_bind, integer_eq (v := (m.registers.get r).value + amount)
      (by omega), wrap_cast, setRegister_eq]
  · exact addTo_eq m r hamount

theorem transferAddress_eq (ha : a.magnitude < 0x100000000) (variant : Nat) :
    transferAddress m here r.val a variant = .ok (m.transferAddress here r a variant) := by
  have hvalue := a.natAbs_value
  have hnegated : integer (-a.value) = .ok (-a.value) := integer_eq (by omega)
  unfold transferAddress Machine.transferAddress
  split
  · obtain rfl | rfl : variant = 0 ∨ variant = 1 := by omega
    · simp only [if_true, addressValue_eq ha, ok_bind]
      exact increase_eq m r (by omega)
    · simp only [Nat.one_ne_zero, if_false, addressValue_eq ha, hnegated, ok_bind]
      exact increase_eq m r (by omega)
  · rename_i hlarge
    split
    · rename_i henter
      subst henter
      exact setRegister_eq m here r a.toWord
    · rename_i henter
      obtain ⟨rest, rfl⟩ : ∃ rest, variant = rest + 3 := ⟨variant - 3, by omega⟩
      exact setRegister_eq m here r a.toWord.negated

theorem shiftRegisters_eq (ha : a.magnitude < 0x100000000) (variant : Nat) :
    shiftRegisters m here a variant = .ok (m.shift here a variant) := by
  unfold shiftRegisters Machine.shift
  rw [addressValue_eq ha, ok_bind]
  split
  · rfl
  · simp only [ok_bind, register_a, register_x, shift_eq, setPair_eq, pure_eq]

theorem special_eq (variant : Nat) :
    special m variant =
      .ok (match variant with
        | 0 =>
          (m.setRegisters
            (m.registers.setA (Arithmetic.number m.registers.a m.registers.x))).proceed
        | 1 => (m.setPair (Arithmetic.characters m.registers.a m.registers.x)).proceed
        | _ => (m, .ok .halt)) := by
  have ha (w : Word) : setGeneral m 0 w = .ok (m.setRegisters (m.registers.setA w)) :=
    setGeneral_eq m .a w
  unfold special
  split
  · simp only [register_a, register_x, fromDigits_eq, ha, ok_bind, pure_eq]
  · simp only [register_a, register_x, toDigits_eq, setPair_eq, ok_bind, pure_eq]
  · rfl

theorem moveWords_eq (ha : a.magnitude < 0x100000000) (k count : Nat) (hk : k + count ≤ 64) :
    moveWords m here a k count = .ok (m.moveWords here a k count) := by
  induction count generalizing m k with
  | zero => rfl
  | succ count ih =>
    have hindexed : indexed a k = .ok (a.add k) := indexed_eq ha (by omega)
    have hone (m : Machine σ) :
        transferAddress m here 1 (Address.ofInt 1) 0 = .ok (m.increase here 1 1) :=
      transferAddress_eq m 1 (by decide) 0
    rw [moveWords, hindexed, ok_bind]
    refine atLocation_eq m (magnitude_add_lt a k) fun source hsource _ => ?_
    have htarget : (Address.ofWord (m.registers.get 1)).magnitude < 0x100000000 :=
      Nat.lt_trans (m.registers.get 1).magnitude_lt_numeral (by decide)
    have hregister : register m.registers 1 = .ok (m.registers.get 1) :=
      register_eq m.registers 1
    rw [hregister, ok_bind]
    refine atLocation_eq m htarget fun l hl _ => ?_
    rw [content_eq hsource, ok_bind, write_eq hl, ok_bind, hone, ok_bind]
    exact ih _ (k + 1) (by omega)

end Arithmetic

section Jumps

def jumpIf (m : Machine σ) (here : Nat) (condition : Bool) (a : Address) : Guarded (Outcome σ) :=
  let linked := { m.registers with j := cast .w32 m.pc &&& 4095 }
  if condition then
    atLocation m here a fun target => return { m with registers := linked, pc := target }.proceed
  else return (m.setRegisters linked).proceed

def jump (m : Machine σ) (here : Nat) (a : Address) (variant : Nat) : Guarded (Outcome σ) :=
  let cleared := m.setRegisters { m.registers with overflow := false }
  match variant with
  | 0 => jumpIf m here true a
  | 1 => atLocation m here a fun target => return { m with pc := target }.proceed
  | 2 => jumpIf cleared here m.registers.overflow a
  | 3 => jumpIf cleared here (!m.registers.overflow) a
  | 4 => jumpIf m here (m.registers.comparison == .lt) a
  | 5 => jumpIf m here (m.registers.comparison == .eq) a
  | 6 => jumpIf m here (m.registers.comparison == .gt) a
  | 7 => jumpIf m here (m.registers.comparison != .lt) a
  | 8 => jumpIf m here (m.registers.comparison != .eq) a
  | _ => jumpIf m here (m.registers.comparison != .gt) a

def registerJump (m : Machine σ) (here r : Nat) (a : Address) (variant : Nat) :
    Guarded (Outcome σ) := do
  jumpIf m here (Machine.registerCondition (← value (← register m.registers r)) variant) a

variable (m : Machine σ) {here : Nat} {a : Address}

theorem jumpIf_eq (ha : a.magnitude < 0x100000000) (condition : Bool) :
    jumpIf m here condition a = .ok (m.jumpIf here condition a) := by
  have hj : cast .w32 m.pc &&& 4095 = m.pc % weight 2 := by
    rw [and_two_bytes, cast, Width.limit, weight_two]
    omega
  unfold jumpIf Machine.jumpIf
  simp only [hj]
  split
  · exact atLocation_eq m ha fun l _ _ => rfl
  · rfl

theorem jump_eq (ha : a.magnitude < 0x100000000) (variant : Nat) :
    jump m here a variant = .ok (m.jump here a variant) := by
  match variant with
  | 1 => exact atLocation_eq m ha fun l _ _ => rfl
  | 0 | 2 | 3 | 4 | 5 | 6 | 7 | 8 | n + 9 =>
    unfold jump Machine.jump
    exact jumpIf_eq _ ha _

theorem registerJump_eq (ha : a.magnitude < 0x100000000) (r : Register) (variant : Nat) :
    registerJump m here r.val a variant =
      .ok (m.jumpIf here (Machine.registerCondition (m.registers.get r).value variant) a) := by
  unfold registerJump
  rw [register_eq, ok_bind, value_eq, ok_bind]
  exact jumpIf_eq m ha _

end Jumps

section Units

/-- A block of words, whose end is computed anew for each use. It is a part of memory if its end
is not outside. -/
def blockAt (m : Machine σ) (here start size : Nat) (next : Nat → Nat → Guarded (Outcome σ)) :
    Guarded (Outcome σ) := do
  if (← add .w64 start size) ≤ m.memory.size then
    let stop ← add .w64 start size
    if start ≤ stop ∧ stop ≤ m.memory.size then next start size else .error .index
  else
    let last ← integer (Machine.shownLocation (← add .w64 start size) - 1)
    return m.fail (.memoryLocation here last)

def atBlock (m : Machine σ) (here : Nat) (a : Address) (unit : Nat)
    (next : Nat → Nat → Guarded (Outcome σ)) : Guarded (Outcome σ) :=
  atLocation m here a fun start => blockAt m here start ((blockSize? unit).getD 0) next

theorem blockSize_le (unit : Nat) : (blockSize? unit).getD 0 ≤ 100 := by
  unfold blockSize?
  repeat' split
  all_goals decide

variable (m : Machine σ) {here : Nat} {a : Address}

theorem blockAt_eq {start size : Nat} (hstart : start < 0x100000000) (hsize : size ≤ 100)
    {next : Nat → Nat → Guarded (Outcome σ)} {next' : Nat → Nat → Outcome σ}
    (hnext : ∀ start size, next start size = .ok (next' start size)) :
    blockAt m here start size next =
      .ok (if start + size ≤ m.memory.size then next' start size
        else m.fail (.memoryLocation here ((start + size : Nat) - 1))) := by
  have hstop : add .w64 start size = .ok (start + size) :=
    add_eq (by simp only [Width.limit]; omega)
  have hshown : Machine.shownLocation (start + size) = (start + size : Nat) :=
    Int.bmod_eq_of_le (by omega) (by omega)
  unfold blockAt
  rw [hstop, ok_bind]
  split
  · rename_i hfits
    rw [ok_bind, if_pos ⟨Nat.le_add_right start size, hfits⟩]
    exact hnext start size
  · rw [ok_bind, hshown, integer_eq (by omega), ok_bind, pure_eq]

theorem atBlock_eq (ha : a.magnitude < 0x100000000) (unit : Nat)
    {next : Nat → Nat → Guarded (Outcome σ)} {next' : Nat → Nat → Outcome σ}
    (hnext : ∀ start size, next start size = .ok (next' start size)) :
    atBlock m here a unit next = .ok (m.atBlock here a unit next') :=
  atLocation_eq m ha fun _ _ hstart => blockAt_eq m hstart (blockSize_le unit) hnext

variable [Peripherals σ]

def jumpOnUnit (m : Machine σ) (here : Nat) (a : Address) (unit : Nat) (busy : Bool) :
    Guarded (Outcome σ) :=
  let (answer, devices) := Peripherals.busy m.devices unit
  jumpIf { m with devices } here (answer == busy) a

def controlUnit (m : Machine σ) (here : Nat) (a : Address) (unit : Nat) : Guarded (Outcome σ) := do
  let x ← register m.registers 7
  let (result, devices) := Peripherals.control m.devices unit (← addressValue a) x
  return { m with devices }.finishRequest here unit result

def readUnit (m : Machine σ) (here : Nat) (a : Address) (unit : Nat) : Guarded (Outcome σ) :=
  atBlock m here a unit fun start size => do
    let x ← register m.registers 7
    let (result, block, devices) :=
      Peripherals.input m.devices unit (m.memory.block start size) x
    return { m with
      memory := m.memory.writeList start block.toList
      devices }.finishRequest here unit result

def writeUnit (m : Machine σ) (here : Nat) (a : Address) (unit : Nat) : Guarded (Outcome σ) :=
  atBlock m here a unit fun start size => do
    let x ← register m.registers 7
    let (result, devices) := Peripherals.output m.devices unit (m.memory.block start size) x
    return { m with devices }.finishRequest here unit result

theorem jumpOnUnit_eq (ha : a.magnitude < 0x100000000) (unit : Nat) (busy : Bool) :
    jumpOnUnit m here a unit busy = .ok (m.jumpOnUnit here a unit busy) :=
  jumpIf_eq _ ha _

theorem controlUnit_eq (ha : a.magnitude < 0x100000000) (unit : Nat) :
    controlUnit m here a unit = .ok (m.controlUnit here a unit) := by
  unfold controlUnit
  rw [register_x, ok_bind, addressValue_eq ha]
  rfl

theorem readUnit_eq (ha : a.magnitude < 0x100000000) (unit : Nat) :
    readUnit m here a unit = .ok (m.readUnit here a unit) := by
  refine atBlock_eq m ha unit fun start size => ?_
  rw [register_x]
  rfl

theorem writeUnit_eq (ha : a.magnitude < 0x100000000) (unit : Nat) :
    writeUnit m here a unit = .ok (m.writeUnit here a unit) := by
  refine atBlock_eq m ha unit fun start size => ?_
  rw [register_x]
  rfl

end Units

end MixComputer.Guarded
