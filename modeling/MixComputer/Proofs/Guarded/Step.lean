import MixComputer.Proofs.Guarded.Machine
import MixComputer.Proofs.Machine.Control
import MixComputer.Proofs.Machine.Fault

/-!
Steps in numbers of fixed width. As long as its two counters have room for one more instruction, a
machine with any memory, registers and devices goes through a step without a trap, and the step is
the one that it makes with numbers of any size. It finds no instruction to be illegal but for its
index.
-/
namespace MixComputer.Guarded

variable {σ : Type}

section Judgement

/-- The field that the `F` part stands for, if the operation admits it. What the message says of a
faulty `F` part is computed too. -/
def judge (op : Operation) (f : Nat) : Guarded (Option Field) :=
  match op.usage with
  | .bytes => do
    match ← fieldOf f with
    | some spec => return some spec
    | none => do
      let _ ← div f 8
      let _ ← mod f 8
      return none
  | .variant count =>
    if count ≤ f then do
      let _ ← sub count 1
      return none
    else return some Field.whole
  | .unit => if lastUnit < f then return none else return some Field.whole
  | .count | .ignored => return some Field.whole

variable {i : Instruction}

theorem variants_pos {op : Operation} {count : Nat} (h : op.usage = .variant count) :
    1 ≤ count := by
  cases op with
  | special | shift | jump | registerJump r | addressTransfer r =>
    cases h
    decide
  | _ => cases h

theorem judge_of_not_admits (h : i.operation.admits i.field = false) :
    judge i.operation i.field.val = .ok none := by
  unfold Operation.admits at h
  unfold judge
  cases husage : i.operation.usage with
  | bytes =>
    rw [husage] at h
    have hnone : Field.ofCode? i.field.val = none := by simpa using h
    simp only [fieldOf_eq, hnone, ok_bind]
    rfl
  | variant count =>
    rw [husage] at h
    have hle : count ≤ i.field.val := by simpa using h
    simp only [if_pos hle, sub_eq (variants_pos husage), ok_bind, pure_eq]
  | unit =>
    rw [husage] at h
    have hlt : lastUnit < i.field.val := by simpa using h
    simp only [if_pos hlt, pure_eq]
  | count | ignored =>
    rw [husage] at h
    cases h

theorem judge_of_admits (h : i.operation.admits i.field = true) :
    ∃ spec, judge i.operation i.field.val = .ok (some spec) ∧
      (i.operation.usage = .bytes → spec = i.spec) := by
  unfold Operation.admits at h
  unfold judge
  cases husage : i.operation.usage with
  | bytes =>
    rw [husage] at h
    obtain ⟨spec, hspec⟩ := Option.isSome_iff_exists.mp h
    refine ⟨spec, by simp only [fieldOf_eq, hspec, ok_bind, pure_eq], fun _ => ?_⟩
    rw [Instruction.spec, Instruction.spec?, hspec, Option.getD_some]
  | variant count =>
    rw [husage] at h
    have hlt : ¬ count ≤ i.field.val := by simpa using h
    exact ⟨Field.whole, by simp only [if_neg hlt, pure_eq], fun hbytes => by cases hbytes⟩
  | unit =>
    rw [husage] at h
    have hle : ¬ lastUnit < i.field.val := by simpa using h
    exact ⟨Field.whole, by simp only [if_neg hle, pure_eq], fun hbytes => by cases hbytes⟩
  | count | ignored => exact ⟨Field.whole, rfl, fun hbytes => by cases hbytes⟩

end Judgement

section Execution

def performFamily (m : Machine σ) (here : Nat) (a : Address) (f : Nat) (spec : Field)
    (code : Nat) : Guarded (Outcome σ) := do
  let r ← mod code 8
  if 8 ≤ code ∧ code ≤ 15 then load m here r a spec false
  else if 16 ≤ code ∧ code ≤ 23 then load m here r a spec true
  else if 24 ≤ code ∧ code ≤ 31 then store m here a spec (← register m.registers r)
  else if 40 ≤ code ∧ code ≤ 47 then registerJump m here r a f
  else if 48 ≤ code ∧ code ≤ 55 then return (← transferAddress m here r a f).proceed
  else if 56 ≤ code ∧ code ≤ 63 then compareWith m here r a spec
  else .error .unreachable

/-- A code of a family tells the family and the register. -/
theorem performFamily_eq (m : Machine σ) (here : Nat) {a : Address} {f : Nat} {spec : Field}
    (base : Nat) (hbase : base % 8 = 0) (r : Register) :
    performFamily m here a f spec (base + r.val) =
      if base = 8 then load m here r.val a spec false
      else if base = 16 then load m here r.val a spec true
      else if base = 24 then do store m here a spec (← register m.registers r.val)
      else if base = 40 then registerJump m here r.val a f
      else if base = 48 then do return (← transferAddress m here r.val a f).proceed
      else if base = 56 then compareWith m here r.val a spec
      else .error .unreachable := by
  have hr := r.isLt
  have hmember : (base + r.val) % 8 = r.val := by omega
  have hfamily (k : Nat) (hk : k % 8 = 0) :
      (k ≤ base + r.val ∧ base + r.val ≤ k + 7) = (base = k) := propext (by omega)
  unfold performFamily
  rw [mod_eq (by decide), hmember, ok_bind]
  simp only [hfamily 8 rfl, hfamily 16 rfl, hfamily 24 rfl, hfamily 40 rfl, hfamily 48 rfl,
    hfamily 56 rfl]

variable [Peripherals σ]

def perform (m : Machine σ) (here : Nat) (a : Address) (f : Nat) (spec : Field)
    (op : Operation) : Guarded (Outcome σ) :=
  match op with
  | .nop => .ok m.proceed
  | .add => addField m here a spec false
  | .sub => addField m here a spec true
  | .mul => multiplyField m here a spec
  | .div => divideField m here a spec
  | .special => special m f
  | .shift => shiftRegisters m here a f
  | .move => moveWords m here a 0 f
  | .storeJ => store m here a spec (Word.wrap false (m.registers.j &&& 4095))
  | .storeZero => store m here a spec Word.zero
  | .jumpBusy => jumpOnUnit m here a f true
  | .jumpReady => jumpOnUnit m here a f false
  | .control => controlUnit m here a f
  | .input => readUnit m here a f
  | .output => writeUnit m here a f
  | .jump => jump m here a f
  | op => performFamily m here a f spec op.code

def execute (m : Machine σ) (here : Nat) (i : Instruction) : Guarded (Outcome σ) := do
  let a ← indexed i.address (← indexValue m.registers i.index.val)
  match ← judge i.operation i.field.val with
  | some spec => perform m here a i.field.val spec i.operation
  | none => return m.fail (.field here i.field i.operation)

variable (m : Machine σ) (here : Nat) {a : Address} {i : Instruction}

/-- Each operation comes to its outcome, and each member of a family to that of its family. -/
theorem perform_eq {spec : Field} (ha : (m.effectiveAddress i).magnitude < 0x100000000)
    (hspec : i.operation.usage = .bytes → spec = i.spec) :
    perform m here (m.effectiveAddress i) i.field.val spec i.operation =
      .ok (m.perform here i) := by
  obtain ⟨operation, index, field, address⟩ := i
  cases operation with
  | nop => rfl
  | add =>
    obtain rfl := hspec rfl
    exact addField_eq m _ ha
  | sub =>
    obtain rfl := hspec rfl
    exact addField_negated_eq m _ ha
  | mul =>
    obtain rfl := hspec rfl
    exact multiplyField_eq m _ ha
  | div =>
    obtain rfl := hspec rfl
    exact divideField_eq m _ ha
  | special => exact special_eq m _
  | shift => exact shiftRegisters_eq m ha _
  | move => exact moveWords_eq m ha 0 _ (by have := field.isLt; omega)
  | storeJ =>
    obtain rfl := hspec rfl
    unfold perform
    simp only [and_two_bytes]
    exact store_eq m here _ ha _
  | storeZero =>
    obtain rfl := hspec rfl
    exact store_eq m here _ ha _
  | jumpBusy => exact jumpOnUnit_eq m ha _ true
  | jumpReady => exact jumpOnUnit_eq m ha _ false
  | control => exact controlUnit_eq m ha _
  | input => exact readUnit_eq m ha _
  | output => exact writeUnit_eq m ha _
  | jump => exact jump_eq m ha _
  | load r =>
    obtain rfl := hspec rfl
    exact (performFamily_eq m here 8 rfl r).trans (load_eq m here _ r ha)
  | loadNegative r =>
    obtain rfl := hspec rfl
    exact (performFamily_eq m here 16 rfl r).trans (load_negated_eq m here _ r ha)
  | store r =>
    obtain rfl := hspec rfl
    refine (performFamily_eq m here 24 rfl r).trans ?_
    rw [if_neg (by decide), if_neg (by decide), if_pos rfl, register_eq, ok_bind]
    exact store_eq m here _ ha _
  | registerJump r =>
    exact (performFamily_eq m here 40 rfl r).trans (registerJump_eq m ha r _)
  | addressTransfer r =>
    refine (performFamily_eq m here 48 rfl r).trans ?_
    rw [if_neg (by decide), if_neg (by decide), if_neg (by decide), if_neg (by decide), if_pos rfl,
      transferAddress_eq m r ha]
    rfl
  | compare r =>
    obtain rfl := hspec rfl
    exact (performFamily_eq m here 56 rfl r).trans (compareWith_eq m here _ r ha)

/-- The address of a decoded instruction has two bytes, and an index has five at most. -/
theorem execute_eq (hi : i.address.magnitude < 0x100000000) :
    execute m here i = .ok (m.execute here i) := by
  have hindex := m.registers.natAbs_indexValue_lt i.index
  have hindexed : indexed i.address (m.registers.indexValue i.index) =
      .ok (m.effectiveAddress i) := indexed_eq hi (by omega)
  unfold execute Machine.execute
  rw [indexValue_eq, ok_bind, hindexed, ok_bind]
  by_cases hadmits : i.operation.admits i.field = true
  · obtain ⟨spec, hjudge, hspec⟩ := judge_of_admits hadmits
    rw [hjudge, ok_bind, if_pos hadmits]
    exact perform_eq m here (magnitude_add_lt _ _) hspec
  · rw [judge_of_not_admits (Bool.eq_false_iff.mpr hadmits), ok_bind, if_neg hadmits]
    rfl

end Execution

section Step

def time (i : Instruction) : Guarded Nat :=
  match i.operation with
  | .move => do add .w64 1 (← mul .w64 2 i.field.val)
  | op => .ok (op.time i.field)

def spend (m : Machine σ) (i : Instruction) : Guarded (Machine σ) := do
  return { m with clock := ← add .w64 m.clock (← time i) }

/-- Time is spent after the instruction, also after one that is skipped. -/
def complete (i : Instruction) : Outcome σ → Guarded (Outcome σ)
  | (m, .ok flow) => do
    let m ← spend m i
    return ({ m with halted := m.halted || flow == .halt }, .ok flow)
  | (m, .error fault) =>
    if fault.isFieldFault && m.config.fieldErrors == .skip then do
      return (← spend (m.record fault) i).proceed
    else return m.fail fault

def step [Peripherals σ] (m : Machine σ) : Guarded (Outcome σ) :=
  match m.word? m.pc with
  | none => return m.fail (.memoryLocation m.pc (Machine.shownLocation m.pc))
  | some w => do
    match ← decode w with
    | .error cause => return m.fail (.illegalInstruction m.pc cause)
    | .ok i => do
      let pc ← add .w64 m.pc 1
      let steps ← add .w64 m.steps 1
      complete i (← execute { m with pc, steps } m.pc i)

/-- The counters have room for one more instruction, and locations of memory have 64 bits. -/
structure HasRoom (m : Machine σ) : Prop where
  memory : m.memory.size < 0x10000000000000000
  steps : m.steps + 1 < 0x10000000000000000
  clock : ∀ i, m.fetch = .ok i → m.clock + i.operation.time i.field < 0x10000000000000000

variable {i : Instruction}

theorem time_eq (i : Instruction) : time i = .ok (i.operation.time i.field) := by
  have hf := i.field.isLt
  unfold time
  split
  · rename_i hmove
    rw [mul_eq (by simp only [Width.limit]; omega), ok_bind,
      add_eq (by simp only [Width.limit]; omega), hmove, Operation.time]
  · rfl

theorem spend_eq {m : Machine σ}
    (h : m.clock + i.operation.time i.field < 0x10000000000000000) :
    spend m i = .ok (m.spend i) := by
  unfold spend
  rw [time_eq, ok_bind, add_eq h]
  rfl

theorem complete_eq {o : Outcome σ}
    (h : o.1.clock + i.operation.time i.field < 0x10000000000000000) :
    complete i o = .ok (Machine.complete i o) := by
  obtain ⟨m, result⟩ := o
  cases result with
  | ok flow =>
    simp only [complete, spend_eq h, ok_bind]
    rfl
  | error fault =>
    have hspend : spend (m.record fault) i = .ok ((m.record fault).spend i) := spend_eq h
    simp only [complete, Machine.complete, hspend, ok_bind, pure_eq]
    split <;> rfl

variable [Peripherals σ] {m : Machine σ}

theorem step_eq (h : HasRoom m) : step m = .ok m.step := by
  unfold step Machine.step
  cases hword : m.word? m.pc with
  | none =>
    simp only [Machine.fetch, hword]
    rfl
  | some w =>
    simp only [decode_eq, ok_bind]
    cases hdecode : Instruction.decode w with
    | error cause =>
      simp only [Machine.fetch, hword, hdecode]
      rfl
    | ok i =>
      have hfetch : m.fetch = .ok i := by simp only [Machine.fetch, hword, hdecode]
      have hpc : m.pc + 1 < 0x10000000000000000 :=
        Nat.lt_of_le_of_lt (Machine.fetch_eq_ok hfetch).1 h.memory
      have haddress := Instruction.address_lt_of_decode hdecode
      rw [weight_two] at haddress
      have hclock : (m.advance.execute m.pc i).1.clock = m.clock :=
        congrArg Control.clock (Machine.control_execute m.advance m.pc i)
      have hadvance : add .w64 m.pc 1 = .ok (m.pc + 1) := add_eq hpc
      have hcount : add .w64 m.steps 1 = .ok (m.steps + 1) := add_eq h.steps
      have hexecute : execute { m with pc := m.pc + 1, steps := m.steps + 1 } m.pc i =
          .ok (m.advance.execute m.pc i) := execute_eq m.advance m.pc (by omega)
      simp only [hadvance, hcount, hexecute, hfetch, ok_bind]
      exact complete_eq (hclock ▸ h.clock i hfetch)

end Step

section Legality

/-- A word is no instruction if its index byte is more than 6, and for no other reason. -/
theorem decode_eq_error_iff (w : Word) (cause : DecodeError) :
    Instruction.decode w = .error cause ↔ 6 < (w.byte 3).val ∧ cause = .index (w.byte 3) := by
  -- There is an operation for each code.
  obtain ⟨op, hop, -⟩ := Operation.exists_ofCode? (Parts.unpack w).code
  unfold Instruction.decode
  simp only [hop]
  by_cases hindex : (Parts.unpack w).index.val < 7
  · rw [dif_pos hindex]
    refine iff_of_false (fun h => by cases h) fun h => ?_
    exact absurd hindex (Nat.not_lt_of_le h.1)
  · rw [dif_neg hindex]
    constructor
    · intro h
      cases h
      exact ⟨Nat.lt_of_not_le fun hle => hindex (Nat.lt_succ_of_le hle), rfl⟩
    · rintro ⟨-, rfl⟩
      rfl

variable {m : Machine σ} {here : Nat} {cause : DecodeError}

theorem fetch_illegal_iff :
    m.fetch = .error (.illegalInstruction here cause) ↔
      here = m.pc ∧ ∃ w, m.word? m.pc = some w ∧ Instruction.decode w = .error cause := by
  unfold Machine.fetch
  cases m.word? m.pc with
  | none =>
    refine iff_of_false (fun h => by cases h) ?_
    rintro ⟨-, w, hword, -⟩
    cases hword
  | some w =>
    simp only
    cases hdecode : Instruction.decode w with
    | ok i =>
      refine iff_of_false (fun h => by cases h) ?_
      rintro ⟨-, v, hword, hfails⟩
      cases hword
      cases hdecode.symm.trans hfails
    | error found =>
      constructor
      · intro h
        cases h
        exact ⟨rfl, w, rfl, hdecode⟩
      · rintro ⟨rfl, v, hword, hfails⟩
        cases hword
        cases hdecode.symm.trans hfails
        rfl

variable [Peripherals σ]

/-- What is executed is legal. -/
theorem execute_legal (m : Machine σ) (place : Nat) (i : Instruction) :
    (m.execute place i).2 ≠ .error (.illegalInstruction here cause) := by
  intro h
  unfold Machine.execute at h
  split at h
  · cases (Machine.arises_perform m place i).fault _ h
  · cases h

theorem step_illegal_iff :
    m.step.2 = .error (.illegalInstruction here cause) ↔
      here = m.pc ∧ ∃ w, m.word? m.pc = some w ∧ 6 < (w.byte 3).val ∧
        cause = .index (w.byte 3) := by
  simp only [← decode_eq_error_iff]
  rw [← fetch_illegal_iff]
  cases hfetch : m.fetch with
  | error fault =>
    rw [Machine.step_of_fetch_error hfetch]
    simp only [Except.error.injEq]
  | ok i =>
    refine iff_of_false (fun h => ?_) fun h => by cases h
    rw [Machine.step_of_fetch_ok hfetch] at h
    have hends := Machine.complete_eq_error (Prod.ext rfl h)
    exact execute_legal _ _ _ (congrArg Prod.snd hends)

end Legality

section Guards

variable [Peripherals σ]

/-- A step of a machine with room goes through without a trap, and it calls an instruction illegal
if its index byte is more than 6, and for no other reason. -/
theorem step_guarded {m : Machine σ} (h : HasRoom m) :
    step m = .ok m.step ∧
      ∀ here cause, m.step.2 = .error (.illegalInstruction here cause) ↔
        here = m.pc ∧ ∃ w, m.word? m.pc = some w ∧ 6 < (w.byte 3).val ∧
          cause = .index (w.byte 3) :=
  ⟨step_eq h, fun _ _ => step_illegal_iff⟩

/-- `SLC 13` with rA and rX full of ones from the last byte of rA on, and a word with index 7. -/
def beforeRotation : Machine Unattached :=
  (Machine.ofImage ⟨2, .halt, none⟩ ⟨⟩
    [Word.wrap false 3408134, Word.wrap false 28672]).setRegisters
    ((Registers.initial.setA (Word.wrap true 63)).setX (Word.wrap false 1073741823))

/-- The rotation is by three bytes; the word after it is no instruction. -/
theorem step_guarded_rotation :
    HasRoom beforeRotation ∧ HasRoom (beforeRotation.setPc 1) ∧
      step beforeRotation = .ok beforeRotation.step ∧
      beforeRotation.step.1.registers.a = Word.wrap true 16777215 ∧
      beforeRotation.step.1.registers.x = Word.wrap false 1073479680 ∧
      (beforeRotation.setPc 1).step.2 = .error (.illegalInstruction 1 (.index (Byte.ofNat 7))) := by
  have hfetch : beforeRotation.fetch = .ok ⟨.shift, 0, Byte.ofNat 4, ⟨false, 13⟩⟩ := rfl
  have hfetch' : (beforeRotation.setPc 1).fetch =
      .error (.illegalInstruction 1 (.index (Byte.ofNat 7))) := rfl
  have hroom : HasRoom beforeRotation := by
    refine ⟨by decide, by decide, fun i hi => ?_⟩
    cases hfetch.symm.trans hi
    decide
  have hroom' : HasRoom (beforeRotation.setPc 1) := by
    refine ⟨by decide, by decide, fun i hi => ?_⟩
    cases hfetch'.symm.trans hi
  have hillegal := ((step_guarded hroom').2 1 (.index (Byte.ofNat 7))).mpr
    ⟨rfl, Word.wrap false 28672, rfl, by decide, rfl⟩
  exact ⟨hroom, hroom', (step_guarded hroom).1, by decide +kernel, by decide +kernel, hillegal⟩

end Guards

end MixComputer.Guarded
