import MixComputer.Peripherals.Recorded
import MixComputer.Proofs.Machine.Change
import MixComputer.Proofs.Machine.Reachable
import MixComputer.Proofs.Machine.Simulation

/-!
Machines with more memory. An instruction learns of the size of memory only where a location does
not exist. So cells that are added after the end of memory change nothing for an instruction that
finds all its locations, and it never comes near them; nor do they change anything for a run, as
long as it does not ask for a location outside the smaller memory.
-/
namespace MixComputer

namespace Memory

variable {memory : Memory}

theorem getD_append (cells : Memory) {l : Nat} (h : l < memory.size) :
    (memory ++ cells).getD l Word.zero = memory.getD l Word.zero := by
  rw [Array.getD_eq_getD_getElem?, Array.getD_eq_getD_getElem?, Array.getElem?_append_left h]

theorem write_append (cells : Memory) (w : Word) {l : Nat} (h : l < memory.size) :
    write (memory ++ cells) l w = memory.write l w ++ cells := by
  rw [write, write, Array.setIfInBounds_append_left h]

theorem writeList_append (cells : Memory) (words : List Word) {start : Nat}
    (h : start + words.length ≤ memory.size) :
    writeList (memory ++ cells) start words = memory.writeList start words ++ cells := by
  induction words generalizing memory start with
  | nil => rfl
  | cons w words ih =>
    rw [List.length_cons] at h
    rw [writeList, writeList, write_append cells w (by omega)]
    exact ih (by rw [size_write]; omega)

theorem block_append (cells : Memory) {start n : Nat} (h : start + n ≤ memory.size) :
    block (memory ++ cells) start n = memory.block start n := by
  unfold block
  congr
  funext i
  have hi := i.isLt
  exact getD_append cells (by omega)

end Memory

def Machine.extend {σ : Type} (m : Machine σ) (cells : Memory) : Machine σ :=
  { m with memory := m.memory ++ cells }

namespace Outcome

variable {σ : Type}

def extend (o : Outcome σ) (cells : Memory) : Outcome σ := (o.1.extend cells, o.2)

/-- No location was asked for that memory does not have. -/
def StaysInMemory (o : Outcome σ) : Prop :=
  ∀ here location, o.2 ≠ .error (.memoryLocation here location)

/-- With more memory the second outcome takes the place of the first, unless the first lacked a
location. -/
def ExtendsTo (o o' : Outcome σ) (cells : Memory) : Prop := o.StaysInMemory → o' = o.extend cells

end Outcome

namespace Machine

variable {σ : Type} (m : Machine σ) (cells : Memory) (here : Nat) (a : Address)

section Parts

variable {m} in
theorem location?_extend {l : Nat} (h : m.location? a = some l) :
    (m.extend cells).location? a = some l := by
  unfold location? Address.location? at h ⊢
  split at h
  · rename_i hrange
    have hlarger : a.value.toNat < (m.memory ++ cells).size := by
      rw [Array.size_append]
      exact Nat.lt_add_right _ hrange.2
    rw [if_pos ⟨hrange.1, hlarger⟩]
    exact h
  · cases h

variable {m} in
theorem content_extend {l : Nat} (h : l < m.memory.size) :
    (m.extend cells).content l = m.content l := Memory.getD_append cells h

variable {m} in
theorem write_extend (w : Word) {l : Nat} (h : l < m.memory.size) :
    (m.extend cells).write l w = (m.write l w).extend cells :=
  congrArg (fun memory => { m with memory }) (Memory.write_append cells w h)

theorem extendsTo_refl (o : Outcome σ) : o.ExtendsTo (o.extend cells) cells := fun _ => rfl

/-- Going on with a location that the smaller memory has. -/
theorem extendsTo_atLocation {next next' : Nat → Outcome σ}
    (h : ∀ l < m.memory.size, (next l).ExtendsTo (next' l) cells) :
    (m.atLocation here a next).ExtendsTo ((m.extend cells).atLocation here a next') cells := by
  unfold atLocation
  cases hlocation : m.location? a with
  | some l =>
    rw [location?_extend cells a hlocation]
    exact h l (location?_eq_some hlocation).1
  | none =>
    intro hstays
    exact absurd rfl (hstays here a.value)

/-- An instruction that reads one word. -/
theorem extendsTo_read (act : Machine σ → Word → Machine σ)
    (h : ∀ w, act (m.extend cells) w = (act m w).extend cells) :
    (m.atLocation here a fun l => (act m (m.content l)).proceed).ExtendsTo
      ((m.extend cells).atLocation here a fun l =>
        (act (m.extend cells) ((m.extend cells).content l)).proceed) cells := by
  refine extendsTo_atLocation m cells here a fun l hl => ?_
  rw [content_extend cells hl, h]
  exact extendsTo_refl cells _

/-- An instruction that replaces one word. -/
theorem extendsTo_replace (word : Word → Word) :
    (m.atLocation here a fun l => (m.write l (word (m.content l))).proceed).ExtendsTo
      ((m.extend cells).atLocation here a fun l =>
        ((m.extend cells).write l (word ((m.extend cells).content l))).proceed) cells := by
  refine extendsTo_atLocation m cells here a fun l hl => ?_
  rw [content_extend cells hl, write_extend cells _ hl]
  exact extendsTo_refl cells _

theorem setRegister_extend (r : Register) (w : Word) :
    (m.extend cells).setRegister here r w = (m.setRegister here r w).extend cells := by
  unfold setRegister
  split <;> rfl

theorem divide_extend (v : Word) : (m.extend cells).divide v = (m.divide v).extend cells := by
  have hregisters : (m.extend cells).registers = m.registers := rfl
  unfold divide
  rw [hregisters]
  split <;> rfl

theorem increase_extend (r : Register) (n : Int) :
    (m.extend cells).increase here r n = (m.increase here r n).extend cells := by
  unfold increase
  split
  · exact setRegister_extend m cells here r _
  · rfl

theorem transferAddress_extend (r : Register) (variant : Nat) :
    (m.extend cells).transferAddress here r a variant =
      (m.transferAddress here r a variant).extend cells := by
  unfold transferAddress
  split
  · exact increase_extend m cells here r _
  · exact increase_extend m cells here r _
  · exact setRegister_extend m cells here r _
  · exact setRegister_extend m cells here r _

theorem shift_extend (variant : Nat) :
    (m.extend cells).shift here a variant = (m.shift here a variant).extend cells := by
  unfold shift
  split <;> rfl

/-- Each word is moved within the smaller memory, or the move ends there. -/
theorem extendsTo_moveWords (k count : Nat) :
    (m.moveWords here a k count).ExtendsTo ((m.extend cells).moveWords here a k count) cells := by
  induction count generalizing m k with
  | zero => exact extendsTo_refl cells _
  | succ count ih =>
    refine extendsTo_atLocation m cells here _ fun source hsource => ?_
    refine extendsTo_atLocation m cells here _ fun target htarget => ?_
    rw [content_extend cells hsource, write_extend cells _ htarget, increase_extend]
    exact ih _ (k + 1)

end Parts

section Jumps

theorem extendsTo_jumpIf (condition : Bool) :
    (m.jumpIf here condition a).ExtendsTo ((m.extend cells).jumpIf here condition a) cells := by
  unfold jumpIf
  cases condition with
  | true => exact extendsTo_atLocation m cells here a fun _ _ => extendsTo_refl cells _
  | false => exact extendsTo_refl cells _

theorem extendsTo_jump (variant : Nat) :
    (m.jump here a variant).ExtendsTo ((m.extend cells).jump here a variant) cells := by
  have hcleared := extendsTo_jumpIf (m.setRegisters { m.registers with overflow := false }) cells
    here a
  unfold jump
  split
  case h_2 => exact extendsTo_atLocation m cells here a fun _ _ => extendsTo_refl cells _
  case h_3 | h_4 => exact hcleared _
  all_goals exact extendsTo_jumpIf m cells here a _

end Jumps

section Units

theorem finishRequest_extend (unit : Nat) (result : Except DeviceError Unit) :
    (m.extend cells).finishRequest here unit result =
      (m.finishRequest here unit result).extend cells := by
  cases result <;> rfl

/-- A block that lies in the smaller memory. -/
theorem extendsTo_atBlock (unit : Nat) {next next' : Nat → Nat → Outcome σ}
    (h : ∀ start size, start + size ≤ m.memory.size →
      (next start size).ExtendsTo (next' start size) cells) :
    (m.atBlock here a unit next).ExtendsTo ((m.extend cells).atBlock here a unit next') cells := by
  refine extendsTo_atLocation m cells here a fun start _ => ?_
  simp only
  by_cases hfits : start + (blockSize? unit).getD 0 ≤ m.memory.size
  · have hlarger : start + (blockSize? unit).getD 0 ≤ (m.extend cells).memory.size := by
      change _ ≤ (m.memory ++ cells).size
      rw [Array.size_append]
      omega
    rw [if_pos hfits, if_pos hlarger]
    exact h start _ hfits
  · rw [if_neg hfits]
    intro hstays
    exact absurd rfl (hstays here _)

variable [Peripherals σ]

theorem extendsTo_controlUnit (unit : Nat) :
    (m.controlUnit here a unit).ExtendsTo ((m.extend cells).controlUnit here a unit) cells := by
  have hdevices : (m.extend cells).devices = m.devices := rfl
  have hregisters : (m.extend cells).registers = m.registers := rfl
  unfold controlUnit
  rw [hdevices, hregisters]
  rcases Peripherals.control m.devices unit a.value m.registers.x with ⟨result, devices⟩
  intro _
  exact finishRequest_extend { m with devices } cells here unit result

theorem extendsTo_readUnit (unit : Nat) :
    (m.readUnit here a unit).ExtendsTo ((m.extend cells).readUnit here a unit) cells := by
  refine extendsTo_atBlock m cells here a unit fun start size hfits => ?_
  have hblock : (m.extend cells).memory.block start size = m.memory.block start size :=
    Memory.block_append cells hfits
  have hdevices : (m.extend cells).devices = m.devices := rfl
  have hregisters : (m.extend cells).registers = m.registers := rfl
  rw [hdevices, hregisters, hblock]
  -- The device gets the same block, and what it puts in its place has the same size.
  rcases Peripherals.input m.devices unit (m.memory.block start size) m.registers.x with
    ⟨result, block, devices⟩
  have hmemory : (m.extend cells).memory.writeList start block.toList =
      m.memory.writeList start block.toList ++ cells :=
    Memory.writeList_append cells block.toList (by rw [Vector.length_toList]; exact hfits)
  simp only [hmemory]
  intro _
  exact finishRequest_extend
    { m with memory := m.memory.writeList start block.toList, devices } cells here unit result

theorem extendsTo_writeUnit (unit : Nat) :
    (m.writeUnit here a unit).ExtendsTo ((m.extend cells).writeUnit here a unit) cells := by
  refine extendsTo_atBlock m cells here a unit fun start size hfits => ?_
  have hblock : (m.extend cells).memory.block start size = m.memory.block start size :=
    Memory.block_append cells hfits
  have hdevices : (m.extend cells).devices = m.devices := rfl
  have hregisters : (m.extend cells).registers = m.registers := rfl
  rw [hdevices, hregisters, hblock]
  rcases Peripherals.output m.devices unit (m.memory.block start size) m.registers.x with
    ⟨result, devices⟩
  intro _
  exact finishRequest_extend { m with devices } cells here unit result

/-- Every operation works in a larger memory as it does in a smaller one. -/
theorem extendsTo_perform (i : Instruction) :
    (m.perform here i).ExtendsTo ((m.extend cells).perform here i) cells := by
  obtain ⟨operation, index, field, address⟩ := i
  cases operation with
  | nop => exact extendsTo_refl cells m.proceed
  | add =>
    exact extendsTo_read m cells here _ (fun m w => m.addTo .a (Field.extract _ w).value)
      fun _ => rfl
  | sub =>
    exact extendsTo_read m cells here _ (fun m w => m.addTo .a (Field.extract _ w).negated.value)
      fun _ => rfl
  | mul =>
    exact extendsTo_read m cells here _
      (fun m w => m.setPair (Arithmetic.multiply m.registers.a (Field.extract _ w))) fun _ => rfl
  | div =>
    exact extendsTo_read m cells here _ (fun m w => m.divide (Field.extract _ w))
      fun _ => divide_extend m cells _
  | special =>
    unfold perform
    simp only
    split <;> exact extendsTo_refl cells _
  | shift =>
    intro _
    exact shift_extend m cells here _ _
  | move => exact extendsTo_moveWords m cells here _ 0 _
  | load r =>
    exact extendsTo_read m cells here _ (fun m w => m.setRegister here r (Field.extract _ w))
      fun _ => setRegister_extend m cells here r _
  | loadNegative r =>
    exact extendsTo_read m cells here _
      (fun m w => m.setRegister here r (Field.extract _ w).negated)
      fun _ => setRegister_extend m cells here r _
  | compare r =>
    exact extendsTo_read m cells here _ (fun m w => m.compareWith r _ w) fun _ => rfl
  | store r =>
    exact extendsTo_replace m cells here _ fun w => Field.insert _ w (m.registers.get r)
  | storeJ => exact extendsTo_replace m cells here _ fun w => Field.insert _ w m.registers.jWord
  | storeZero => exact extendsTo_replace m cells here _ fun w => Field.insert _ w Word.zero
  | jumpBusy | jumpReady => exact extendsTo_jumpIf { m with devices := _ } cells here _ _
  | control => exact extendsTo_controlUnit m cells here _ _
  | input => exact extendsTo_readUnit m cells here _ _
  | output => exact extendsTo_writeUnit m cells here _ _
  | jump => exact extendsTo_jump m cells here _ _
  | registerJump r => exact extendsTo_jumpIf m cells here _ _
  | addressTransfer r =>
    intro _
    exact congrArg proceed (transferAddress_extend m cells here _ r _)

theorem extendsTo_execute (i : Instruction) :
    (m.execute here i).ExtendsTo ((m.extend cells).execute here i) cells := by
  unfold execute
  split
  · exact extendsTo_perform m cells here i
  · exact extendsTo_refl cells _

end Units

section Step

/-- A fault that is skipped was not one of memory. -/
theorem extendsTo_complete (i : Instruction) {o o' : Outcome σ} (h : o.ExtendsTo o' cells) :
    (complete i o).ExtendsTo (complete i o') cells := by
  obtain ⟨m, result⟩ := o
  intro hstays
  have hstayed : Outcome.StaysInMemory (m, result) := by
    intro here location hfault
    cases hfault
    exact hstays here location rfl
  rw [h hstayed]
  cases result with
  | ok flow => rfl
  | error fault =>
    have hpolicy : (m.extend cells).config = m.config := rfl
    unfold Outcome.extend complete
    simp only [hpolicy]
    split <;> rfl

theorem fetch_extend (h : ∀ here location, m.fetch ≠ .error (.memoryLocation here location)) :
    (m.extend cells).fetch = m.fetch := by
  cases hword : m.word? m.pc with
  | none =>
    refine absurd ?_ (h m.pc (shownLocation m.pc))
    simp only [fetch, hword]
  | some w =>
    have hlarger : (m.extend cells).word? (m.extend cells).pc = some w := by
      refine Eq.trans ?_ hword
      exact Array.getElem?_append_left (Array.getElem?_eq_some_iff.mp hword).1
    simp only [fetch, hlarger, hword]
    rfl

variable [Peripherals σ]

/-- A step that stays in memory is the same step in every larger memory. -/
theorem extendsTo_step : m.step.ExtendsTo (m.extend cells).step cells := by
  intro hstays
  cases hfetch : m.fetch with
  | error fault =>
    rw [step_of_fetch_error hfetch] at hstays ⊢
    have hlarger : (m.extend cells).fetch = .error fault := by
      refine (fetch_extend m cells fun here location heq => ?_).trans hfetch
      rw [hfetch] at heq
      cases heq
      exact hstays here location rfl
    exact step_of_fetch_error hlarger
  | ok i =>
    have hlarger : (m.extend cells).fetch = .ok i := by
      refine (fetch_extend m cells fun here location heq => ?_).trans hfetch
      rw [hfetch] at heq
      cases heq
    rw [step_of_fetch_ok hfetch] at hstays ⊢
    rw [step_of_fetch_ok hlarger]
    exact extendsTo_complete cells i (extendsTo_execute m.advance cells m.pc i) hstays

end Step

section Run

variable [Peripherals σ]

/-- A machine with more memory does as the smaller one does, until that lacks a location. -/
theorem simulates_extend :
    Simulates (fun fault => ∃ here location, fault = .memoryLocation here location)
      fun m m' : Machine σ => m' = m.extend cells where
  halted := by
    rintro m m' rfl
    rfl
  steps := by
    rintro m m' rfl
    rfl
  stepLimit := by
    rintro m m' rfl
    rfl
  step := by
    rintro m m' rfl hstays
    rw [extendsTo_step m cells fun here location hfault => hstays _ hfault ⟨here, location, rfl⟩]
    exact ⟨rfl, rfl⟩

theorem size_memory_run (start fuel : Nat) :
    (m.run start fuel).1.memory.size = m.memory.size :=
  resume_induction (P := fun other => other.memory.size = m.memory.size)
    (fun other hother => (size_memory_step other).trans hother) m.steps fuel
    (m := m.setPc start) rfl

/-- Cells after the end of memory take no part. A step that finds all its locations is the same
step with more memory: it has the same result, makes the same requests to the devices and leaves
the same machine but for the cells, which it does not touch. So a run that halts in a smaller
memory halts in the same way in every larger one. -/
theorem extend_conservative {σ : Type} [Peripherals σ] (cells : Memory) :
    (∀ m : Machine σ, m.step.StaysInMemory →
      (m.extend cells).step = m.step.extend cells ∧ m.step.1.memory.size = m.memory.size) ∧
    (∀ m : Machine (Recorded σ), m.step.StaysInMemory →
      (m.extend cells).step.1.devices.calls = m.step.1.devices.calls) ∧
    ∀ (m m' : Machine σ) (start fuel n : Nat), m.run start fuel = (m', some (.ok n)) →
      (m.extend cells).run start fuel = (m'.extend cells, some (.ok n)) ∧
        m'.memory.size = m.memory.size := by
  refine ⟨fun m hstays => ⟨extendsTo_step m cells hstays, size_memory_step m⟩,
    fun m hstays => ?_, fun m m' start fuel n hrun => ⟨?_, ?_⟩⟩
  · rw [extendsTo_step m cells hstays]
    rfl
  · have hlarger := (simulates_extend cells).run m (m.extend cells) start fuel rfl
      fun fault hfault => by
        rw [hrun] at hfault
        cases hfault
    rw [hrun] at hlarger
    exact Prod.ext hlarger.2 hlarger.1
  · have hsize := size_memory_run m start fuel
    rwa [hrun] at hsize

def beforeStore : Machine Unattached :=
  ofImage ⟨4, .halt, none⟩ ⟨⟩
    [Word.wrap false 1835184, Word.wrap false 786776, Word.wrap false 133]

/-- Two more words, which stay as they are. -/
theorem extend_conservative_store :
    beforeStore.step.StaysInMemory ∧ (beforeStore.run 0 3).2 = some (.ok 3) ∧
      (beforeStore.extend #[Word.wrap true 5, Word.wrap true 0]).step.2 = .ok .proceed ∧
      ((beforeStore.extend #[Word.wrap true 5, Word.wrap true 0]).run 0 3).2 = some (.ok 3) ∧
      ((beforeStore.extend #[Word.wrap true 5, Word.wrap true 0]).run 0 3).1.memory =
        #[Word.wrap false 1835184, Word.wrap false 786776, Word.wrap false 133, Word.wrap false 7,
          Word.wrap true 5, Word.wrap true 0] := by
  have hresult : beforeStore.step.2 = .ok .proceed := rfl
  have hstays : beforeStore.step.StaysInMemory := by
    intro here location
    rw [hresult]
    intro hfault
    cases hfault
  have hends : (beforeStore.run 0 3).2 = some (.ok 3) := rfl
  have hrun : beforeStore.run 0 3 = ((beforeStore.run 0 3).1, some (.ok 3)) := by rw [← hends]
  obtain ⟨hstep, -, hruns⟩ :=
    extend_conservative (σ := Unattached) #[Word.wrap true 5, Word.wrap true 0]
  obtain ⟨hlarger, -⟩ := hruns beforeStore (beforeStore.run 0 3).1 0 3 3 hrun
  refine ⟨hstays, hends, ?_, ?_, ?_⟩
  · rw [(hstep beforeStore hstays).1]
    exact hresult
  · rw [hlarger]
  · rw [hlarger]
    decide +kernel

end Run

end Machine

end MixComputer
