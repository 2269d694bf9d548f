import MixComputer.Proofs.Machine.Invariant

/-!
What instructions know nothing of: the settings of the machine, its clock, its count of steps and
whether it has halted. An instruction neither looks at them nor changes them, so it does the same
whatever they are. Only the five instructions that use a unit know of the devices. A step sets the
clock, the count and the halt itself, and never looks at the limit of steps.
-/
namespace MixComputer

/-- The part of a machine that is outside the reach of its instructions. -/
structure Control where
  config : Configuration
  clock : Nat
  steps : Nat
  halted : Bool

namespace Machine

variable {σ : Type}

def control (m : Machine σ) : Control := ⟨m.config, m.clock, m.steps, m.halted⟩

/-- The machine under another control, with other devices in the place of its own. -/
def under {τ : Type} (m : Machine σ) (c : Control) (f : σ → τ) : Machine τ where
  config := c.config
  registers := m.registers
  memory := m.memory
  pc := m.pc
  clock := c.clock
  steps := c.steps
  halted := c.halted
  anomalies := m.anomalies
  devices := f m.devices

def withLimit (m : Machine σ) (limit : Option Nat) : Machine σ :=
  { m with config := { m.config with stepLimit := limit } }

end Machine

def Outcome.under {σ τ : Type} (o : Outcome σ) (c : Control) (f : σ → τ) : Outcome τ :=
  (o.1.under c f, o.2)

def Outcome.withLimit {σ : Type} (o : Outcome σ) (limit : Option Nat) : Outcome σ :=
  (o.1.withLimit limit, o.2)

namespace Machine

variable {σ τ : Type} {m m' : Machine σ}

section Instructions

variable (m : Machine σ) (c : Control) (f : σ → τ) (here : Nat) (a : Address)

theorem atLocation_under {next : Nat → Outcome σ} {next' : Nat → Outcome τ}
    (h : ∀ l, next' l = (next l).under c f) :
    (m.under c f).atLocation here a next' = (m.atLocation here a next).under c f := by
  have hlocation : (m.under c f).location? a = m.location? a := rfl
  unfold atLocation
  rw [hlocation]
  split
  · exact h _
  · rfl

theorem setRegister_under (r : Register) (w : Word) :
    (m.under c f).setRegister here r w = (m.setRegister here r w).under c f := by
  unfold setRegister
  split <;> rfl

theorem divide_under (v : Word) : (m.under c f).divide v = (m.divide v).under c f := by
  have hregisters : (m.under c f).registers = m.registers := rfl
  unfold divide
  rw [hregisters]
  split <;> rfl

theorem increase_under (r : Register) (n : Int) :
    (m.under c f).increase here r n = (m.increase here r n).under c f := by
  unfold increase
  split
  · exact setRegister_under m c f here r _
  · rfl

theorem transferAddress_under (r : Register) (variant : Nat) :
    (m.under c f).transferAddress here r a variant =
      (m.transferAddress here r a variant).under c f := by
  unfold transferAddress
  split
  · exact increase_under m c f here r _
  · exact increase_under m c f here r _
  · exact setRegister_under m c f here r _
  · exact setRegister_under m c f here r _

theorem shift_under (variant : Nat) :
    (m.under c f).shift here a variant = (m.shift here a variant).under c f := by
  unfold shift
  split <;> rfl

theorem moveWords_under (k count : Nat) :
    (m.under c f).moveWords here a k count = (m.moveWords here a k count).under c f := by
  induction count generalizing m k with
  | zero => rfl
  | succ count ih =>
    refine atLocation_under m c f here _ fun source => ?_
    refine atLocation_under m c f here _ fun target => ?_
    have hword := increase_under (m.write target (m.content source)) c f here 1 1
    refine Eq.trans ?_ (ih _ (k + 1))
    rw [← hword]
    rfl

theorem jumpIf_under (condition : Bool) :
    (m.under c f).jumpIf here condition a = (m.jumpIf here condition a).under c f := by
  unfold jumpIf
  cases condition with
  | true => exact atLocation_under m c f here a fun _ => rfl
  | false => rfl

theorem jump_under (variant : Nat) :
    (m.under c f).jump here a variant = (m.jump here a variant).under c f := by
  have hcleared := jumpIf_under
    (m.setRegisters { m.registers with overflow := false }) c f here a
  unfold jump
  split
  case h_2 => exact atLocation_under m c f here a fun _ => rfl
  case h_3 | h_4 => exact hcleared _
  all_goals exact jumpIf_under m c f here a _

theorem finishRequest_under (unit : Nat) (result : Except DeviceError Unit) :
    (m.under c f).finishRequest here unit result =
      (m.finishRequest here unit result).under c f := by
  cases result <;> rfl

theorem atBlock_under (unit : Nat) {next : Nat → Nat → Outcome σ} {next' : Nat → Nat → Outcome τ}
    (h : ∀ start size, next' start size = (next start size).under c f) :
    (m.under c f).atBlock here a unit next' = (m.atBlock here a unit next).under c f := by
  refine atLocation_under m c f here a fun start => ?_
  have hmemory : (m.under c f).memory = m.memory := rfl
  simp only [hmemory]
  split
  · exact h start _
  · rfl

variable [Peripherals σ]

/-- An operation that uses no unit does the same whatever devices there are. -/
theorem perform_under [Peripherals τ] {i : Instruction} (hunit : i.operation.usage ≠ .unit) :
    (m.under c f).perform here i = (m.perform here i).under c f := by
  obtain ⟨operation, index, field, address⟩ := i
  cases operation with
  | nop => rfl
  | special =>
    unfold perform
    simp only
    split <;> rfl
  | add | sub | mul | storeJ | storeZero =>
    exact atLocation_under m c f here _ fun _ => rfl
  | store r | compare r => exact atLocation_under m c f here _ fun _ => rfl
  | div =>
    exact atLocation_under m c f here _ fun l => congrArg proceed (divide_under m c f _)
  | load r | loadNegative r =>
    exact atLocation_under m c f here _ fun l =>
      congrArg proceed (setRegister_under m c f here r _)
  | addressTransfer r => exact congrArg proceed (transferAddress_under m c f here _ r _)
  | shift => exact shift_under m c f here _ _
  | move => exact moveWords_under m c f here _ 0 _
  | registerJump r => exact jumpIf_under m c f here _ _
  | jump => exact jump_under m c f here _ _
  | jumpBusy | jumpReady | control | input | output => exact absurd rfl hunit

/-- So does any operation with the same devices. -/
theorem perform_under_id (i : Instruction) :
    (m.under c id).perform here i = (m.perform here i).under c id := by
  by_cases hunit : i.operation.usage = .unit
  · obtain ⟨operation, index, field, address⟩ := i
    cases operation with
    | jumpBusy | jumpReady => exact jumpIf_under { m with devices := _ } c id here _ _
    | control => exact finishRequest_under { m with devices := _ } c id here _ _
    | input =>
      exact atBlock_under m c id here _ _ fun _ _ =>
        finishRequest_under { m with memory := _, devices := _ } c id here _ _
    | output =>
      exact atBlock_under m c id here _ _ fun _ _ =>
        finishRequest_under { m with devices := _ } c id here _ _
    | _ => cases hunit
  · exact perform_under m c id here hunit

/-- An operation cannot change the control that it is under. -/
theorem control_perform (i : Instruction) : (m.perform here i).1.control = m.control := by
  have hsame : m.perform here i = (m.perform here i).under m.control id :=
    perform_under_id m m.control here i
  rw [hsame]
  rfl

/-- An instruction does the same under any control. -/
theorem execute_under_id (i : Instruction) :
    (m.under c id).execute here i = (m.execute here i).under c id := by
  unfold execute
  split
  · exact perform_under_id m c here i
  · rfl

theorem control_execute (i : Instruction) : (m.execute here i).1.control = m.control := by
  unfold execute
  split
  · exact control_perform m here i
  · rfl

theorem config_execute (i : Instruction) : (m.execute here i).1.config = m.config :=
  congrArg Control.config (control_execute m here i)

/-- The same for the settings alone. -/
theorem execute_withConfig (config : Configuration) (i : Instruction) :
    ({ m with config } : Machine σ).execute here i =
      ({ (m.execute here i).1 with config }, (m.execute here i).2) := by
  have hexecute := execute_under_id m { m.control with config } here i
  have hcontrol := control_execute m here i
  refine Eq.trans hexecute ?_
  rw [← hcontrol]
  rfl

end Instructions

section Step

variable (m : Machine σ) (limit : Option Nat)

theorem complete_withLimit (i : Instruction) (o : Outcome σ) :
    complete i (o.withLimit limit) = (complete i o).withLimit limit := by
  obtain ⟨m, result⟩ := o
  cases result with
  | ok flow => rfl
  | error fault =>
    have hpolicy : (m.withLimit limit).config.fieldErrors = m.config.fieldErrors := rfl
    unfold Outcome.withLimit complete
    simp only [hpolicy]
    split <;> rfl

/-- An instruction without a fault has halted the machine if that is what it says. -/
theorem complete_ok {i : Instruction} {o : Outcome σ} {m' : Machine σ} {flow : Flow}
    (h : complete i o = (m', .ok flow)) :
    m'.config = o.1.config ∧ m'.steps = o.1.steps ∧
      m'.halted = (o.1.halted || flow == .halt) := by
  obtain ⟨m, result⟩ := o
  cases result with
  | ok flow =>
    cases h
    exact ⟨rfl, rfl, rfl⟩
  | error fault =>
    unfold complete at h
    simp only at h
    split at h
    · cases h
      exact ⟨rfl, rfl, (Bool.or_false _).symm⟩
    · cases h

variable [Peripherals σ]

/-- A step does the same under any limit of steps. -/
theorem step_withLimit : (m.withLimit limit).step = m.step.withLimit limit := by
  have hsame : (m.withLimit limit).fetch = m.fetch := rfl
  cases hfetch : m.fetch with
  | error fault =>
    rw [step_of_fetch_error hfetch, step_of_fetch_error (hsame.trans hfetch)]
    rfl
  | ok i =>
    have hexecute : (m.withLimit limit).advance.execute m.pc i =
        (m.advance.execute m.pc i).withLimit limit := by
      refine (execute_withConfig m.advance m.pc { m.config with stepLimit := limit } i).trans ?_
      rw [Outcome.withLimit, withLimit, config_execute]
      rfl
    rw [step_of_fetch_ok hfetch, step_of_fetch_ok (hsame.trans hfetch), ← complete_withLimit]
    exact congrArg (complete i) hexecute

/-- A step without a fault is counted. -/
theorem step_ok {m' : Machine σ} {flow : Flow} (h : m.step = (m', .ok flow)) :
    m'.config = m.config ∧ m'.steps = m.steps + 1 ∧
      m'.halted = (m.halted || flow == .halt) := by
  cases hfetch : m.fetch with
  | error fault =>
    rw [step_of_fetch_error hfetch] at h
    cases h
  | ok i =>
    rw [step_of_fetch_ok hfetch] at h
    have hcontrol := control_execute m.advance m.pc i
    obtain ⟨hconfig, hsteps, hhalted⟩ := complete_ok h
    exact ⟨hconfig.trans (congrArg Control.config hcontrol),
      hsteps.trans (congrArg Control.steps hcontrol),
      hhalted.trans (congrArg (·.halted || flow == .halt) hcontrol)⟩

end Step

end Machine

end MixComputer
