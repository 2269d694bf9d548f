import MixComputer.Proofs.Machine.Limit

/-!
What an instruction may change. Each instruction has a footprint: the places in memory, the
registers and the indicators that it may write. The operations are made of a few actions, each of
which needs some of these permissions, and all else stays as it was. In a run the overflow toggle
therefore stays on until an instruction asks for it.
-/
namespace MixComputer

/-- The parts of a machine that may be changed. The devices and the list of anomalies are not
counted among them. -/
structure Footprint where
  pc : Prop
  memory : Nat → Prop
  general : Register → Prop
  j : Prop
  comparison : Prop
  /-- Whether the overflow toggle may be set. -/
  raise : Prop
  /-- Whether the overflow toggle may be cleared. -/
  clear : Prop

namespace Registers

structure Within (f : Footprint) (s t : Registers) : Prop where
  general : ∀ r, ¬ f.general r → t.get r = s.get r
  j : ¬ f.j → t.j = s.j
  comparison : ¬ f.comparison → t.comparison = s.comparison
  raise : ¬ f.raise → t.overflow = true → s.overflow = true
  clear : ¬ f.clear → s.overflow = true → t.overflow = true

variable {f : Footprint} {s t u : Registers} {r : Register}

theorem Within.refl (f : Footprint) (s : Registers) : s.Within f s :=
  ⟨fun _ _ => rfl, fun _ => rfl, fun _ => rfl, fun _ h => h, fun _ h => h⟩

theorem Within.trans (h : s.Within f t) (h' : t.Within f u) : s.Within f u where
  general := fun r hr => (h'.general r hr).trans (h.general r hr)
  j := fun hj => (h'.j hj).trans (h.j hj)
  comparison := fun hc => (h'.comparison hc).trans (h.comparison hc)
  raise := fun hf hon => h.raise hf (h'.raise hf hon)
  clear := fun hf hon => h'.clear hf (h.clear hf hon)

theorem within_set (s : Registers) (hr : f.general r) (w : Word) : s.Within f (s.set r w) := by
  refine ⟨fun other hother => ?_, fun _ => rfl, fun _ => rfl, fun _ h => h, fun _ h => h⟩
  have hne : r ≠ other := by
    rintro rfl
    exact hother hr
  rw [get_set, if_neg hne]

/-- Nothing is cleared where something is added to the toggle. -/
theorem within_raise (s : Registers) (hraise : f.raise) (overflow : Bool) :
    s.Within f { s with overflow := s.overflow || overflow } := by
  refine ⟨fun _ _ => rfl, fun _ => rfl, fun _ => rfl, fun hnot => absurd hraise hnot, ?_⟩
  intro _ hon
  change (s.overflow || overflow) = true
  rw [hon, Bool.true_or]

theorem within_clear (s : Registers) (hclear : f.clear) :
    s.Within f { s with overflow := false } :=
  ⟨fun _ _ => rfl, fun _ => rfl, fun _ => rfl, fun _ hon => absurd hon Bool.false_ne_true,
    fun hnot => absurd hclear hnot⟩

theorem within_j (s : Registers) (hj : f.j) (j : Nat) : s.Within f { s with j } :=
  ⟨fun _ _ => rfl, fun hnot => absurd hj hnot, fun _ => rfl, fun _ h => h, fun _ h => h⟩

theorem within_comparison (s : Registers) (hc : f.comparison) (comparison : Ordering) :
    s.Within f { s with comparison } :=
  ⟨fun _ _ => rfl, fun _ => rfl, fun hnot => absurd hc hnot, fun _ h => h, fun _ h => h⟩

end Registers

namespace Machine

variable {σ : Type}

structure Within (f : Footprint) (m m' : Machine σ) : Prop
    extends m.registers.Within f m'.registers where
  pc : ¬ f.pc → m'.pc = m.pc
  memory : ∀ l, ¬ f.memory l → m'.memory[l]? = m.memory[l]?

variable {f : Footprint} {m m' m'' : Machine σ} {here : Nat} {a : Address} {r : Register}

section Parts

theorem Within.refl (f : Footprint) (m : Machine σ) : m.Within f m :=
  ⟨Registers.Within.refl f m.registers, fun _ => rfl, fun _ _ => rfl⟩

theorem Within.trans (h : m.Within f m') (h' : m'.Within f m'') : m.Within f m'' where
  toWithin := h.toWithin.trans h'.toWithin
  pc := fun hpc => (h'.pc hpc).trans (h.pc hpc)
  memory := fun l hl => (h'.memory l hl).trans (h.memory l hl)

theorem within_setRegisters {registers : Registers} (h : m.registers.Within f registers) :
    m.Within f (m.setRegisters registers) := ⟨h, fun _ => rfl, fun _ _ => rfl⟩

theorem within_record (m : Machine σ) (fault : Fault) : m.Within f (m.record fault) :=
  ⟨Registers.Within.refl f m.registers, fun _ => rfl, fun _ _ => rfl⟩

theorem within_devices (m : Machine σ) (devices : σ) : m.Within f { m with devices } :=
  ⟨Registers.Within.refl f m.registers, fun _ => rfl, fun _ _ => rfl⟩

theorem within_write (m : Machine σ) {l : Nat} (hl : f.memory l) (w : Word) :
    m.Within f (m.write l w) := by
  refine ⟨Registers.Within.refl f m.registers, fun _ => rfl, fun other hother => ?_⟩
  have hne : l ≠ other := by
    rintro rfl
    exact hother hl
  exact Memory.getElem?_write_ne m.memory w hne

/-- Going on with a location that the address names. -/
theorem within_atLocation {next : Nat → Outcome σ}
    (hnext : ∀ l, m.location? a = some l → m.Within f (next l).1) :
    m.Within f (m.atLocation here a next).1 := by
  unfold atLocation
  split
  · rename_i l hl
    exact hnext l hl
  · exact Within.refl f m

theorem within_setRegister (m : Machine σ) (here : Nat) (hr : f.general r) (w : Word) :
    m.Within f (m.setRegister here r w) := by
  unfold setRegister
  split
  · exact (within_record m _).trans
      (within_setRegisters ((m.record _).registers.within_set hr _))
  · exact within_setRegisters (m.registers.within_set hr w)

end Parts

section Arithmetic

theorem within_addTo (m : Machine σ) (hr : f.general r) (hraise : f.raise) (n : Int) :
    m.Within f (m.addTo r n) :=
  within_setRegisters ((m.registers.within_set hr _).trans (Registers.within_raise _ hraise _))

theorem within_setPair (m : Machine σ) (ha : f.general .a) (hx : f.general .x)
    (words : Word × Word) : m.Within f (m.setPair words) :=
  within_setRegisters
    ((m.registers.within_set ha words.1).trans (Registers.within_set _ hx words.2))

theorem within_divide (m : Machine σ) (ha : f.general .a) (hx : f.general .x) (hraise : f.raise)
    (v : Word) : m.Within f (m.divide v) := by
  unfold divide
  split
  · exact within_setPair m ha hx _
  · have hset := m.registers.within_raise hraise true
    rw [Bool.or_true] at hset
    exact within_setRegisters hset

/-- Only rA and rX overflow. -/
theorem within_increase (m : Machine σ) (here : Nat) (hr : f.general r)
    (hraise : Register.isIndex r = false → f.raise) (n : Int) :
    m.Within f (m.increase here r n) := by
  unfold increase
  by_cases hindex : Register.isIndex r = true
  · rw [if_pos hindex]
    exact within_setRegister m here hr _
  · rw [if_neg hindex]
    exact within_addTo m hr (hraise (Bool.eq_false_iff.mpr hindex)) n

/-- Only the first two variants increase. -/
theorem within_transferAddress (m : Machine σ) (here : Nat) (a : Address) (hr : f.general r)
    {variant : Nat} (hraise : variant ≤ 1 → Register.isIndex r = false → f.raise) :
    m.Within f (m.transferAddress here r a variant) := by
  unfold transferAddress
  split
  · exact within_increase m here hr (hraise (by omega)) _
  · exact within_increase m here hr (hraise (by omega)) _
  · exact within_setRegister m here hr _
  · exact within_setRegister m here hr _

theorem within_compareWith (m : Machine σ) (hc : f.comparison) (r : Register) (field : Field)
    (w : Word) : m.Within f (m.compareWith r field w) :=
  within_setRegisters (m.registers.within_comparison hc _)

/-- The first two shifts are of rA alone. -/
theorem within_shift (m : Machine σ) (here : Nat) (a : Address) (ha : f.general .a) {variant : Nat}
    (hx : 2 ≤ variant → f.general .x) : m.Within f (m.shift here a variant).1 := by
  have halone (w : Word) : m.Within f (m.setPair (w, m.registers.x)) := by
    refine within_setRegisters ((m.registers.within_set ha w).trans ?_)
    have hsame : (m.registers.setA w).get .x = m.registers.x :=
      Registers.get_set m.registers .a .x w
    have hkept : (m.registers.setA w).setX m.registers.x = m.registers.setA w := by
      rw [← hsame]
      exact Registers.set_get (m.registers.setA w) .x
    rw [hkept]
    exact Registers.Within.refl f _
  unfold shift
  split
  · exact Within.refl f m
  · match variant, hx with
    | 0, _ => exact halone _
    | 1, _ => exact halone _
    | n + 2, hx => exact within_setPair m ha (hx (by omega)) _

theorem within_moveWords (m : Machine σ) (here : Nat) (a : Address) (hmemory : ∀ l, f.memory l)
    (hr : f.general 1) (k count : Nat) : m.Within f (m.moveWords here a k count).1 := by
  induction count generalizing m k with
  | zero => exact Within.refl f m
  | succ count ih =>
    refine within_atLocation fun source _ => within_atLocation fun target _ => ?_
    have hwrite := within_write m (hmemory target) (m.content source)
    have hmoved := within_increase (m.write target (m.content source)) here hr
      (fun hindex => absurd hindex (by decide)) 1
    exact (hwrite.trans hmoved).trans (ih _ (k + 1))

end Arithmetic

section Jumps

theorem within_jumpIf (m : Machine σ) (here : Nat) (condition : Bool) (a : Address) (hpc : f.pc)
    (hj : f.j) : m.Within f (m.jumpIf here condition a).1 := by
  have hlinked := m.registers.within_j hj (m.pc % weight 2)
  unfold jumpIf
  cases condition with
  | true =>
    refine within_atLocation fun target _ => ?_
    exact ⟨hlinked, fun hnot => absurd hpc hnot, fun _ _ => rfl⟩
  | false => exact within_setRegisters hlinked

/-- The second variant leaves rJ alone, and only the third and the fourth clear the toggle. -/
theorem within_jump (m : Machine σ) (here : Nat) (a : Address) {variant : Nat} (hpc : f.pc)
    (hj : variant ≠ 1 → f.j) (hclear : variant = 2 ∨ variant = 3 → f.clear) :
    m.Within f (m.jump here a variant).1 := by
  have hcleared (hvariant : variant = 2 ∨ variant = 3) (condition : Bool) :
      m.Within f ((m.setRegisters { m.registers with overflow := false }).jumpIf here condition
        a).1 :=
    (within_setRegisters (m.registers.within_clear (hclear hvariant))).trans
      (within_jumpIf _ here condition a hpc (hj (by omega)))
  unfold jump
  split
  case h_2 =>
    refine within_atLocation fun target _ => ?_
    exact ⟨Registers.Within.refl f m.registers, fun hnot => absurd hpc hnot, fun _ _ => rfl⟩
  case h_3 => exact hcleared (.inl rfl) _
  case h_4 => exact hcleared (.inr rfl) _
  case h_10 => exact within_jumpIf m here _ a hpc (hj (by assumption))
  all_goals exact within_jumpIf m here _ a hpc (hj (by decide))

end Jumps

section Units

theorem within_finishRequest (m : Machine σ) (here unit : Nat) (result : Except DeviceError Unit) :
    m.Within f (m.finishRequest here unit result).1 := by
  cases result <;> exact Within.refl f m

theorem within_atBlock {unit : Nat} {next : Nat → Nat → Outcome σ}
    (hnext : ∀ start, m.location? a = some start →
      m.Within f (next start ((blockSize? unit).getD 0)).1) :
    m.Within f (m.atBlock here a unit next).1 := by
  refine within_atLocation fun start hstart => ?_
  simp only
  split
  · exact hnext start hstart
  · exact Within.refl f m

variable [Peripherals σ]

theorem within_jumpOnUnit (m : Machine σ) (here : Nat) (a : Address) (unit : Nat) (busy : Bool)
    (hpc : f.pc) (hj : f.j) : m.Within f (m.jumpOnUnit here a unit busy).1 :=
  (within_devices m _).trans (within_jumpIf _ here _ a hpc hj)

theorem within_controlUnit (m : Machine σ) (here : Nat) (a : Address) (unit : Nat) :
    m.Within f (m.controlUnit here a unit).1 :=
  (within_devices m _).trans (within_finishRequest _ here unit _)

theorem within_writeUnit (m : Machine σ) (here : Nat) (a : Address) (unit : Nat) :
    m.Within f (m.writeUnit here a unit).1 :=
  within_atBlock fun _ _ => (within_devices m _).trans (within_finishRequest _ here unit _)

/-- What a unit reads stays inside its block. -/
theorem within_readUnit (m : Machine σ) (here : Nat) (a : Address) (unit : Nat)
    (hmemory : ∀ start size l, m.location? a = some start → blockSize? unit = some size →
      start ≤ l → l < start + size → f.memory l) :
    m.Within f (m.readUnit here a unit).1 := by
  refine within_atBlock fun start hstart => ?_
  refine Within.trans ?_ (within_finishRequest _ here unit _)
  refine ⟨Registers.Within.refl f m.registers, fun _ => rfl, fun l hl => ?_⟩
  refine Memory.getElem?_writeList_outside _ _ ?_
  rw [Vector.length_toList]
  rintro ⟨hfrom, hto⟩
  cases hsize : blockSize? unit with
  | none =>
    rw [hsize] at hto
    exact Nat.not_lt.mpr hfrom hto
  | some size =>
    rw [hsize] at hto
    exact hl (hmemory start size l hstart hsize hfrom hto)

end Units

end Machine

/-- The operations with the codes 34, 38, 39 and 40 to 47. -/
def Operation.IsJump (op : Operation) : Prop := op.code = 34 ∨ 38 ≤ op.code ∧ op.code ≤ 47

namespace Instruction

/-- A jump that records where it came from: any but `JSJ`. -/
def Links (i : Instruction) : Prop :=
  i.operation.IsJump ∧ ¬ (i.operation = .jump ∧ i.field.val = 1)

/-- `JOV` and `JNOV`, which ask for the overflow toggle and clear it. -/
def AsksOverflow (i : Instruction) : Prop :=
  i.operation = .jump ∧ (i.field.val = 2 ∨ i.field.val = 3)

/-- `ADD`, `SUB`, `DIV`, and `INC` and `DEC` of rA or rX. -/
def MayOverflow (i : Instruction) : Prop :=
  match i.operation with
  | .add | .sub | .div => True
  | .addressTransfer r => i.field.val ≤ 1 ∧ Register.isIndex r = false
  | _ => False

def Sets (i : Instruction) (r : Register) : Prop :=
  match i.operation with
  | .load s | .loadNegative s | .addressTransfer s => r = s
  | .add | .sub => r = .a
  | .mul | .div => r = .a ∨ r = .x
  -- `NUM` changes rA, `CHAR` both registers, and `HLT` none.
  | .special => i.field.val ≤ 1 ∧ r = .a ∨ i.field.val = 1 ∧ r = .x
  | .shift => r = .a ∨ 2 ≤ i.field.val ∧ r = .x
  | .move => r.val = 1
  | _ => False

end Instruction

namespace Machine

variable {σ : Type} {m m' : Machine σ} {i : Instruction}

/-- The places in memory that an instruction may change. Nothing is said of `MOVE`. -/
def Writes (m : Machine σ) (i : Instruction) (l : Nat) : Prop :=
  match i.operation with
  | .store _ | .storeJ | .storeZero => m.location? (m.effectiveAddress i) = some l
  | .input => ∃ start size, m.location? (m.effectiveAddress i) = some start ∧
      blockSize? i.field = some size ∧ start ≤ l ∧ l < start + size
  | .move => True
  | _ => False

def footprint (m : Machine σ) (i : Instruction) : Footprint where
  pc := i.operation.IsJump
  memory := m.Writes i
  general := i.Sets
  j := i.Links
  comparison := ∃ r, i.operation = .compare r
  raise := i.MayOverflow
  clear := i.AsksOverflow

/-- The end of an instruction leaves all that footprints speak of. -/
theorem within_complete (f : Footprint) (i : Instruction) (o : Outcome σ) :
    o.1.Within f (complete i o).1 := by
  obtain ⟨m, result⟩ := o
  cases result with
  | ok flow => exact ⟨Registers.Within.refl f m.registers, fun _ => rfl, fun _ _ => rfl⟩
  | error fault =>
    unfold complete
    simp only
    split
    · exact ⟨Registers.Within.refl f m.registers, fun _ => rfl, fun _ _ => rfl⟩
    · exact Within.refl f m

/-- An instruction without a fault takes its time. -/
theorem clock_complete {o : Outcome σ} {flow : Flow} (h : complete i o = (m', .ok flow)) :
    m'.clock = o.1.clock + i.operation.time i.field := by
  obtain ⟨m, result⟩ := o
  cases result with
  | ok flow =>
    cases h
    rfl
  | error fault =>
    unfold complete at h
    simp only at h
    split at h
    · cases h
      rfl
    · cases h

section Step

variable [Peripherals σ]

/-- Every operation keeps to its footprint. -/
theorem within_perform (m : Machine σ) (here : Nat) (i : Instruction) :
    m.Within (m.footprint i) (m.perform here i).1 := by
  obtain ⟨operation, index, field, address⟩ := i
  have hunlinked {op : Operation} (hop : op ≠ .jump) (hjump : op.IsJump) :
      Instruction.Links ⟨op, index, field, address⟩ := ⟨hjump, fun h => hop h.1⟩
  cases operation with
  | nop => exact Within.refl _ m
  | add | sub => exact within_atLocation fun _ _ => within_addTo m rfl trivial _
  | mul =>
    refine within_atLocation fun _ _ => within_setPair m ?_ ?_ _
    · exact .inl rfl
    · exact .inr rfl
  | div =>
    refine within_atLocation fun _ _ => within_divide m ?_ ?_ trivial _
    · exact .inl rfl
    · exact .inr rfl
  | special =>
    unfold perform
    simp only
    split
    · rename_i hfield
      refine within_setRegisters (m.registers.within_set ?_ _)
      exact .inl ⟨hfield ▸ Nat.zero_le 1, rfl⟩
    · rename_i hfield
      refine within_setPair m ?_ ?_ _
      · exact .inl ⟨Nat.le_of_eq hfield, rfl⟩
      · exact .inr ⟨hfield, rfl⟩
    · exact Within.refl _ m
  | shift =>
    refine within_shift m here _ ?_ fun h => ?_
    · exact .inl rfl
    · exact .inr ⟨h, rfl⟩
  | move => exact within_moveWords m here _ (fun _ => trivial) rfl 0 _
  | load r | loadNegative r =>
    exact within_atLocation fun _ _ => within_setRegister m here rfl _
  | store r | storeJ | storeZero => exact within_atLocation fun _ hl => within_write m hl _
  | jumpBusy =>
    have hjump : Operation.jumpBusy.IsJump := .inl rfl
    exact within_jumpOnUnit m here _ _ true hjump (hunlinked (by decide) hjump)
  | jumpReady =>
    have hjump : Operation.jumpReady.IsJump := .inr (by decide)
    exact within_jumpOnUnit m here _ _ false hjump (hunlinked (by decide) hjump)
  | control => exact within_controlUnit m here _ _
  | input =>
    refine within_readUnit m here _ _ fun start size l hstart hsize hfrom hto => ?_
    exact ⟨start, size, hstart, hsize, hfrom, hto⟩
  | output => exact within_writeUnit m here _ _
  | jump =>
    have hjump : Operation.jump.IsJump := .inr (by decide)
    refine within_jump m here _ hjump (fun hne => ?_) fun h => ?_
    · exact ⟨hjump, fun h => hne h.2⟩
    · exact ⟨rfl, h⟩
  | registerJump r =>
    have hjump : (Operation.registerJump r).IsJump := by
      simp only [Operation.IsJump, Operation.code]
      omega
    have hother : Operation.registerJump r ≠ .jump := by
      intro h
      cases h
    exact within_jumpIf m here _ _ hjump (hunlinked hother hjump)
  | addressTransfer r =>
    refine within_transferAddress m here _ rfl fun hfield hr => ?_
    exact ⟨hfield, hr⟩
  | compare r =>
    refine within_atLocation fun _ _ => within_compareWith m ?_ r _ _
    exact ⟨r, rfl⟩

theorem within_execute (m : Machine σ) (here : Nat) (i : Instruction) :
    m.Within (m.footprint i) (m.execute here i).1 := by
  unfold execute
  split
  · exact within_perform m here i
  · exact Within.refl _ m

/-- A step goes on to the next location, and then its instruction keeps to its footprint, whether
it fails or not. -/
theorem within_step (hfetch : m.fetch = .ok i) : m.advance.Within (m.footprint i) m.step.1 := by
  rw [step_of_fetch_ok hfetch]
  exact (within_execute m.advance m.pc i).trans (within_complete _ i _)

theorem clock_step {flow : Flow} (hfetch : m.fetch = .ok i) (hstep : m.step = (m', .ok flow)) :
    m'.clock = m.clock + i.operation.time i.field := by
  rw [step_of_fetch_ok hfetch] at hstep
  have hcontrol := congrArg Control.clock (control_execute m.advance m.pc i)
  exact (clock_complete hstep).trans (congrArg (· + _) hcontrol)

end Step

section Run

variable [Peripherals σ]

/-- The machine after `n` steps, whether or not they fail. -/
def afterSteps (m : Machine σ) : Nat → Machine σ
  | 0 => m
  | n + 1 => (m.afterSteps n).step.1

theorem afterSteps_succ (m : Machine σ) (n : Nat) :
    m.afterSteps (n + 1) = m.step.1.afterSteps n := by
  induction n with
  | zero => rfl
  | succ n ih => exact congrArg (fun m : Machine σ => m.step.1) ih

/-- A run leaves the machine after some number of steps. -/
theorem resume_eq_afterSteps (m : Machine σ) (first fuel : Nat) :
    ∃ n, n ≤ fuel ∧ (m.resume first fuel).1 = m.afterSteps n := by
  induction fuel generalizing m with
  | zero =>
    refine ⟨0, Nat.le_refl 0, ?_⟩
    rw [resume]
    split
    · rfl
    · split <;> rfl
  | succ fuel ih =>
    rw [resume]
    split
    · exact ⟨0, Nat.zero_le _, rfl⟩
    · split
      · exact ⟨0, Nat.zero_le _, rfl⟩
      · split
        · rename_i next flow hstep
          obtain ⟨n, hn, heq⟩ := ih next
          refine ⟨n + 1, Nat.succ_le_succ hn, ?_⟩
          rw [afterSteps_succ, hstep]
          exact heq
        · rename_i next fault hstep
          refine ⟨1, Nat.succ_le_succ (Nat.zero_le _), ?_⟩
          rw [afterSteps_succ, hstep]
          rfl

/-- A step leaves the overflow toggle on, unless it asks for it. -/
theorem overflow_step (hon : m.registers.overflow = true)
    (hasks : ∀ i, m.fetch = .ok i → ¬ i.AsksOverflow) : m.step.1.registers.overflow = true := by
  cases hfetch : m.fetch with
  | error fault =>
    rw [step_of_fetch_error hfetch]
    exact hon
  | ok i => exact (within_step hfetch).clear (hasks i hfetch) hon

/-- So the toggle is on from one step to another if no step between them asks for it. -/
theorem overflow_afterSteps {j k : Nat} (hjk : j ≤ k)
    (hon : (m.afterSteps j).registers.overflow = true)
    (hasks : ∀ l, j ≤ l → l < k → ∀ i, (m.afterSteps l).fetch = .ok i → ¬ i.AsksOverflow) :
    (m.afterSteps k).registers.overflow = true := by
  induction hjk with
  | refl => exact hon
  | @step k hjk ih =>
    have hbefore := ih fun l hl hlk => hasks l hl (Nat.lt_succ_of_lt hlk)
    exact overflow_step hbefore (hasks k hjk (Nat.lt_succ_self k))

end Run

/-- What a step without a fault changes. The machine goes on to the next location if the
instruction is no jump; the places in memory, the registers and the indicators that it may not
change are as before; and the clock has gone on by the time of the operation. -/
structure Framed (m : Machine σ) (i : Instruction) (m' : Machine σ) : Prop where
  pc : ¬ (i.operation.code = 34 ∨ 38 ≤ i.operation.code ∧ i.operation.code ≤ 47) →
    m'.pc = m.pc + 1
  memory : ∀ l, ¬ m.Writes i l → m'.memory[l]? = m.memory[l]?
  j : ¬ i.Links → m'.registers.j = m.registers.j
  comparison : (∀ r, i.operation ≠ .compare r) → m'.registers.comparison = m.registers.comparison
  raised : m.registers.overflow = false → m'.registers.overflow = true → i.MayOverflow
  cleared : m.registers.overflow = true → m'.registers.overflow = false → i.AsksOverflow
  general : ∀ r, ¬ i.Sets r → m'.registers.get r = m.registers.get r
  clock : m'.clock = m.clock + i.operation.time i.field
  move : i.operation = .move → m'.clock = m.clock + (1 + 2 * i.field.val)

theorem framed_step [Peripherals σ] {flow : Flow} (hfetch : m.fetch = .ok i)
    (hstep : m.step = (m', .ok flow)) : m.Framed i m' := by
  have hwithin := within_step hfetch
  have hclock := clock_step hfetch hstep
  rw [hstep] at hwithin
  refine ⟨hwithin.pc, hwithin.memory, hwithin.j, ?_, ?_, ?_, hwithin.general, hclock, ?_⟩
  · intro hnot
    exact hwithin.comparison fun ⟨r, hr⟩ => hnot r hr
  · intro hoff hon
    refine Classical.byContradiction fun hnot => ?_
    have hwas : m.registers.overflow = true := hwithin.raise hnot hon
    rw [hoff] at hwas
    cases hwas
  · intro hon hoff
    refine Classical.byContradiction fun hnot => ?_
    have hstays := hwithin.clear hnot hon
    rw [hoff] at hstays
    cases hstays
  · intro hmove
    rw [hclock, hmove]
    rfl

/-- Every step without a fault changes only what its instruction may change. Over a run, which
makes one step after the other, the overflow toggle stays on from the step that sets it to the
next `JOV` or `JNOV`. -/
theorem step_frame [Peripherals σ] :
    (∀ (m m' : Machine σ) (i : Instruction) (flow : Flow), m.fetch = .ok i →
      m.step = (m', .ok flow) → m.Framed i m') ∧
    ∀ (m : Machine σ) (start fuel : Nat), ∃ n, n ≤ fuel ∧
      (m.run start fuel).1 = (m.setPc start).afterSteps n ∧
      ∀ j k, j ≤ k → k ≤ n → ((m.setPc start).afterSteps j).registers.overflow = true →
        (∀ l, j ≤ l → l < k → ∀ i, ((m.setPc start).afterSteps l).fetch = .ok i →
          ¬ i.AsksOverflow) →
        ((m.setPc start).afterSteps k).registers.overflow = true := by
  refine ⟨fun m m' i flow => framed_step, fun m start fuel => ?_⟩
  obtain ⟨n, hn, heq⟩ := resume_eq_afterSteps (m.setPc start) m.steps fuel
  refine ⟨n, hn, heq, ?_⟩
  -- The toggle survives every step on the way, so where the run ends does not matter.
  intro j k hjk _ hon hasks
  exact overflow_afterSteps hjk hon hasks

def beforeOverflow : Machine Unattached :=
  (ofImage ⟨4, .halt, none⟩ Unattached.mk
    [Word.wrap false 786753, Word.wrap false 0, Word.wrap false 133,
      Word.wrap false 1]).setRegisters
    (Registers.initial.setA (Word.wrap false 1073741823))

theorem fetch_beforeOverflow : beforeOverflow.fetch = .ok ⟨.add, 0, 5, ⟨false, 3⟩⟩ := rfl

theorem step_beforeOverflow : beforeOverflow.step = (beforeOverflow.step.1, .ok .proceed) :=
  Prod.ext rfl rfl

/-- The sum overflows, and the toggle is still on when the machine has halted. -/
theorem step_frame_overflow :
    beforeOverflow.fetch = .ok ⟨.add, 0, 5, ⟨false, 3⟩⟩ ∧
      beforeOverflow.step = (beforeOverflow.step.1, .ok .proceed) ∧
      beforeOverflow.Framed ⟨.add, 0, 5, ⟨false, 3⟩⟩ beforeOverflow.step.1 ∧
      beforeOverflow.step.1.clock = 2 ∧
      (beforeOverflow.run 0 3).1.steps = 3 ∧
      (beforeOverflow.run 0 3).1.registers.overflow = true := by
  obtain ⟨hstep, hrun⟩ := @step_frame Unattached _
  have hframed := hstep _ _ _ _ fetch_beforeOverflow step_beforeOverflow
  have hsteps : (beforeOverflow.run 0 3).1.steps = 3 := by decide +kernel
  refine ⟨fetch_beforeOverflow, step_beforeOverflow, hframed, hframed.clock, hsteps, ?_⟩
  obtain ⟨n, hn, heq, hkept⟩ := hrun beforeOverflow 0 3
  have hpositive : n ≠ 0 := by
    rintro rfl
    rw [heq] at hsteps
    cases hsteps
  rw [heq]
  refine hkept 1 n (Nat.one_le_iff_ne_zero.mpr hpositive) (Nat.le_refl n) (by decide +kernel) ?_
  intro l hfrom hto i hfetch
  obtain rfl | rfl : l = 1 ∨ l = 2 := by omega
  · cases hfetch
    exact fun hasks => nomatch hasks.1
  · cases hfetch
    exact fun hasks => nomatch hasks.1

end Machine

end MixComputer
