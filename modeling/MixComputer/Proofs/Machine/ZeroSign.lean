import MixComputer.Proofs.Machine.Fault
import MixComputer.Proofs.Machine.Simulation
import MixComputer.Proofs.ZeroSign

/-!
The sign of zero. An instruction that loads, adds, multiplies, moves, enters, compares or jumps
looks at the values of words only, so two machines that differ at most in the signs of zeros come
to the same decision and again differ at most in the signs of zeros.
-/
namespace MixComputer

section Devices

variable {σ τ : Type} [Peripherals σ] [Peripherals τ]

/-- Related devices answer every request in the same way and are related after it. -/
structure Bisimulation (R : σ → τ → Prop) : Prop where
  busy : ∀ d e, R d e → ∀ unit,
    (Peripherals.busy e unit).1 = (Peripherals.busy d unit).1 ∧
      R (Peripherals.busy d unit).2 (Peripherals.busy e unit).2
  control : ∀ d e, R d e → ∀ unit m x,
    (Peripherals.control e unit m x).1 = (Peripherals.control d unit m x).1 ∧
      R (Peripherals.control d unit m x).2 (Peripherals.control e unit m x).2
  input : ∀ d e, R d e → ∀ {n : Nat} (unit : Nat) (block : Vector Word n) (x : Word),
    (Peripherals.input e unit block x).1 = (Peripherals.input d unit block x).1 ∧
      (Peripherals.input e unit block x).2.1 = (Peripherals.input d unit block x).2.1 ∧
      R (Peripherals.input d unit block x).2.2 (Peripherals.input e unit block x).2.2
  output : ∀ d e, R d e → ∀ {n : Nat} (unit : Nat) (block : Vector Word n) (x : Word),
    (Peripherals.output e unit block x).1 = (Peripherals.output d unit block x).1 ∧
      R (Peripherals.output d unit block x).2 (Peripherals.output e unit block x).2

def Bisimilar (d : σ) (e : τ) : Prop := ∃ R, Bisimulation R ∧ R d e

theorem Bisimilar.refl (d : σ) : Bisimilar d d := by
  refine ⟨Eq, ⟨?_, ?_, ?_, ?_⟩, rfl⟩
  · rintro d _ rfl unit
    exact ⟨rfl, rfl⟩
  · rintro d _ rfl unit m x
    exact ⟨rfl, rfl⟩
  · rintro d _ rfl n unit block x
    exact ⟨rfl, rfl, rfl⟩
  · rintro d _ rfl n unit block x
    exact ⟨rfl, rfl⟩

theorem Bisimilar.busy {d : σ} {e : τ} (h : Bisimilar d e) (unit : Nat) :
    (Peripherals.busy e unit).1 = (Peripherals.busy d unit).1 ∧
      Bisimilar (Peripherals.busy d unit).2 (Peripherals.busy e unit).2 := by
  obtain ⟨R, hR, hrelated⟩ := h
  obtain ⟨hanswer, hafter⟩ := hR.busy d e hrelated unit
  exact ⟨hanswer, R, hR, hafter⟩

end Devices

/-- The operations that look at values only: loads, sums, products, moves, address transfers,
comparisons and jumps. -/
def Operation.seesValues : Operation → Bool
  | load _ | loadNegative _ | add | sub | mul | move | addressTransfer _ | compare _ => true
  | jumpBusy | jumpReady | jump | registerJump _ => true
  | _ => false

theorem Operation.code_ne_zero {op : Operation} (h : op.seesValues = true) : op.code ≠ 0 := by
  cases op with
  | nop => cases h
  | load r | loadNegative r | store r | registerJump r | addressTransfer r | compare r =>
    simp only [code]
    omega
  | _ => decide

namespace Machine

variable {σ τ : Type} [Peripherals σ] [Peripherals τ]

/-- The machines differ at most in the signs of zeros, and in devices that behave equally. -/
structure Alike (m : Machine σ) (m' : Machine τ) : Prop where
  config : m'.config = m.config
  registers : m.registers.Alike m'.registers
  memory : m.memory.Alike m'.memory
  pc : m'.pc = m.pc
  clock : m'.clock = m.clock
  steps : m'.steps = m.steps
  halted : m'.halted = m.halted
  anomalies : m'.anomalies = m.anomalies
  devices : Bisimilar m.devices m'.devices

variable {m : Machine σ} {m' : Machine τ} {here : Nat} {a : Address}

section Parts

theorem Alike.setRegisters (h : m.Alike m') {registers registers' : Registers}
    (hr : registers.Alike registers') :
    (m.setRegisters registers).Alike (m'.setRegisters registers') :=
  { h with registers := hr }

theorem Alike.record (h : m.Alike m') (fault : Fault) : (m.record fault).Alike (m'.record fault) :=
  { h with anomalies := congrArg (·.push fault) h.anomalies }

theorem Alike.write (h : m.Alike m') (l : Nat) {v w : Word} (hw : v.Alike w) :
    (m.write l v).Alike (m'.write l w) :=
  { h with memory := h.memory.write l hw }

theorem Alike.withPc (h : m.Alike m') (pc : Nat) :
    ({ m with pc } : Machine σ).Alike ({ m' with pc } : Machine τ) :=
  { h with pc := rfl }

theorem Alike.content (h : m.Alike m') (l : Nat) : (m.content l).Alike (m'.content l) :=
  h.memory.words l

/-- Going on with one location or with none. -/
theorem Alike.atLocation (h : m.Alike m') {a' : Address} (ha : a'.value = a.value)
    {next : Nat → Outcome σ} {next' : Nat → Outcome τ}
    (hnext : ∀ l, Matches Alike (next l) (next' l)) :
    Matches Alike (m.atLocation here a next) (m'.atLocation here a' next') := by
  have hlocation : m'.location? a' = m.location? a := by
    unfold location? Address.location?
    rw [ha, h.memory.size]
  unfold Machine.atLocation
  rw [hlocation, ha]
  split
  · exact hnext _
  · exact ⟨rfl, h⟩

theorem Alike.setRegister (h : m.Alike m') (r : Register) {v w : Word} (hw : v.Alike w) :
    (m.setRegister here r v).Alike (m'.setRegister here r w) := by
  unfold Machine.setRegister
  rw [hw.1, hw.value_eq]
  split
  · have hlow := hw.withMagnitude (weight 2)
    rw [hw.1] at hlow
    exact (h.record _).setRegisters (h.registers.set r hlow)
  · exact h.setRegisters (h.registers.set r hw)

end Parts

section Arithmetic

theorem Alike.addTo (h : m.Alike m') (r : Register) (n : Int) :
    (m.addTo r n).Alike (m'.addTo r n) := by
  have hr := h.registers.general r
  have hset := h.registers.set r (Arithmetic.alike_add hr n)
  unfold Machine.addTo
  simp only [Arithmetic.overflows_alike hr, h.registers.overflow]
  exact h.setRegisters ⟨hset.general, hset.j, rfl, hset.comparison⟩

theorem Alike.setPair (h : m.Alike m') {words words' : Word × Word}
    (h1 : words.1.Alike words'.1) (h2 : words.2.Alike words'.2) :
    (m.setPair words).Alike (m'.setPair words') :=
  h.setRegisters ((h.registers.set .a h1).set .x h2)

theorem Alike.increase (h : m.Alike m') (r : Register) (n : Int) :
    (m.increase here r n).Alike (m'.increase here r n) := by
  unfold Machine.increase
  split
  · exact h.setRegister r (Arithmetic.alike_add (h.registers.general r) n)
  · exact h.addTo r n

theorem Alike.transferAddress (h : m.Alike m') (r : Register) (a : Address) (variant : Nat) :
    (m.transferAddress here r a variant).Alike (m'.transferAddress here r a variant) := by
  unfold Machine.transferAddress
  split
  · exact h.increase r _
  · exact h.increase r _
  · exact h.setRegister r (Word.Alike.refl _)
  · exact h.setRegister r (Word.Alike.refl _)

/-- Words are compared by their values. -/
theorem Alike.compareWith (h : m.Alike m') (r : Register) (f : Field) {v w : Word}
    (hw : v.Alike w) : (m.compareWith r f v).Alike (m'.compareWith r f w) := by
  have hresult : compare (f.extract (m'.registers.get r)) (f.extract w) =
      compare (f.extract (m.registers.get r)) (f.extract v) :=
    congrArg₂ (fun v w : Int => compare v w) (f.alike_extract (h.registers.general r)).value_eq
      (f.alike_extract hw).value_eq
  unfold Machine.compareWith
  rw [hresult]
  exact h.setRegisters
    ⟨h.registers.general, h.registers.j, h.registers.overflow, rfl⟩

theorem Alike.moveWords (h : m.Alike m') (a : Address) (k count : Nat) :
    Matches Alike (m.moveWords here a k count) (m'.moveWords here a k count) := by
  induction count generalizing m m' k with
  | zero => exact ⟨rfl, h⟩
  | succ count ih =>
    have htarget : (Address.ofWord (m'.registers.get 1)).value =
        (Address.ofWord (m.registers.get 1)).value := (h.registers.general 1).value_eq
    refine h.atLocation rfl fun source => h.atLocation htarget fun target => ?_
    exact ih ((h.write target (h.content source)).increase 1 1) (k + 1)

end Arithmetic

section Jumps

theorem Alike.jumpIf (h : m.Alike m') (condition : Bool) (a : Address) :
    Matches Alike (m.jumpIf here condition a) (m'.jumpIf here condition a) := by
  have hlinked : ({ m.registers with j := m.pc % weight 2 } : Registers).Alike
      { m'.registers with j := m'.pc % weight 2 } :=
    ⟨h.registers.general, congrArg (· % weight 2) h.pc, h.registers.overflow,
      h.registers.comparison⟩
  unfold Machine.jumpIf
  cases condition with
  | true => exact h.atLocation rfl fun l => ⟨rfl, (h.setRegisters hlinked).withPc l⟩
  | false => exact ⟨rfl, h.setRegisters hlinked⟩

theorem Alike.jump (h : m.Alike m') (a : Address) (variant : Nat) :
    Matches Alike (m.jump here a variant) (m'.jump here a variant) := by
  have hcleared : (m.setRegisters { m.registers with overflow := false }).Alike
      (m'.setRegisters { m'.registers with overflow := false }) :=
    h.setRegisters ⟨h.registers.general, h.registers.j, rfl, h.registers.comparison⟩
  unfold Machine.jump
  rw [h.registers.overflow, h.registers.comparison]
  split
  case h_2 => exact h.atLocation rfl fun l => ⟨rfl, h.withPc l⟩
  case h_3 | h_4 => exact hcleared.jumpIf _ a
  all_goals exact h.jumpIf _ a

theorem Alike.jumpOnUnit (h : m.Alike m') (a : Address) (unit : Nat) (busy : Bool) :
    Matches Alike (m.jumpOnUnit here a unit busy) (m'.jumpOnUnit here a unit busy) := by
  obtain ⟨hanswer, hdevices⟩ := h.devices.busy unit
  have hasked : ({ m with devices := (Peripherals.busy m.devices unit).2 } : Machine σ).Alike
      ({ m' with devices := (Peripherals.busy m'.devices unit).2 } : Machine τ) :=
    { h with devices := hdevices }
  unfold Machine.jumpOnUnit
  simp only [hanswer]
  exact hasked.jumpIf _ a

end Jumps

section Step

/-- Each operation that looks at values only. -/
theorem Alike.perform (h : m.Alike m') (here : Nat) {i : Instruction}
    (hop : i.operation.seesValues = true) :
    Matches Alike (m.perform here i) (m'.perform here i) := by
  have haddress : m'.effectiveAddress i = m.effectiveAddress i :=
    congrArg i.address.add (h.registers.indexValue_eq i.index)
  have hfield (l : Nat) : (i.spec.extract (m.content l)).Alike (i.spec.extract (m'.content l)) :=
    i.spec.alike_extract (h.content l)
  obtain ⟨operation, index, field, address⟩ := i
  unfold Machine.perform
  rw [haddress]
  cases operation with
  | add =>
    refine h.atLocation rfl fun l => ⟨rfl, ?_⟩
    rw [(hfield l).value_eq]
    exact h.addTo .a _
  | sub =>
    refine h.atLocation rfl fun l => ⟨rfl, ?_⟩
    rw [(hfield l).negated.value_eq]
    exact h.addTo .a _
  | mul =>
    refine h.atLocation rfl fun l => ⟨rfl, ?_⟩
    obtain ⟨ha, hx⟩ := Arithmetic.alike_multiply (h.registers.general .a) (hfield l)
    exact h.setPair ha hx
  | move => exact h.moveWords _ 0 _
  | load r => exact h.atLocation rfl fun l => ⟨rfl, h.setRegister r (hfield l)⟩
  | loadNegative r => exact h.atLocation rfl fun l => ⟨rfl, h.setRegister r (hfield l).negated⟩
  | addressTransfer r => exact ⟨rfl, h.transferAddress r _ _⟩
  | compare r => exact h.atLocation rfl fun l => ⟨rfl, h.compareWith r _ (h.content l)⟩
  | jumpBusy => exact h.jumpOnUnit _ _ true
  | jumpReady => exact h.jumpOnUnit _ _ false
  | jump => exact h.jump _ _
  | registerJump r =>
    have hcondition := (h.registers.general r).value_eq
    simp only [hcondition]
    exact h.jumpIf _ _
  | nop | div | special | shift | store r | storeJ | storeZero | control | input | output =>
    cases hop

theorem Alike.execute (h : m.Alike m') (here : Nat) {i : Instruction}
    (hop : i.operation.seesValues = true) :
    Matches Alike (m.execute here i) (m'.execute here i) := by
  unfold Machine.execute
  split
  · exact h.perform here hop
  · exact ⟨rfl, h⟩

theorem alike_complete (i : Instruction) {o : Outcome σ} {o' : Outcome τ}
    (h : Matches Alike o o') : Matches Alike (complete i o) (complete i o') := by
  obtain ⟨m, result⟩ := o
  obtain ⟨m', result'⟩ := o'
  obtain ⟨hresult, hm⟩ := h
  obtain rfl : result' = result := hresult
  simp only at hm
  cases result' with
  | ok flow =>
    refine ⟨rfl, { hm with clock := ?_, halted := ?_ }⟩
    · exact congrArg (· + i.operation.time i.field) hm.clock
    · exact congrArg (· || flow == .halt) hm.halted
  | error fault =>
    unfold complete
    simp only [hm.config]
    split
    · refine ⟨rfl, { hm.record fault with clock := ?_ }⟩
      exact congrArg (· + i.operation.time i.field) hm.clock
    · exact ⟨rfl, hm⟩

/-- The word of such an instruction is not zero, so it is the same in both memories. -/
theorem Alike.fetch (h : m.Alike m') {i : Instruction} (hfetch : m.fetch = .ok i)
    (hop : i.operation.seesValues = true) : m'.fetch = .ok i := by
  obtain ⟨hpc, w, hword, hdecode⟩ := fetch_eq_ok hfetch
  obtain ⟨v, hv, hcode⟩ := code_of_fetch hfetch
  obtain rfl : w = v := Option.some.inj (hword.symm.trans hv)
  have hne : w.magnitude ≠ 0 := by
    intro hzero
    refine Operation.code_ne_zero hop (hcode.trans ?_)
    rw [Word.byte, hzero, Nat.zero_div]
    rfl
  have hcontent : m.content m.pc = w := by
    rw [Machine.content, Array.getD_eq_getD_getElem?]
    exact congrArg (·.getD Word.zero) hword
  have hsame : m'.content m.pc = w := by
    have halike := h.content m.pc
    rw [hcontent] at halike
    exact halike.eq_of_ne_zero hne
  have hword' : m'.word? m'.pc = some w := by
    rw [h.pc, ← hsame, Machine.content, Array.getD_eq_getD_getElem?, word?,
      Array.getElem?_eq_getElem (h.memory.size ▸ hpc)]
    rfl
  simp only [Machine.fetch, hword', hdecode]

theorem Alike.advance (h : m.Alike m') : m.advance.Alike m'.advance :=
  { h with pc := congrArg (· + 1) h.pc, steps := congrArg (· + 1) h.steps }

/-- The sign of zero has no influence on what such an instruction does. -/
theorem alike_step (h : m.Alike m') {i : Instruction} (hfetch : m.fetch = .ok i)
    (hop : i.operation.seesValues = true) :
    m'.step.2 = m.step.2 ∧ m.step.1.Alike m'.step.1 := by
  rw [step_of_fetch_ok hfetch, step_of_fetch_ok (h.fetch hfetch hop), h.pc]
  exact alike_complete i (h.advance.execute m.pc hop)

def beforeZeroLoad (negative : Bool) : Machine Unattached :=
  ofImage ⟨2, .halt, none⟩ ⟨⟩ [Word.wrap false 262472, Word.wrap negative 0]

/-- Either zero arrives, and all else is the same. -/
theorem alike_step_load :
    (beforeZeroLoad false).Alike (beforeZeroLoad true) ∧
      (beforeZeroLoad true).step.2 = (beforeZeroLoad false).step.2 ∧
      (beforeZeroLoad false).step.1.Alike (beforeZeroLoad true).step.1 ∧
      (beforeZeroLoad false).step.1.registers.a = Word.wrap false 0 ∧
      (beforeZeroLoad true).step.1.registers.a = Word.wrap true 0 := by
  have hzeros : (Word.wrap false 0).Alike (Word.wrap true 0) := Word.alike_of_zero rfl rfl
  have halike : (beforeZeroLoad false).Alike (beforeZeroLoad true) :=
    { config := rfl
      registers := Registers.Alike.refl _
      memory := (Memory.Alike.refl #[Word.wrap false 262472, Word.zero]).write 1 hzeros
      pc := rfl
      clock := rfl
      steps := rfl
      halted := rfl
      anomalies := rfl
      devices := Bisimilar.refl _ }
  have hfetch : (beforeZeroLoad false).fetch = .ok ⟨.load .a, 0, 5, ⟨false, 1⟩⟩ := rfl
  obtain ⟨hresult, hafter⟩ := alike_step halike hfetch rfl
  exact ⟨halike, hresult, hafter, by decide +kernel, by decide +kernel⟩

end Step

end Machine

end MixComputer
