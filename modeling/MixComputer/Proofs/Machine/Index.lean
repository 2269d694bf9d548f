import MixComputer.Proofs.Arithmetic
import MixComputer.Proofs.Machine.Operand

/-!
Words that go into registers. rA and rX take a word as it is. An index register takes the low two
bytes of it, and a word that had more is recorded. Where a word comes from decides what sign it has
if it is zero: a load finds it in memory, an address that is entered has it from the instruction,
and a sum has the sign that the register had.
-/
namespace MixComputer

namespace Word

variable {w : Word} {v : Int} {zeroSign : Bool}

/-- A word by its value, and by the sign that it has if its value is zero. -/
def Reads (w : Word) (v : Int) (zeroSign : Bool) : Prop :=
  w.value = v ∧ (v = 0 → w.negative = zeroSign)

theorem reads_self (w : Word) : w.Reads w.value w.negative := ⟨rfl, fun _ => rfl⟩

theorem Reads.negated (h : w.Reads v zeroSign) : w.negated.Reads (-v) (!zeroSign) := by
  obtain ⟨rfl, hzero⟩ := h
  refine ⟨w.value_negated, ?_⟩
  intro hv
  exact congrArg Bool.not (hzero (Int.neg_eq_zero.mp hv))

theorem Reads.magnitude (h : w.Reads v zeroSign) : w.magnitude = v.natAbs := by
  rw [← h.1, natAbs_value]

theorem Reads.negative (h : w.Reads v zeroSign) :
    w.negative = if v = 0 then zeroSign else decide (v < 0) := by
  by_cases hv : v = 0
  · rw [if_pos hv]
    exact h.2 hv
  · rw [if_neg hv]
    have hvalue := h.1
    unfold value at hvalue
    cases hsign : w.negative with
    | false =>
      rw [hsign, if_neg (by decide)] at hvalue
      exact (decide_eq_false (by omega)).symm
    | true =>
      rw [hsign, if_pos rfl] at hvalue
      exact (decide_eq_true (by omega)).symm

end Word

/-- A sum that fits into a register, where a sum of zero has the sign of the register. -/
theorem Arithmetic.reads_add {r : Word} {n : Int} (h : Word.Fits (r.value + n)) :
    (add r n).Reads (r.value + n) r.negative := by
  refine ⟨value_add h, ?_⟩
  intro hzero
  rw [add_of_zero hzero, Word.negative_wrap]

namespace Machine

variable {σ : Type} {m : Machine σ} {i : Instruction} {r : Register} {v : Int} {zeroSign : Bool}

def firstIndex : Register := ⟨1, by decide⟩

section Register

variable (m : Machine σ) (here : Nat) (r : Register) (w : Word)

theorem get_setRegister :
    (m.setRegister here r w).registers.get r =
      if Register.isIndex r && weight 2 ≤ w.magnitude then w.withMagnitude (w.magnitude % weight 2)
      else w := by
  unfold setRegister
  split <;> exact (Registers.get_set m.registers r r _).trans (if_pos rfl)

theorem anomalies_setRegister :
    (m.setRegister here r w).anomalies =
      if Register.isIndex r && weight 2 ≤ w.magnitude then
        m.anomalies.push (.indexAnomaly here r w.value)
      else m.anomalies := by
  unfold setRegister
  split <;> rfl

/-- A word that is not recorded arrives as it is. -/
theorem get_setRegister_of_anomalies (h : (m.setRegister here r w).anomalies = m.anomalies) :
    (m.setRegister here r w).registers.get r = w := by
  rw [anomalies_setRegister] at h
  rw [get_setRegister]
  by_cases hlarge : (Register.isIndex r && weight 2 ≤ w.magnitude) = true
  · rw [if_pos hlarge] at h
    have hsize := congrArg Array.size h
    rw [Array.size_push] at hsize
    omega
  · rw [if_neg hlarge]

theorem overflow_setRegister :
    (m.setRegister here r w).registers.overflow = m.registers.overflow := by
  unfold setRegister
  split <;> rfl

theorem memory_setRegister : (m.setRegister here r w).memory = m.memory := by
  unfold setRegister
  split <;> rfl

theorem negative_get_setRegister :
    ((m.setRegister here r w).registers.get r).negative = w.negative := by
  rw [get_setRegister]
  split <;> rfl

/-- Two bytes of a word arrive in an index register, and all of it in rA and rX. -/
theorem magnitude_get_setRegister :
    ((m.setRegister here r w).registers.get r).magnitude =
      if Register.isIndex r then w.magnitude % weight 2 else w.magnitude := by
  have hword := w.magnitude_lt_numeral
  rw [get_setRegister, weight_two]
  cases hindex : Register.isIndex r with
  | false => rfl
  | true =>
    by_cases hlarge : 4096 ≤ w.magnitude
    · simp only [hlarge, decide_true, Bool.and_self, if_true, Word.withMagnitude,
        Word.magnitude_wrap, weight_five]
      omega
    · simp only [hlarge, decide_false, Bool.and_false, Bool.false_eq_true, if_false, if_true]
      omega

end Register

section Addresses

variable (hindex : m.registers.IndexBounded)
include hindex

/-- An address and an index have two bytes each. -/
theorem natAbs_exactAddress_le (hfetch : m.fetch = .ok i) : (m.exactAddress i).natAbs ≤ 8190 := by
  obtain ⟨-, w, -, hdecode⟩ := fetch_eq_ok hfetch
  have haddress := Instruction.address_lt_of_decode hdecode
  have hvalue := i.address.natAbs_value
  have hadded := hindex.natAbs_indexValue i.index
  rw [weight_two] at haddress hadded
  unfold exactAddress
  omega

/-- An effective address is a word. If it is zero it has the sign of the address in the
instruction. -/
theorem reads_effectiveAddress (hfetch : m.fetch = .ok i) :
    (m.effectiveAddress i).toWord.Reads (m.exactAddress i) i.address.negative := by
  have hle := natAbs_exactAddress_le hindex hfetch
  have hvalue := value_effectiveAddress hfetch
  have hmagnitude := (m.effectiveAddress i).natAbs_value
  have hlt : (m.effectiveAddress i).magnitude < weight 5 := by
    rw [weight_five]
    omega
  constructor
  · rw [← hvalue]
    exact Word.value_wrap _ hlt
  · intro hzero
    have hsign := m.negative_effectiveAddress i
    rwa [if_pos hzero] at hsign

theorem fits_get_add (hr : Register.isIndex r = true) {n : Int} (hn : n.natAbs ≤ 8190) :
    Word.Fits ((m.registers.get r).value + n) := by
  have hbound := hindex r hr
  have hvalue := (m.registers.get r).natAbs_value
  rw [weight_two] at hbound
  rw [Word.Fits, weight_five]
  omega

end Addresses

/-- The next instruction sets the register `r` to `v`, and to a zero with the given sign if `v` is
zero: it loads a field of memory, adds an effective address to an index register, or enters an
effective address. -/
inductive Sets (m : Machine σ) : Register → Int → Bool → Prop
  | load {f : Field} {l : Nat} {r : Register} (h : m.AppliesAt (.load r) f l) :
      m.Sets r (f.extract (m.content l)).value (f.extract (m.content l)).negative
  | loadNegative {f : Field} {l : Nat} {r : Register} (h : m.AppliesAt (.loadNegative r) f l) :
      m.Sets r (-(f.extract (m.content l)).value) (!(f.extract (m.content l)).negative)
  | increase {i : Instruction} {r : Register} (h : m.Transfers i r 0)
      (hr : Register.isIndex r = true) :
      m.Sets r ((m.registers.get r).value + m.exactAddress i) (m.registers.get r).negative
  | decrease {i : Instruction} {r : Register} (h : m.Transfers i r 1)
      (hr : Register.isIndex r = true) :
      m.Sets r ((m.registers.get r).value - m.exactAddress i) (m.registers.get r).negative
  | enter {i : Instruction} {r : Register} (h : m.Transfers i r 2) :
      m.Sets r (m.exactAddress i) i.address.negative
  | enterNegative {i : Instruction} {r : Register} (h : m.Transfers i r 3) :
      m.Sets r (-m.exactAddress i) (!i.address.negative)

variable [Peripherals σ]

/-- A step that sets the register `r` to as much of `v` as it has room for. -/
structure SetsTo (m : Machine σ) (r : Register) (v : Int) (zeroSign : Bool) : Prop where
  ok : m.step.2 = .ok .proceed
  negative : (m.step.1.registers.get r).negative = if v = 0 then zeroSign else decide (v < 0)
  magnitude : (m.step.1.registers.get r).magnitude =
    if Register.isIndex r then v.natAbs % weight 2 else v.natAbs
  anomalies : m.step.1.anomalies =
    if Register.isIndex r && weight 2 ≤ v.natAbs then m.anomalies.push (.indexAnomaly m.pc r v)
    else m.anomalies
  overflow : m.step.1.registers.overflow = m.registers.overflow

section Step

theorem AppliesAt.step_load {f : Field} {l : Nat} (h : m.AppliesAt (.load r) f l) :
    ∃ i : Instruction, m.step =
      complete i (m.advance.setRegister m.pc r (f.extract (m.content l))).proceed := by
  obtain ⟨i, -, -, hstep⟩ := h.exists_step rfl
    (fun f l => (m.advance.setRegister m.pc r (f.extract (m.content l))).proceed)
    (fun i hi => by
      rw [perform, hi]
      rfl)
  exact ⟨i, hstep⟩

/-- The word that is set is exact: what is lost is lost in the register. -/
theorem Sets.exists_step (hindex : m.registers.IndexBounded) (h : m.Sets r v zeroSign) :
    ∃ (i : Instruction) (w : Word),
      m.step = complete i (m.advance.setRegister m.pc r w).proceed ∧ w.Reads v zeroSign := by
  cases h with
  | load h =>
    obtain ⟨i, hstep⟩ := h.step_load
    exact ⟨i, _, hstep, Word.reads_self _⟩
  | @loadNegative f l r h =>
    obtain ⟨i, -, -, hstep⟩ := h.exists_step rfl
      (fun f l => (m.advance.setRegister m.pc r (f.extract (m.content l)).negated).proceed)
      (fun i hi => by
        rw [perform, hi]
        rfl)
    exact ⟨i, _, hstep, (Word.reads_self _).negated⟩
  | @increase i r h hr =>
    have hle := natAbs_exactAddress_le hindex h.1
    refine ⟨i, _, (h.step_eq (by decide)).trans ?_,
      Arithmetic.reads_add (fits_get_add hindex hr hle)⟩
    simp only [transferAddress, Machine.increase, hr, if_true, value_effectiveAddress h.1]
    rfl
  | @decrease i r h hr =>
    have hle := natAbs_exactAddress_le hindex h.1
    have hneg : (-m.exactAddress i).natAbs ≤ 8190 := by omega
    refine ⟨i, _, (h.step_eq (by decide)).trans ?_,
      Arithmetic.reads_add (fits_get_add hindex hr hneg)⟩
    simp only [transferAddress, Machine.increase, hr, if_true, value_effectiveAddress h.1]
    rfl
  | @enter i r h =>
    exact ⟨i, _, h.step_eq (by decide), reads_effectiveAddress hindex h.1⟩
  | @enterNegative i r h =>
    exact ⟨i, _, h.step_eq (by decide), (reads_effectiveAddress hindex h.1).negated⟩

/-- A register gets the sign of what it is set to. An index register keeps two bytes of it, and what
it was is recorded once if it had more; in rA and rX there is room for it. -/
theorem step_sets (hindex : m.registers.IndexBounded) (h : m.Sets r v zeroSign) :
    m.SetsTo r v zeroSign := by
  obtain ⟨i, w, hstep, hw⟩ := h.exists_step hindex
  have hregisters : m.step.1.registers = (m.advance.setRegister m.pc r w).registers := by
    rw [hstep]
    rfl
  have hanomalies : m.step.1.anomalies = (m.advance.setRegister m.pc r w).anomalies := by
    rw [hstep]
    rfl
  refine ⟨?_, ?_, ?_, ?_, ?_⟩
  · rw [hstep]
    rfl
  · rw [hregisters, negative_get_setRegister, hw.negative]
  · rw [hregisters, magnitude_get_setRegister, hw.magnitude]
  · rw [hanomalies, anomalies_setRegister, hw.magnitude, hw.1]
    rfl
  · rw [hregisters, overflow_setRegister]
    rfl

end Step

def beforeEntries : Machine Unattached :=
  (ofImage ⟨4, .halt, none⟩ Unattached.mk
    [Word.wrap false 1073488049, Word.wrap false 247]).setRegisters
    (Registers.initial.set ⟨2, by decide⟩ (Word.wrap false 4095))

/-- The sum has more than two bytes, and the zero gets a sign. -/
theorem step_sets_largest :
    beforeEntries.registers.IndexBounded ∧ beforeEntries.Sets firstIndex 8190 false ∧
      beforeEntries.SetsTo firstIndex 8190 false ∧
      beforeEntries.step.1.registers.get firstIndex = Word.wrap false 4094 ∧
      beforeEntries.step.1.anomalies = #[.indexAnomaly 0 1 8190] ∧
      beforeEntries.step.1.registers.IndexBounded ∧ beforeEntries.step.1.Sets .x 0 true ∧
      beforeEntries.step.1.SetsTo .x 0 true ∧
      beforeEntries.step.1.step.1.registers.x = Word.wrap true 0 := by
  have hbounded : beforeEntries.registers.IndexBounded := by decide +kernel
  have hbounded' : beforeEntries.step.1.registers.IndexBounded := by decide +kernel
  have henter : beforeEntries.Transfers ⟨.addressTransfer firstIndex, 2, 2, ⟨false, 4095⟩⟩
      firstIndex 2 := ⟨rfl, rfl, rfl⟩
  have hnegative : beforeEntries.step.1.Transfers ⟨.addressTransfer .x, 0, 3, ⟨false, 0⟩⟩ .x 3 :=
    ⟨rfl, rfl, rfl⟩
  have hlarge : beforeEntries.Sets firstIndex 8190 false := Sets.enter henter
  have hzero : beforeEntries.step.1.Sets .x 0 true := Sets.enterNegative hnegative
  exact ⟨hbounded, hlarge, step_sets hbounded hlarge, rfl, rfl, hbounded', hzero,
    step_sets hbounded' hzero, rfl⟩

end Machine

end MixComputer
