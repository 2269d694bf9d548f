import MixComputer.Proofs.Machine.Change
import MixComputer.Proofs.Machine.Control
import MixComputer.Proofs.Machine.Reachable
import MixComputer.Proofs.Machine.Simulation

/-!
Faulty `F` parts. Each operation says by itself which `F` parts it rejects, and they are judged
before anything is done, so that a rejected one has no effect. The policy of the machine only
decides what comes of the fault: it ends the run, or it is recorded and the instruction skipped. A
run that meets no such fault is the same under both policies.
-/
namespace MixComputer

/-- The `F` parts that an operation has no meaning for: codes that are no partial field, variants
that do not exist, and units that do not exist. -/
def Operation.Rejects : Operation → Nat → Prop
  | nop, _ | move, _ => False
  | special, f => 3 ≤ f
  | shift, f | registerJump _, f => 6 ≤ f
  | jump, f => 10 ≤ f
  | addressTransfer _, f => 4 ≤ f
  | jumpBusy, f | control, f | input, f | output, f | jumpReady, f => 20 < f
  | _, f => ¬ ∃ left right, left ≤ right ∧ right ≤ 5 ∧ f = 8 * left + right

theorem Field.isSome_ofCode?_iff (code : Nat) :
    (Field.ofCode? code).isSome = true ↔
      ∃ left right, left ≤ right ∧ right ≤ 5 ∧ code = 8 * left + right := by
  unfold ofCode? ofBounds?
  constructor
  · intro h
    split at h
    · rename_i hbounds
      exact ⟨code / 8, code % 8, hbounds.1, hbounds.2, by omega⟩
    · cases h
  · rintro ⟨left, right, hle, hright, rfl⟩
    rw [dif_pos (by omega)]
    rfl

theorem Operation.admits_iff (op : Operation) (f : Byte) :
    op.admits f = true ↔ ¬ op.Rejects f.val := by
  cases op with
  | nop | move => exact iff_of_true rfl not_false
  | special | shift | jump => exact decide_eq_true_iff.trans Nat.not_le.symm
  | registerJump r | addressTransfer r => exact decide_eq_true_iff.trans Nat.not_le.symm
  | jumpBusy | control | input | output | jumpReady =>
    exact decide_eq_true_iff.trans Nat.not_lt.symm
  | add | sub | mul | div | storeJ | storeZero =>
    exact (Field.isSome_ofCode?_iff f.val).trans Classical.not_not.symm
  | load r | loadNegative r | store r | compare r =>
    exact (Field.isSome_ofCode?_iff f.val).trans Classical.not_not.symm

/-- An `F` part that is admitted is not faulty. -/
theorem Fault.RaisedAt.isFieldFault_eq {here : Nat} {fault : Fault} (h : fault.RaisedAt here) :
    fault.isFieldFault = false := by
  cases h <;> rfl

def Machine.withPolicy {σ : Type} (m : Machine σ) (policy : FieldErrorPolicy) : Machine σ :=
  { m with config := { m.config with fieldErrors := policy } }

def Outcome.withPolicy {σ : Type} (o : Outcome σ) (policy : FieldErrorPolicy) : Outcome σ :=
  (o.1.withPolicy policy, o.2)

def Outcome.FieldsHold {σ : Type} (o : Outcome σ) : Prop :=
  ∀ fault, o.2 = .error fault → fault.isFieldFault = false

namespace Machine

variable {σ : Type} {m : Machine σ} {i : Instruction}

section Complete

/-- The end of an instruction records nothing, unless it skips. -/
theorem anomalies_complete {o : Outcome σ}
    (h : o.FieldsHold ∨ o.1.config.fieldErrors = .halt) :
    (complete i o).1.anomalies = o.1.anomalies := by
  obtain ⟨m, result⟩ := o
  cases result with
  | ok flow => rfl
  | error fault =>
    have hstops : ¬ (fault.isFieldFault && m.config.fieldErrors == .skip) = true := by
      rcases h with hholds | hhalt
      · simp [hholds fault rfl]
      · simp [show m.config.fieldErrors = .halt from hhalt]
    unfold complete
    simp only [if_neg hstops]
    rfl

theorem config_complete (o : Outcome σ) : (complete i o).1.config = o.1.config := by
  obtain ⟨m, result⟩ := o
  cases result with
  | ok flow => rfl
  | error fault =>
    unfold complete
    simp only
    split <;> rfl

/-- No faulty `F` part is left where they are skipped. -/
theorem fieldsHold_complete {o : Outcome σ} (h : o.1.config.fieldErrors = .skip) :
    (complete i o).FieldsHold := by
  obtain ⟨m, result⟩ := o
  intro fault hfault
  cases result with
  | ok flow => cases hfault
  | error cause =>
    unfold complete at hfault
    simp only at h hfault
    split at hfault
    · cases hfault
    · rename_i hstops
      cases hfault
      simpa [h] using hstops

/-- The policies differ in nothing else. -/
theorem complete_withPolicy {o : Outcome σ} (hhalt : o.1.config.fieldErrors = .halt)
    (hholds : (complete i o).FieldsHold) :
    complete i (o.withPolicy .skip) = (complete i o).withPolicy .skip := by
  obtain ⟨m, result⟩ := o
  cases result with
  | ok flow => rfl
  | error fault =>
    have hstops : ¬ (fault.isFieldFault && m.config.fieldErrors == .skip) = true := by
      simp [show m.config.fieldErrors = .halt from hhalt]
    unfold complete at hholds
    simp only [if_neg hstops] at hholds
    have hfault : fault.isFieldFault = false := hholds fault rfl
    unfold Outcome.withPolicy complete
    simp [hfault, fail]

end Complete

theorem fieldsHold_fetch {fault : Fault} (h : m.fetch = .error fault) :
    fault.isFieldFault = false := by
  unfold fetch at h
  split at h
  · cases h
    rfl
  · split at h <;> cases h
    rfl

variable [Peripherals σ]

section Execute

theorem execute_of_rejects (m : Machine σ) (here : Nat) (h : i.operation.Rejects i.field) :
    m.execute here i = m.fail (.field here i.field i.operation) := by
  unfold execute
  rw [if_neg fun hadmits => (Operation.admits_iff _ _).mp hadmits h]

theorem execute_of_not_rejects (m : Machine σ) (here : Nat)
    (h : ¬ i.operation.Rejects i.field) : m.execute here i = m.perform here i := by
  unfold execute
  rw [if_pos ((Operation.admits_iff _ _).mpr h)]

theorem fieldsHold_execute (m : Machine σ) (here : Nat) (h : ¬ i.operation.Rejects i.field) :
    (m.execute here i).FieldsHold := by
  rw [execute_of_not_rejects m here h]
  exact fun fault hfault => ((arises_perform m here i).fault fault hfault).isFieldFault_eq

/-- The `F` part alone decides whether it is faulty. -/
theorem fieldFault_execute_iff (m : Machine σ) (here : Nat) (i : Instruction) (fault : Fault) :
    (m.execute here i).2 = .error fault ∧ fault.isFieldFault = true ↔
      i.operation.Rejects i.field ∧ fault = .field here i.field i.operation := by
  constructor
  · rintro ⟨hfault, hfield⟩
    by_cases h : i.operation.Rejects i.field
    · rw [execute_of_rejects m here h] at hfault
      cases hfault
      exact ⟨h, rfl⟩
    · rw [fieldsHold_execute m here h fault hfault] at hfield
      cases hfield
  · rintro ⟨h, rfl⟩
    rw [execute_of_rejects m here h]
    exact ⟨rfl, rfl⟩

theorem execute_withPolicy (m : Machine σ) (policy : FieldErrorPolicy) (here : Nat)
    (i : Instruction) :
    (m.withPolicy policy).execute here i = (m.execute here i).withPolicy policy := by
  refine (execute_withConfig m here { m.config with fieldErrors := policy } i).trans ?_
  rw [Outcome.withPolicy, withPolicy, config_execute]

end Execute

section Step

theorem config_step (m : Machine σ) : m.step.1.config = m.config := by
  unfold step
  split
  · rfl
  · exact (config_complete _).trans (config_execute m.advance m.pc _)

/-- A faulty `F` part that is skipped leaves its trace in the anomalies, and no other. -/
theorem step_of_rejects (hskip : m.config.fieldErrors = .skip) (hfetch : m.fetch = .ok i)
    (h : i.operation.Rejects i.field) :
    m.step =
      ({ m with
        pc := m.pc + 1
        steps := m.steps + 1
        clock := m.clock + i.operation.time i.field
        anomalies := m.anomalies.push (.field m.pc i.field i.operation) }, .ok .proceed) := by
  rw [step_of_fetch_ok hfetch, execute_of_rejects m.advance m.pc h]
  have hskips : m.advance.config.fieldErrors = .skip := hskip
  unfold fail complete
  simp only [hskips]
  rfl

/-- Nothing else that a step records is a faulty `F` part. -/
theorem gains_step (h : m.config.fieldErrors = .halt ∨
    ∀ i, m.fetch = .ok i → ¬ i.operation.Rejects i.field) : m.Gains m.step.1 := by
  cases hfetch : m.fetch with
  | error fault => exact Gains.of_eq (by rw [step_of_fetch_error hfetch])
  | ok i =>
    rw [step_of_fetch_ok hfetch]
    have hexecute : m.Gains (m.advance.execute m.pc i).1 :=
      (Gains.of_eq rfl : m.Gains m.advance).trans (changes_execute m.advance m.pc i).gains
    refine hexecute.trans (Gains.of_eq (anomalies_complete ?_))
    rcases h with hhalt | hholds
    · exact .inr ((congrArg _ (config_execute m.advance m.pc i)).trans hhalt)
    · exact .inl (fieldsHold_execute m.advance m.pc (hholds i hfetch))

/-- The faulty `F` parts that end a step. -/
theorem fieldFault_step_iff (hhalt : m.config.fieldErrors = .halt) (fault : Fault) :
    m.step.2 = .error fault ∧ fault.isFieldFault = true ↔
      ∃ i, m.fetch = .ok i ∧ i.operation.Rejects i.field ∧
        fault = .field m.pc i.field i.operation := by
  cases hfetch : m.fetch with
  | error cause =>
    rw [step_of_fetch_error hfetch]
    constructor
    · rintro ⟨hfault, hfield⟩
      cases hfault
      rw [fieldsHold_fetch hfetch] at hfield
      cases hfield
    · rintro ⟨i, hok, -⟩
      cases hok
  | ok i =>
    have hconfig : (m.advance.execute m.pc i).1.config.fieldErrors = .halt :=
      (congrArg _ (config_execute m.advance m.pc i)).trans hhalt
    have hsame : m.step.2 = .error fault ↔ (m.advance.execute m.pc i).2 = .error fault := by
      rw [step_of_fetch_ok hfetch]
      generalize m.advance.execute m.pc i = o at hconfig
      obtain ⟨m', result⟩ := o
      cases result with
      | ok flow => exact iff_of_false (fun h => by cases h) fun h => by cases h
      | error cause =>
        unfold complete
        simp [show m'.config.fieldErrors = .halt from hconfig, fail]
    rw [hsame, fieldFault_execute_iff]
    constructor
    · rintro ⟨h, hfault⟩
      exact ⟨i, rfl, h, hfault⟩
    · rintro ⟨i', hok, h⟩
      cases hok
      exact h

theorem fieldsHold_step (hskip : m.config.fieldErrors = .skip) : m.step.FieldsHold := by
  cases hfetch : m.fetch with
  | error cause =>
    rw [step_of_fetch_error hfetch]
    intro fault hfault
    cases hfault
    exact fieldsHold_fetch hfetch
  | ok i =>
    rw [step_of_fetch_ok hfetch]
    exact fieldsHold_complete ((congrArg _ (config_execute m.advance m.pc i)).trans hskip)

theorem step_withPolicy (hhalt : m.config.fieldErrors = .halt) (hholds : m.step.FieldsHold) :
    (m.withPolicy .skip).step = m.step.withPolicy .skip := by
  have hsame : (m.withPolicy .skip).fetch = m.fetch := rfl
  cases hfetch : m.fetch with
  | error cause =>
    rw [step_of_fetch_error hfetch, step_of_fetch_error (hsame.trans hfetch)]
    rfl
  | ok i =>
    rw [step_of_fetch_ok hfetch] at hholds ⊢
    rw [step_of_fetch_ok (hsame.trans hfetch)]
    have hexecute : (m.withPolicy .skip).advance.execute m.pc i =
        (m.advance.execute m.pc i).withPolicy .skip := execute_withPolicy m.advance .skip m.pc i
    refine Eq.trans (congrArg (complete i) hexecute) (complete_withPolicy ?_ hholds)
    exact (congrArg _ (config_execute m.advance m.pc i)).trans hhalt

end Step

section Run

theorem fieldsHold_run (hskip : m.config.fieldErrors = .skip) (start fuel : Nat) (fault : Fault)
    (h : (m.run start fuel).2 = some (.error fault)) : fault.isFieldFault = false :=
  resume_error (P := fun m => m.config.fieldErrors = .skip)
    (Q := fun fault => fault.isFieldFault = false)
    (fun m hm => (congrArg _ (config_step m)).trans hm) (fun _ hm => fieldsHold_step hm)
    (fun _ => rfl) (m := m.setPc start) hskip h

theorem gains_run (hhalt : m.config.fieldErrors = .halt) (start fuel : Nat) :
    m.Gains (m.run start fuel).1 := by
  refine (resume_induction (P := fun other => m.Gains other ∧ other.config.fieldErrors = .halt)
    ?_ m.steps fuel (m := m.setPc start) ⟨Gains.of_eq rfl, hhalt⟩).1
  rintro other ⟨hgains, hother⟩
  exact ⟨hgains.trans (gains_step (.inl hother)), (congrArg _ (config_step other)).trans hother⟩

/-- Until there is a faulty `F` part, the policy does not matter. -/
theorem simulates_withPolicy :
    Simulates (fun fault => fault.isFieldFault = true)
      fun m m' : Machine σ => m.config.fieldErrors = .halt ∧ m' = m.withPolicy .skip where
  halted := by
    rintro m m' ⟨-, rfl⟩
    rfl
  steps := by
    rintro m m' ⟨-, rfl⟩
    rfl
  stepLimit := by
    rintro m m' ⟨-, rfl⟩
    rfl
  step := by
    rintro m m' ⟨hhalt, rfl⟩ hholds
    rw [step_withPolicy hhalt fun fault hfault => Bool.eq_false_iff.mpr (hholds fault hfault)]
    exact ⟨rfl, (congrArg _ (config_step m)).trans hhalt, rfl⟩

theorem run_withPolicy (hhalt : m.config.fieldErrors = .halt) (start fuel : Nat)
    (h : ∀ fault, (m.run start fuel).2 = some (.error fault) → fault.isFieldFault = false) :
    (m.withPolicy .skip).run start fuel =
      ((m.run start fuel).1.withPolicy .skip, (m.run start fuel).2) := by
  have hrun := simulates_withPolicy.run m (m.withPolicy .skip) start fuel ⟨hhalt, rfl⟩
    fun fault hfault => Bool.eq_false_iff.mp (h fault hfault)
  exact Prod.ext hrun.2.2 hrun.1

end Run

structure FollowsPolicy (m : Machine σ) (start fuel : Nat) : Prop where
  /-- An `F` part is faulty if the operation rejects it, whatever else there is. -/
  arises : ∀ here i fault, (m.execute here i).2 = .error fault ∧ fault.isFieldFault = true ↔
    i.operation.Rejects i.field ∧ fault = .field here i.field i.operation
  ends : m.config.fieldErrors = .halt → ∀ fault,
    (m.step.2 = .error fault ∧ fault.isFieldFault = true ↔
      ∃ i, m.fetch = .ok i ∧ i.operation.Rejects i.field ∧
        fault = .field m.pc i.field i.operation)
  skips : m.config.fieldErrors = .skip → ∀ i, m.fetch = .ok i → i.operation.Rejects i.field →
    m.step =
      ({ m with
        pc := m.pc + 1
        steps := m.steps + 1
        clock := m.clock + i.operation.time i.field
        anomalies := m.anomalies.push (.field m.pc i.field i.operation) }, .ok .proceed)
  /-- Nothing else is recorded as a faulty `F` part. -/
  records : (∀ i, m.fetch = .ok i → ¬ i.operation.Rejects i.field) → m.Gains m.step.1
  runsOn : m.config.fieldErrors = .skip → ∀ fault,
    (m.run start fuel).2 = some (.error fault) → fault.isFieldFault = false
  recordsNone : m.config.fieldErrors = .halt → m.Gains (m.run start fuel).1
  agrees : m.config.fieldErrors = .halt →
    (∀ fault, (m.run start fuel).2 = some (.error fault) → fault.isFieldFault = false) →
    (m.withPolicy .skip).run start fuel =
      ((m.run start fuel).1.withPolicy .skip, (m.run start fuel).2)

/-- Every machine follows its policy. -/
theorem followsPolicy (m : Machine σ) (start fuel : Nat) : m.FollowsPolicy start fuel where
  arises := fieldFault_execute_iff m
  ends := fieldFault_step_iff
  skips := fun hskip _ => step_of_rejects hskip
  records := fun h => gains_step (.inr h)
  runsOn := fun hskip => fieldsHold_run hskip start fuel
  recordsNone := fun hhalt => gains_run hhalt start fuel
  agrees := fun hhalt => run_withPolicy hhalt start fuel

def beforeFaultyField (policy : FieldErrorPolicy) : Machine Unattached :=
  ofImage ⟨4, policy, none⟩ ⟨⟩ [Word.wrap false 456, Word.wrap false 133]

/-- The load is skipped or ends the run; from the halt on the policy does not matter. -/
theorem followsPolicy_faultyField :
    (beforeFaultyField .skip).step =
      ({ beforeFaultyField .skip with
        pc := 1
        steps := 1
        clock := 2
        anomalies := #[.field 0 (Byte.ofNat 7) (.load .a)] }, .ok .proceed) ∧
      (beforeFaultyField .halt).step.2 = .error (.field 0 (Byte.ofNat 7) (.load .a)) ∧
      ((beforeFaultyField .halt).run 1 1).2 = some (.ok 1) ∧
      (beforeFaultyField .skip).run 1 1 =
        (((beforeFaultyField .halt).run 1 1).1.withPolicy .skip, some (.ok 1)) := by
  have hrejects : Operation.Rejects (.load .a) (Byte.ofNat 7) := by
    rintro ⟨left, right, hle, hright, heq⟩
    change 7 = 8 * left + right at heq
    omega
  have hfetch (policy : FieldErrorPolicy) :
      (beforeFaultyField policy).fetch = .ok ⟨.load .a, 0, Byte.ofNat 7, ⟨false, 0⟩⟩ := by
    cases policy <;> rfl
  have hskip := (followsPolicy (beforeFaultyField .skip) 0 0).skips rfl _ (hfetch .skip) hrejects
  have hhalt := ((followsPolicy (beforeFaultyField .halt) 0 0).ends rfl
    (.field 0 (Byte.ofNat 7) (.load .a))).mpr ⟨_, hfetch .halt, hrejects, rfl⟩
  have hrun : ((beforeFaultyField .halt).run 1 1).2 = some (.ok 1) := rfl
  have hagrees := (followsPolicy (beforeFaultyField .halt) 1 1).agrees rfl fun fault hfault => by
    rw [hrun] at hfault
    cases hfault
  rw [hrun] at hagrees
  exact ⟨hskip, hhalt.1, hrun, hagrees⟩

end Machine

end MixComputer
