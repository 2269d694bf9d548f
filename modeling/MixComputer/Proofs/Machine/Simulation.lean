import MixComputer.Machine.Run

/-!
Machines that step alike run alike. Two machines, possibly with different devices, are compared by
a relation that their steps keep; the steps may part where the first one fails by a fault of some
kind. Then the runs of the two machines end alike, unless the first ends with a fault of that kind.
-/
namespace MixComputer.Machine

variable {σ τ : Type}

def Matches (R : Machine σ → Machine τ → Prop) (o : Outcome σ) (o' : Outcome τ) : Prop :=
  o'.2 = o.2 ∧ R o.1 o'.1

variable [Peripherals σ] [Peripherals τ]

/-- Related machines are at the same point of a run, and their steps match as long as the first
machine does not fail by a fault of a given kind. -/
structure Simulates (part : Fault → Prop) (R : Machine σ → Machine τ → Prop) : Prop where
  halted : ∀ m m', R m m' → m'.halted = m.halted
  steps : ∀ m m', R m m' → m'.steps = m.steps
  stepLimit : ∀ m m', R m m' → m'.config.stepLimit = m.config.stepLimit
  step : ∀ m m', R m m' → (∀ fault, m.step.2 = .error fault → ¬ part fault) →
    Matches R m.step m'.step

variable {part : Fault → Prop} {R : Machine σ → Machine τ → Prop} {m : Machine σ} {m' : Machine τ}

theorem Simulates.limitReached? (h : Simulates part R) (hm : R m m') (first : Nat) :
    m'.limitReached? first = m.limitReached? first := by
  unfold Machine.limitReached?
  rw [h.steps m m' hm, h.stepLimit m m' hm]

/-- Related machines run alike. -/
theorem Simulates.resume (h : Simulates part R) (first fuel : Nat) (hm : R m m')
    (hpart : ∀ fault, (m.resume first fuel).2 = some (.error fault) → ¬ part fault) :
    (m'.resume first fuel).2 = (m.resume first fuel).2 ∧
      R (m.resume first fuel).1 (m'.resume first fuel).1 := by
  induction fuel generalizing m m' with
  | zero =>
    rw [Machine.resume, Machine.resume, h.halted m m' hm, h.limitReached? hm, h.steps m m' hm]
    split
    · exact ⟨rfl, hm⟩
    · split <;> exact ⟨rfl, hm⟩
  | succ fuel ih =>
    have hstep := h.step m m' hm
    rw [Machine.resume] at hpart ⊢
    rw [Machine.resume, h.halted m m' hm, h.limitReached? hm, h.steps m m' hm]
    by_cases hend : m.halted = true
    · rw [if_pos hend, if_pos hend]
      exact ⟨rfl, hm⟩
    · rw [if_neg hend] at hpart ⊢
      rw [if_neg hend]
      cases hlimit : m.limitReached? first with
      | some limit => exact ⟨rfl, hm⟩
      | none =>
        simp only [hlimit] at hpart
        generalize m.step = o at hstep hpart ⊢
        generalize m'.step = o' at hstep ⊢
        obtain ⟨next, result⟩ := o
        obtain ⟨next', result'⟩ := o'
        cases result with
        | ok flow =>
          obtain ⟨hresult, hnext⟩ := hstep fun _ heq => by cases heq
          obtain rfl : result' = .ok flow := hresult
          exact ih hnext hpart
        | error fault =>
          obtain ⟨hresult, hnext⟩ := hstep fun _ heq => by
            cases heq
            exact hpart fault rfl
          obtain rfl : result' = .error fault := hresult
          exact ⟨rfl, hnext⟩

/-- So do machines that are related once they are set to where the run starts. -/
theorem Simulates.run (h : Simulates part R) (m : Machine σ) (m' : Machine τ) (start fuel : Nat)
    (hm : R (m.setPc start) (m'.setPc start))
    (hpart : ∀ fault, (m.run start fuel).2 = some (.error fault) → ¬ part fault) :
    (m'.run start fuel).2 = (m.run start fuel).2 ∧
      R (m.run start fuel).1 (m'.run start fuel).1 := by
  have hfirst : m'.steps = m.steps := h.steps (m.setPc start) (m'.setPc start) hm
  unfold Machine.run at hpart ⊢
  rw [hfirst]
  exact h.resume m.steps fuel hm hpart

end MixComputer.Machine
