import MixComputer.Proofs.Machine.Control
import MixComputer.Proofs.Machine.Fault

/-!
Runs as iterated steps. Under a limit, a run ends with the first step that halts or fails, or
after as many steps as the limit allows, whichever comes first. The steps do not depend on the
limit, so runs under different limits take the same ones, as far as both of them go.
-/
namespace MixComputer.Machine

variable {σ : Type}

section LimitReached

variable {m : Machine σ} {first : Nat}

/-- The limit, if there is one, allows more than `n` steps since `first`. -/
theorem limitReached?_eq_none {n : Nat} (hsteps : m.steps = first + n)
    (hlimit : ∀ limit, m.config.stepLimit = some limit → n < limit) :
    m.limitReached? first = none := by
  unfold limitReached?
  rw [Option.filter_eq_none_iff]
  intro limit hmem
  have hlt := hlimit limit hmem
  simp only [decide_eq_true_eq]
  omega

theorem limitReached?_eq_some {limit : Nat} (hsteps : m.steps = first + limit)
    (hlimit : m.config.stepLimit = some limit) : m.limitReached? first = some limit := by
  unfold limitReached?
  rw [hlimit, Option.filter_some, if_pos]
  simp only [decide_eq_true_eq]
  omega

end LimitReached

variable [Peripherals σ]

/-- The machine after `n` steps, if it goes on after each of them. -/
def walk : Nat → Machine σ → Option (Machine σ)
  | 0, m => some m
  | n + 1, m =>
    match m.step with
    | (m', .ok .proceed) => m'.walk n
    | _ => none

/-- The machine goes on after every step before the `n`-th, which halts it. -/
def HaltsAfter (m : Machine σ) (n : Nat) (m' : Machine σ) : Prop :=
  ∃ k last, n = k + 1 ∧ m.walk k = some last ∧ last.step = (m', .ok .halt)

def FailsAfter (m : Machine σ) (n : Nat) (m' : Machine σ) (fault : Fault) : Prop :=
  ∃ k last, n = k + 1 ∧ m.walk k = some last ∧ last.step = (m', .error fault)

section Walk

variable {m m' : Machine σ} {n : Nat}

theorem walk_succ {next : Machine σ} (h : m.step = (next, .ok .proceed)) (n : Nat) :
    m.walk (n + 1) = next.walk n := by
  rw [walk, h]

theorem walk_succ_eq_some (h : m.walk (n + 1) = some m') :
    ∃ next, m.step = (next, .ok .proceed) ∧ next.walk n = some m' := by
  rw [walk] at h
  split at h
  · rename_i next heq
    exact ⟨next, heq, h⟩
  · cases h

/-- The machines passed on the way. -/
theorem walk_of_le {k : Nat} (h : m.walk n = some m') (hk : k ≤ n) :
    ∃ passed, m.walk k = some passed := by
  induction k generalizing m n with
  | zero => exact ⟨m, rfl⟩
  | succ k ih =>
    obtain ⟨n, rfl⟩ := Nat.exists_eq_add_of_le' (Nat.lt_of_lt_of_le k.succ_pos hk)
    obtain ⟨next, hstep, hwalk⟩ := walk_succ_eq_some h
    obtain ⟨passed, hpassed⟩ := ih hwalk (Nat.le_of_succ_le_succ hk)
    exact ⟨passed, (walk_succ hstep k).trans hpassed⟩

theorem walk_eq_some (h : m.walk n = some m') :
    m'.config = m.config ∧ m'.steps = m.steps + n ∧ m'.halted = m.halted := by
  induction n generalizing m with
  | zero =>
    cases h
    exact ⟨rfl, rfl, rfl⟩
  | succ n ih =>
    obtain ⟨next, hstep, hwalk⟩ := walk_succ_eq_some h
    obtain ⟨hconfig, hsteps, hhalted⟩ := step_ok m hstep
    obtain ⟨hconfig', hsteps', hhalted'⟩ := ih hwalk
    refine ⟨hconfig'.trans hconfig, ?_, ?_⟩
    · omega
    · rw [hhalted', hhalted]
      exact Bool.or_false _

theorem walk_withLimit (m : Machine σ) (limit : Option Nat) (n : Nat) :
    (m.withLimit limit).walk n = (m.walk n).map (·.withLimit limit) := by
  induction n generalizing m with
  | zero => rfl
  | succ n ih =>
    rw [walk, walk, step_withLimit]
    obtain ⟨next, result⟩ := m.step
    cases result with
    | error fault => rfl
    | ok flow =>
      cases flow with
      | proceed => exact ih next
      | halt => rfl

theorem walk_withLimit_eq_some (h : m.walk n = some m') (limit : Option Nat) :
    (m.withLimit limit).walk n = some (m'.withLimit limit) := by
  rw [walk_withLimit, h]
  rfl

theorem HaltsAfter.withLimit (h : m.HaltsAfter n m') (limit : Option Nat) :
    (m.withLimit limit).HaltsAfter n (m'.withLimit limit) := by
  obtain ⟨k, last, rfl, hwalk, hstep⟩ := h
  refine ⟨k, last.withLimit limit, rfl, walk_withLimit_eq_some hwalk limit, ?_⟩
  rw [step_withLimit, hstep]
  rfl

theorem HaltsAfter.steps (h : m.HaltsAfter n m') : m'.steps = m.steps + n := by
  obtain ⟨k, last, rfl, hwalk, hstep⟩ := h
  obtain ⟨-, hpassed, -⟩ := walk_eq_some hwalk
  obtain ⟨-, hlast, -⟩ := step_ok last hstep
  omega

theorem HaltsAfter.passed {k : Nat} (h : m.HaltsAfter n m') (hk : k < n) :
    ∃ passed, m.walk k = some passed := by
  obtain ⟨j, last, rfl, hwalk, -⟩ := h
  exact walk_of_le hwalk (Nat.le_of_lt_succ hk)

/-- Steps up to a limit lead to the limit, unless one of them halts or fails. -/
theorem walk_or_ends (m : Machine σ) (limit : Nat) :
    (∃ m', m.walk limit = some m') ∨
      (∃ n m', n ≤ limit ∧ m.HaltsAfter n m') ∨
      ∃ n m' fault, n ≤ limit ∧ m.FailsAfter n m' fault := by
  induction limit generalizing m with
  | zero => exact .inl ⟨m, rfl⟩
  | succ limit ih =>
    rcases hstep : m.step with ⟨next, fault | _ | _⟩
    · exact .inr (.inr ⟨1, next, fault, by omega, 0, m, rfl, rfl, hstep⟩)
    · rcases ih next with
        ⟨m', hwalk⟩ | ⟨n, m', hn, k, last, rfl, hwalk, hlast⟩ |
        ⟨n, m', fault, hn, k, last, rfl, hwalk, hlast⟩
      · exact .inl ⟨m', (walk_succ hstep limit).trans hwalk⟩
      · exact .inr (.inl ⟨k + 2, m', by omega, k + 1, last, rfl,
          (walk_succ hstep k).trans hwalk, hlast⟩)
      · exact .inr (.inr ⟨k + 2, m', fault, by omega, k + 1, last, rfl,
          (walk_succ hstep k).trans hwalk, hlast⟩)
    · exact .inr (.inl ⟨1, next, by omega, 0, m, rfl, rfl, hstep⟩)

end Walk

section Resume

variable {m m' : Machine σ} {first : Nat}

theorem resume_of_halted (fuel : Nat) (h : m.halted = true) :
    m.resume first fuel = (m, some (.ok (m.steps - first))) := by
  cases fuel <;> rw [resume, if_pos h]

theorem resume_of_limitReached {limit : Nat} (fuel : Nat) (hhalted : m.halted = false)
    (h : m.limitReached? first = some limit) :
    m.resume first fuel = (m, some (.error (.stepLimit limit))) := by
  cases fuel <;> rw [resume, if_neg (hhalted ▸ Bool.false_ne_true), h]

/-- A run goes on from where the machine has walked to. -/
theorem resume_of_walk {n k : Nat} (fuel : Nat) (hhalted : m.halted = false)
    (hsteps : m.steps = first + k)
    (hlimit : ∀ limit, m.config.stepLimit = some limit → k + n ≤ limit)
    (h : m.walk n = some m') : m.resume first (n + fuel) = m'.resume first fuel := by
  induction n generalizing m k with
  | zero =>
    cases h
    rw [Nat.zero_add]
  | succ n ih =>
    obtain ⟨next, hstep, hwalk⟩ := walk_succ_eq_some h
    obtain ⟨hconfig, hcount, hflag⟩ := step_ok m hstep
    have hroom : m.limitReached? first = none := by
      refine limitReached?_eq_none hsteps fun limit hsome => ?_
      have := hlimit limit hsome
      omega
    have hrest : next.resume first (n + fuel) = m'.resume first fuel := by
      refine ih (k := k + 1) ?_ ?_ ?_ hwalk
      · rw [hflag, hhalted]
        rfl
      · omega
      · intro limit hsome
        have := hlimit limit (hconfig ▸ hsome)
        omega
    rw [show n + 1 + fuel = n + fuel + 1 by omega, resume, hroom, hstep, hhalted]
    exact hrest

end Resume

section Run

variable {m m' : Machine σ} {start fuel n limit : Nat}

/-- The walk of a run, as far as the limit allows it. -/
theorem run_of_walk {last : Machine σ} (hfuel : n ≤ fuel)
    (hlimit : ∀ limit, m.config.stepLimit = some limit → n ≤ limit)
    (h : (m.setPc start).walk n = some last) :
    m.run start fuel = last.resume m.steps (fuel - n) ∧ last.config = m.config ∧
      last.steps = m.steps + n ∧ last.halted = false := by
  obtain ⟨hconfig, hsteps, hhalted⟩ := walk_eq_some h
  refine ⟨?_, hconfig, hsteps, hhalted⟩
  have hroom : ∀ limit, (m.setPc start).config.stepLimit = some limit → 0 + n ≤ limit :=
    fun limit hsome => (Nat.zero_add n).symm ▸ hlimit limit hsome
  have hrun : (m.setPc start).resume m.steps (n + (fuel - n)) = last.resume m.steps (fuel - n) :=
    resume_of_walk (fuel - n) rfl rfl hroom h
  rwa [Nat.add_sub_cancel' hfuel] at hrun

theorem run_of_haltsAfter (h : (m.setPc start).HaltsAfter n m') (hfuel : n ≤ fuel)
    (hlimit : ∀ limit, m.config.stepLimit = some limit → n ≤ limit) :
    m.run start fuel = (m', some (.ok n)) := by
  obtain ⟨k, last, rfl, hwalk, hstep⟩ := h
  obtain ⟨hrun, hconfig, hsteps, hhalted⟩ := run_of_walk (Nat.le_of_succ_le hfuel)
    (fun limit hsome => Nat.le_of_succ_le (hlimit limit hsome)) hwalk
  obtain ⟨-, hsteps', hhalted'⟩ := step_ok last hstep
  have hroom : last.limitReached? m.steps = none :=
    limitReached?_eq_none hsteps fun limit hsome => hlimit limit (hconfig ▸ hsome)
  have hcount : m'.steps - m.steps = k + 1 := by omega
  have hend : m'.halted = true := by rw [hhalted', hhalted]; rfl
  rw [hrun, show fuel - k = fuel - (k + 1) + 1 by omega, resume, hhalted, hroom, hstep]
  exact hcount ▸ resume_of_halted (fuel - (k + 1)) hend

theorem run_of_failsAfter {fault : Fault} (h : (m.setPc start).FailsAfter n m' fault)
    (hfuel : n ≤ fuel) (hlimit : ∀ limit, m.config.stepLimit = some limit → n ≤ limit) :
    m.run start fuel = (m', some (.error fault)) := by
  obtain ⟨k, last, rfl, hwalk, hstep⟩ := h
  obtain ⟨hrun, hconfig, hsteps, hhalted⟩ := run_of_walk (Nat.le_of_succ_le hfuel)
    (fun limit hsome => Nat.le_of_succ_le (hlimit limit hsome)) hwalk
  have hroom : last.limitReached? m.steps = none :=
    limitReached?_eq_none hsteps fun limit hsome => hlimit limit (hconfig ▸ hsome)
  rw [hrun, show fuel - k = fuel - (k + 1) + 1 by omega, resume, hhalted, hroom, hstep]
  rfl

theorem run_of_walk_limit (h : (m.setPc start).walk limit = some m') (hfuel : limit ≤ fuel)
    (hlimit : m.config.stepLimit = some limit) :
    m.run start fuel = (m', some (.error (.stepLimit limit))) := by
  obtain ⟨hrun, hconfig, hsteps, hhalted⟩ := run_of_walk hfuel
    (fun limit' hsome => Nat.le_of_eq (Option.some.inj (hlimit.symm.trans hsome))) h
  have hreached : m'.limitReached? m.steps = some limit :=
    limitReached?_eq_some hsteps (hconfig ▸ hlimit)
  exact hrun.trans (resume_of_limitReached (fuel - limit) hhalted hreached)

theorem run_of_haltsAfter_le (h : (m.setPc start).HaltsAfter n m') (hn : n ≤ limit)
    (hlimit : m.config.stepLimit = some limit) (hfuel : limit ≤ fuel) :
    m.run start fuel = (m', some (.ok n)) :=
  run_of_haltsAfter h (Nat.le_trans hn hfuel) fun _ hbound =>
    Option.some.inj (hlimit.symm.trans hbound) ▸ hn

theorem run_of_failsAfter_le {fault : Fault} (h : (m.setPc start).FailsAfter n m' fault)
    (hn : n ≤ limit) (hlimit : m.config.stepLimit = some limit) (hfuel : limit ≤ fuel) :
    m.run start fuel = (m', some (.error fault)) :=
  run_of_failsAfter h (Nat.le_trans hn hfuel) fun _ hbound =>
    Option.some.inj (hlimit.symm.trans hbound) ▸ hn

/-- The three ways in which a run ends, each with its own result. -/
theorem run_ends (hlimit : m.config.stepLimit = some limit) (hfuel : limit ≤ fuel) :
    (∃ m', (m.setPc start).walk limit = some m' ∧
        m.run start fuel = (m', some (.error (.stepLimit limit)))) ∨
      (∃ n m', n ≤ limit ∧ (m.setPc start).HaltsAfter n m' ∧
        m.run start fuel = (m', some (.ok n))) ∨
      ∃ n m' fault, n ≤ limit ∧ (m.setPc start).FailsAfter n m' fault ∧
        m.run start fuel = (m', some (.error fault)) := by
  rcases walk_or_ends (m.setPc start) limit with
    ⟨last, h⟩ | ⟨n, last, hn, h⟩ | ⟨n, last, fault, hn, h⟩
  · exact .inl ⟨last, h, run_of_walk_limit h hfuel hlimit⟩
  · exact .inr (.inl ⟨n, last, hn, h, run_of_haltsAfter_le h hn hlimit hfuel⟩)
  · exact .inr (.inr ⟨n, last, fault, hn, h, run_of_failsAfter_le h hn hlimit hfuel⟩)

theorem run_eq_ok_iff (hlimit : m.config.stepLimit = some limit) (hfuel : limit ≤ fuel) :
    m.run start fuel = (m', some (.ok n)) ↔ n ≤ limit ∧ (m.setPc start).HaltsAfter n m' := by
  constructor
  · intro hrun
    rcases run_ends hlimit hfuel with
      ⟨last, -, hend⟩ | ⟨n', last, hn, h, hend⟩ | ⟨n', last, fault, -, -, hend⟩
    · cases hend.symm.trans hrun
    · cases hend.symm.trans hrun
      exact ⟨hn, h⟩
    · cases hend.symm.trans hrun
  · rintro ⟨hn, h⟩
    exact run_of_haltsAfter_le h hn hlimit hfuel

theorem run_eq_stepLimit_iff (hlimit : m.config.stepLimit = some limit) (hfuel : limit ≤ fuel) :
    m.run start fuel = (m', some (.error (.stepLimit limit))) ↔
      (m.setPc start).walk limit = some m' := by
  constructor
  · intro hrun
    rcases run_ends hlimit hfuel with
      ⟨last, h, hend⟩ | ⟨n, last, -, -, hend⟩ | ⟨n, last, fault, -, h, hend⟩
    · cases hend.symm.trans hrun
      exact h
    · cases hend.symm.trans hrun
    · -- A step never reports the limit.
      cases hend.symm.trans hrun
      obtain ⟨-, failing, -, -, hstep⟩ := h
      cases pc?_of_step_error hstep
  · intro h
    exact run_of_walk_limit h hfuel hlimit

theorem run_eq_error_iff {fault : Fault} (hfault : fault ≠ .stepLimit limit)
    (hlimit : m.config.stepLimit = some limit) (hfuel : limit ≤ fuel) :
    m.run start fuel = (m', some (.error fault)) ↔
      ∃ n, n ≤ limit ∧ (m.setPc start).FailsAfter n m' fault := by
  constructor
  · intro hrun
    rcases run_ends hlimit hfuel with
      ⟨last, -, hend⟩ | ⟨n, last, -, -, hend⟩ | ⟨n, last, fault', hn, h, hend⟩
    · cases hend.symm.trans hrun
      exact absurd rfl hfault
    · cases hend.symm.trans hrun
    · cases hend.symm.trans hrun
      exact ⟨n, hn, h⟩
  · rintro ⟨n, hn, h⟩
    exact run_of_failsAfter_le h hn hlimit hfuel

/-- A smaller limit stops a run that would halt. -/
theorem HaltsAfter.run_withLimit_lt {k : Nat} (h : (m.setPc start).HaltsAfter n m') (hk : k < n)
    (hfuel : k ≤ fuel) :
    ∃ passed, (m.setPc start).walk k = some passed ∧
      (m.withLimit (some k)).run start fuel =
        (passed.withLimit (some k), some (.error (.stepLimit k))) := by
  obtain ⟨passed, hpassed⟩ := h.passed hk
  exact ⟨passed, hpassed,
    run_of_walk_limit (walk_withLimit_eq_some hpassed (some k)) hfuel rfl⟩

/-- A run under a limit does nothing but step: its result says how the steps end, and it leaves
the machine after just those steps. So a run that has halted would have halted under every limit
that allows as many steps, and under a smaller one it would have stopped there. -/
theorem run_eq_iff_steps (m : Machine σ) (start : Nat) (hlimit : m.config.stepLimit = some limit)
    (hfuel : limit ≤ fuel) :
    (∃ m' result, m.run start fuel = (m', some result)) ∧
      (∀ m' n, m.run start fuel = (m', some (.ok n)) ↔
        n ≤ limit ∧ (m.setPc start).HaltsAfter n m') ∧
      (∀ m', m.run start fuel = (m', some (.error (.stepLimit limit))) ↔
        (m.setPc start).walk limit = some m') ∧
      (∀ m' fault, fault ≠ .stepLimit limit →
        (m.run start fuel = (m', some (.error fault)) ↔
          ∃ n, n ≤ limit ∧ (m.setPc start).FailsAfter n m' fault)) ∧
      ∀ m' n, m.run start fuel = (m', some (.ok n)) →
        m'.steps = m.steps + n ∧
          (∀ other fuel', (∀ bound, other = some bound → n ≤ bound) → n ≤ fuel' →
            (m.withLimit other).run start fuel' = (m'.withLimit other, some (.ok n))) ∧
          ∀ k fuel', k < n → k ≤ fuel' → ∃ passed,
            (m.setPc start).walk k = some passed ∧
              (m.withLimit (some k)).run start fuel' =
                (passed.withLimit (some k), some (.error (.stepLimit k))) := by
  refine ⟨?_, fun m' n => run_eq_ok_iff hlimit hfuel, fun m' => run_eq_stepLimit_iff hlimit hfuel,
    fun m' fault hfault => run_eq_error_iff hfault hlimit hfuel, fun m' n hrun => ?_⟩
  · rcases run_ends hlimit hfuel with
      ⟨last, -, hend⟩ | ⟨n, last, -, -, hend⟩ | ⟨n, last, fault, -, -, hend⟩
    · exact ⟨last, _, hend⟩
    · exact ⟨last, _, hend⟩
    · exact ⟨last, _, hend⟩
  · obtain ⟨-, h⟩ := (run_eq_ok_iff hlimit hfuel).mp hrun
    refine ⟨h.steps, fun other fuel' hother hfuel' => ?_, fun k fuel' hk hfuel' => ?_⟩
    · exact run_of_haltsAfter (h.withLimit other) hfuel' hother
    · exact h.run_withLimit_lt hk hfuel'

def beforeHalt : Machine Unattached :=
  ofImage ⟨4, .halt, some 3⟩ {} [Word.wrap false 0, Word.wrap false 133]

theorem run_beforeHalt : beforeHalt.run 0 3 = ((beforeHalt.run 0 3).1, some (.ok 2)) :=
  Prod.ext rfl rfl

/-- It halts with its second step, also if no more than two are allowed, and not if only one is. -/
theorem run_eq_iff_steps_halt :
    beforeHalt.config.stepLimit = some 3 ∧ 3 ≤ 3 ∧
      (beforeHalt.run 0 3).1.steps = 2 ∧
      (beforeHalt.withLimit (some 2)).run 0 2 =
        ((beforeHalt.run 0 3).1.withLimit (some 2), some (.ok 2)) ∧
      ((beforeHalt.withLimit (some 1)).run 0 9).2 = some (.error (.stepLimit 1)) := by
  obtain ⟨-, -, -, -, hresult⟩ := run_eq_iff_steps beforeHalt 0 rfl (Nat.le_refl 3)
  obtain ⟨hsteps, hother, hfewer⟩ := hresult _ 2 run_beforeHalt
  have htwo : ∀ bound, some 2 = some bound → 2 ≤ bound :=
    fun bound h => Nat.le_of_eq (Option.some.inj h)
  obtain ⟨passed, -, hstopped⟩ := hfewer 1 9 (Nat.lt_succ_self 1) (by decide)
  exact ⟨rfl, Nat.le_refl 3, hsteps, hother (some 2) 2 htwo (Nat.le_refl 2),
    congrArg Prod.snd hstopped⟩

end Run

end MixComputer.Machine
