import MixComputer.Proofs.Address
import MixComputer.Proofs.Arithmetic
import MixComputer.Proofs.Machine.Index
import MixComputer.Proofs.Machine.Requests

/-!
Moving words. `MOVE` copies one word after the other to where rI1 points, and rI1 has two bytes: it
goes from the last location that two bytes can name back to zero. A memory that is smaller ends
before that, and words are moved only to where they should go. In a memory of the largest size
`MOVE` passes its last location and goes on from location zero.
-/
namespace MixComputer

namespace Machine

variable {σ : Type} {m : Machine σ} {here k count : Nat} {a : Address} {t : Int}

def Inside (m : Machine σ) (v : Int) : Prop := 0 ≤ v ∧ v < m.memory.size

theorem location?_of_inside (h : m.Inside a.value) :
    ∃ l, m.location? a = some l ∧ a.value = l := by
  obtain ⟨l, hl⟩ := Int.eq_ofNat_of_zero_le h.1
  have hto := h.2
  exact ⟨l, location?_of_value hl (by omega), hl⟩

theorem location?_of_not_inside (h : ¬ m.Inside a.value) : m.location? a = none :=
  if_neg fun hrange => h ⟨hrange.1, by omega⟩

def target (m : Machine σ) : Address := Address.ofWord (m.registers.get firstIndex)

def moveWord (m : Machine σ) (here source target : Nat) : Machine σ :=
  (m.write target (m.content source)).increase here firstIndex 1

section Rounds

variable {source goal : Nat}

theorem moveWords_of_locations (hsource : m.location? (a.add k) = some source)
    (hgoal : m.location? m.target = some goal) :
    m.moveWords here a k (count + 1) =
      (m.moveWord here source goal).moveWords here a (k + 1) count := by
  change m.atLocation here (a.add k) (fun source => m.atLocation here m.target fun goal =>
    (m.moveWord here source goal).moveWords here a (k + 1) count) = _
  rw [atLocation_of_some hsource, atLocation_of_some hgoal]

/-- The word to be moved is looked for before its target. -/
theorem moveWords_of_source_outside (here count : Nat) (h : ¬ m.Inside (a.add k).value) :
    m.moveWords here a k (count + 1) = m.fail (.memoryLocation here (a.add k).value) := by
  change m.atLocation here (a.add k) _ = _
  rw [atLocation_of_none (location?_of_not_inside h)]

theorem moveWords_of_goal_outside (here count : Nat) (hsource : m.Inside (a.add k).value)
    (h : ¬ m.Inside m.target.value) :
    m.moveWords here a k (count + 1) = m.fail (.memoryLocation here m.target.value) := by
  obtain ⟨source, hlocation, -⟩ := location?_of_inside hsource
  change m.atLocation here (a.add k) (fun source => m.atLocation here m.target _) = _
  rw [atLocation_of_some hlocation, atLocation_of_none (location?_of_not_inside h)]

theorem moveWords_of_not_inside (here count : Nat)
    (h : ¬ (m.Inside (a.add k).value ∧ m.Inside m.target.value)) :
    ∃ v, ¬ m.Inside v ∧
      m.moveWords here a k (count + 1) = m.fail (.memoryLocation here v) := by
  by_cases hsource : m.Inside (a.add k).value
  · have hgoal : ¬ m.Inside m.target.value := fun h' => h ⟨hsource, h'⟩
    exact ⟨_, hgoal, moveWords_of_goal_outside here count hsource hgoal⟩
  · exact ⟨_, hsource, moveWords_of_source_outside here count hsource⟩

theorem memory_moveWord (m : Machine σ) (here source goal : Nat) :
    (m.moveWord here source goal).memory = m.memory.write goal (m.content source) :=
  memory_setRegister _ here 1 _

/-- rI1 goes on to the next location, and from the last one of two bytes to zero. -/
theorem target_moveWord (here source goal : Nat) (hfrom : 0 ≤ m.target.value)
    (hto : m.target.value < 4096) :
    (m.moveWord here source goal).target.value = (m.target.value + 1) % 4096 := by
  have hindex : Register.isIndex firstIndex = true := rfl
  have hvalue : m.target.value = (m.registers.get firstIndex).value := rfl
  have hfits : Word.Fits ((m.registers.get firstIndex).value + 1) := by
    rw [Word.Fits, weight_five]
    omega
  have hsum := Arithmetic.value_add hfits
  have hmagnitude := Word.natAbs_value (Arithmetic.add (m.registers.get firstIndex) 1)
  have hget : (m.moveWord here source goal).target.value = Word.value _ :=
    congrArg Word.value (get_setRegister (m.write goal (m.content source)) here firstIndex
      (Arithmetic.add (m.registers.get firstIndex) 1))
  rw [hget, weight_two]
  by_cases hlarge : 4096 ≤ (Arithmetic.add (m.registers.get firstIndex) 1).magnitude
  · have hlast : (Arithmetic.add (m.registers.get firstIndex) 1).magnitude % 4096 = 0 := by omega
    rw [if_pos (by simpa [hindex] using hlarge), hlast,
      (Word.value_eq_zero_iff _).mpr rfl]
    omega
  · rw [if_neg (by simpa [hindex] using hlarge), hsum]
    omega

end Rounds

section Loop

/-- What is moved by `count` rounds that begin with word `k` and the target `t`. Targets wrap around
after two bytes, and a round is reached only if the targets before it are in memory. -/
structure Moves (m : Machine σ) (here : Nat) (a : Address) (k count : Nat) (t : Int)
    (o : Outcome σ) : Prop where
  changed : ∀ l : Nat, o.1.memory[l]? ≠ m.memory[l]? → ∃ j < count, (l : Int) = (t + j) % 4096 ∧
    ∀ j' ≤ j, m.Inside ((t + j' : Int) % 4096)
  ok : o.2 = .ok .proceed ↔
    ∀ j < count, m.Inside (a.value + k + j) ∧ m.Inside ((t + j : Int) % 4096)
  failed : o.2 = .ok .proceed ∨ ∃ v, ¬ m.Inside v ∧ o.2 = .error (.memoryLocation here v)

theorem moves_moveWords (ha : a.value.natAbs + k + count < 0x100000000) (ht : m.target.value = t)
    (hfrom : 0 ≤ t) (hto : t < 4096) :
    m.Moves here a k count t (m.moveWords here a k count) := by
  induction count generalizing m k t with
  | zero =>
    exact ⟨fun l h => absurd rfl h, iff_of_true rfl fun j hj => absurd hj (Nat.not_lt_zero j),
      .inl rfl⟩
  | succ count ih =>
    have hvalue : (a.add k).value = a.value + k := Address.value_add (by omega)
    have hwrap : t % 4096 = t := Int.emod_eq_of_lt hfrom hto
    by_cases hin : m.Inside (a.add k).value ∧ m.Inside m.target.value
    · obtain ⟨source, hsource, -⟩ := location?_of_inside hin.1
      obtain ⟨goal, hgoal, htarget⟩ := location?_of_inside hin.2
      rw [hvalue, ht] at hin
      rw [ht] at htarget
      have hmoved := target_moveWord here source goal (ht.symm ▸ hfrom) (ht.symm ▸ hto)
      rw [ht] at hmoved
      have hmemory := memory_moveWord m here source goal
      have hinside (v : Int) : (m.moveWord here source goal).Inside v ↔ m.Inside v := by
        rw [Inside, Inside, hmemory, Memory.size_write]
      have hnext (j : Nat) : ((t + 1) % 4096 + j) % 4096 = (t + (j + 1 : Nat)) % 4096 := by omega
      have hrest : (m.moveWord here source goal).Moves here a (k + 1) count _ _ :=
        ih (by omega) hmoved (by omega) (by omega)
      rw [moveWords_of_locations hsource hgoal]
      refine ⟨fun l hl => ?_, ?_, ?_⟩
      · by_cases hgoalEq : goal = l
        · refine ⟨0, Nat.zero_lt_succ count, by omega, fun j' hj' => ?_⟩
          rw [Nat.le_zero.mp hj', Int.natCast_zero, Int.add_zero, hwrap]
          exact hin.2
        · have hkept : (m.moveWord here source goal).memory[l]? = m.memory[l]? := by
            rw [hmemory, Memory.getElem?_write_ne m.memory _ hgoalEq]
          obtain ⟨j, hj, heq, hreached⟩ := hrest.changed l (hkept ▸ hl)
          refine ⟨j + 1, Nat.succ_lt_succ hj, heq.trans (hnext j), fun j' hj' => ?_⟩
          cases j' with
          | zero =>
            rw [Int.natCast_zero, Int.add_zero, hwrap]
            exact hin.2
          | succ j' =>
            rw [← hnext, ← hinside]
            exact hreached j' (Nat.le_of_succ_le_succ hj')
      · refine hrest.ok.trans ?_
        rw [Nat.forall_lt_succ_left, Int.natCast_zero, Int.add_zero, Int.add_zero, hwrap,
          and_iff_right hin]
        refine forall₂_congr fun j hj => ?_
        have hsourceNext : a.value + (k + 1 : Nat) + j = a.value + k + (j + 1 : Nat) := by omega
        rw [hinside, hinside, hnext, hsourceNext]
      · refine hrest.failed.imp_right fun ⟨v, hv, hfail⟩ => ?_
        exact ⟨v, mt (hinside v).mpr hv, hfail⟩
    · obtain ⟨v, hv, hfail⟩ := moveWords_of_not_inside here count hin
      rw [hfail]
      refine ⟨fun l h => absurd rfl h, iff_of_false (fun h => by cases h) fun h => hin ?_,
        .inr ⟨v, hv, rfl⟩⟩
      have hfirst := h 0 (Nat.zero_lt_succ count)
      rwa [Int.natCast_zero, Int.add_zero, Int.add_zero, hwrap, ← ht, ← hvalue] at hfirst

/-- A target that is not in memory ends `MOVE` before the first word. -/
theorem moveWords_of_target_outside (here : Nat) (a : Address) (k count : Nat)
    (h : ¬ m.Inside m.target.value) :
    (m.moveWords here a k count).1.memory = m.memory ∧
      ((m.moveWords here a k count).2 = .ok .proceed ↔ count = 0) ∧
      ((m.moveWords here a k count).2 = .ok .proceed ∨
        ∃ v, ¬ m.Inside v ∧ (m.moveWords here a k count).2 = .error (.memoryLocation here v)) := by
  cases count with
  | zero => exact ⟨rfl, iff_of_true rfl rfl, .inl rfl⟩
  | succ count =>
    have hnot : ¬ (m.Inside (a.add k).value ∧ m.Inside m.target.value) := fun hin => h hin.2
    obtain ⟨v, hv, hfail⟩ := moveWords_of_not_inside here count hnot
    rw [hfail]
    exact ⟨rfl, iff_of_false (fun h => by cases h) (Nat.succ_ne_zero count), .inr ⟨v, hv, rfl⟩⟩

end Loop

section Step

variable {i : Instruction}

/-- The end of an instruction that may fail only because of a location. -/
theorem complete_of_locations {o : Outcome σ}
    (h : o.2 = .ok .proceed ∨ ∃ v, ¬ m.Inside v ∧ o.2 = .error (.memoryLocation here v)) :
    (complete i o).1.memory = o.1.memory ∧ (complete i o).2 = o.2 := by
  refine ⟨memory_complete i o, ?_⟩
  obtain ⟨m', result⟩ := o
  obtain h | ⟨v, -, h⟩ := h
  · cases h
    rfl
  · cases h
    exact (complete_eq_error_iff rfl).mpr rfl

/-- A target that can be reached does not wrap around before the end of memory, unless memory has
all locations of two bytes. -/
theorem target_eq {n j : Nat} (hfrom : 0 ≤ t) (hto : t < 4096) (hj : j < n)
    (hend : m.memory.size < 4096 ∨ t + n ≤ 4096)
    (hreached : ∀ j' ≤ j, m.Inside ((t + j' : Int) % 4096)) : (t + j) % 4096 = t + j := by
  by_cases hlast : t + j < 4096
  · omega
  · obtain hsmall | hshort := hend
    · -- One of the words before this one would have gone to the last location of two bytes.
      obtain ⟨-, hinside⟩ := hreached (4095 - t).toNat (by omega)
      omega
    · omega

variable [Peripherals σ]

/-- What `MOVE` is asked to do. It changes only the locations from its target on, as many as the
words that it moves; it goes through if all of them and all that it moves are in memory; and if
not, it fails because of a location that is not. -/
structure MovesToTarget (m : Machine σ) (i : Instruction) : Prop where
  changed : ∀ l : Nat, m.step.1.memory[l]? ≠ m.memory[l]? →
    m.Inside l ∧ m.target.value ≤ l ∧ l < m.target.value + i.field.val
  ok : m.step.2 = .ok .proceed ↔ ∀ j < i.field.val,
    m.Inside ((m.effectiveAddress i).value + j) ∧ m.Inside (m.target.value + j)
  failed : m.step.2 = .ok .proceed ∨
    ∃ v, ¬ m.Inside v ∧ m.step.2 = .error (.memoryLocation m.pc v)

/-- The words that `MOVE` moves reach the end of a memory that has all the locations of two bytes,
and there are more of them. -/
def Wraps (m : Machine σ) (i : Instruction) : Prop :=
  m.memory.size = 4096 ∧ m.Inside m.target.value ∧ 4096 < m.target.value + i.field.val

/-- What `MOVE` does in a memory that rI1 cannot point past: it goes through if all that it moves is
in memory, and what does not fit before the end of memory goes to the locations from zero on. -/
structure MovesAround (m : Machine σ) (i : Instruction) : Prop where
  changed : ∀ l : Nat, m.step.1.memory[l]? ≠ m.memory[l]? →
    ∃ j < i.field.val, (l : Int) = (m.target.value + j) % 4096
  ok : m.step.2 = .ok .proceed ↔ ∀ j < i.field.val, m.Inside ((m.effectiveAddress i).value + j)
  failed : m.step.2 = .ok .proceed ∨
    ∃ v, ¬ m.Inside v ∧ m.step.2 = .error (.memoryLocation m.pc v)

theorem step_eq_complete (hfetch : m.fetch = .ok i) (hop : i.operation = .move) :
    m.step = complete i (m.advance.moveWords m.pc (m.effectiveAddress i) 0 i.field.val) := by
  have hadmits : i.operation.admits i.field = true := by
    rw [hop]
    rfl
  rw [step_of_fetch_ok hfetch, execute, if_pos hadmits, perform, hop]
  rfl

/-- A step with `MOVE` moves words until it fails. -/
theorem moves_step (hfetch : m.fetch = .ok i) (hop : i.operation = .move)
    (hfrom : 0 ≤ m.target.value) (hto : m.target.value < 4096) :
    m.Moves m.pc (m.effectiveAddress i) 0 i.field.val m.target.value m.step := by
  have haddress := natAbs_effectiveAddress_lt hfetch
  have hfield := i.field.isLt
  have hmoves : m.advance.Moves m.pc (m.effectiveAddress i) 0 i.field.val m.target.value _ :=
    moves_moveWords (by omega) rfl hfrom hto
  obtain ⟨hmemory, hresult⟩ := complete_of_locations (i := i) hmoves.failed
  rw [step_eq_complete hfetch hop]
  refine ⟨fun l hl => ?_, ?_, ?_⟩
  · exact hmoves.changed l (hmemory ▸ hl)
  · exact hresult ▸ hmoves.ok
  · exact hresult ▸ hmoves.failed

theorem movesToTarget (hfetch : m.fetch = .ok i) (hop : i.operation = .move)
    (hsize : m.memory.size ≤ 4096) (hwraps : ¬ m.Wraps i) : m.MovesToTarget i := by
  by_cases hin : m.Inside m.target.value
  · have hend : m.memory.size < 4096 ∨ m.target.value + i.field.val ≤ 4096 :=
      (Nat.lt_or_eq_of_le hsize).imp_right fun hfull =>
        Int.not_lt.mp fun hpast => hwraps ⟨hfull, hin, hpast⟩
    obtain ⟨hfrom, hto⟩ := hin
    have hto' : m.target.value < 4096 := by omega
    have hmoves := moves_step hfetch hop hfrom hto'
    refine ⟨fun l hl => ?_, hmoves.ok.trans ?_, hmoves.failed⟩
    · obtain ⟨j, hj, heq, hreached⟩ := hmoves.changed l hl
      have hinside := hreached j (Nat.le_refl j)
      rw [target_eq hfrom hto' hj hend hreached] at heq hinside
      exact ⟨heq ▸ hinside, by omega, by omega⟩
    · rw [Int.natCast_zero, Int.add_zero]
      constructor
      · intro h j hj
        obtain ⟨hsource, hgoal⟩ := h j hj
        have hreached (j' : Nat) (hj' : j' ≤ j) := (h j' (Nat.lt_of_le_of_lt hj' hj)).2
        rw [target_eq hfrom hto' hj hend hreached] at hgoal
        exact ⟨hsource, hgoal⟩
      · intro h j hj
        obtain ⟨hsource, hgoal⟩ := h j hj
        have hsmall : (m.target.value + j) % 4096 = m.target.value + j := by
          obtain ⟨hgoalFrom, hgoalTo⟩ := hgoal
          omega
        rw [hsmall]
        exact ⟨hsource, hgoal⟩
  · have hnone : ¬ m.advance.Inside m.advance.target.value := hin
    obtain ⟨hmemory, hok, hfailed⟩ :=
      moveWords_of_target_outside m.pc (m.effectiveAddress i) 0 i.field.val hnone
    obtain ⟨hmemory', hresult⟩ := complete_of_locations (i := i) hfailed
    rw [← step_eq_complete hfetch hop] at hmemory' hresult
    rw [← hresult] at hok hfailed
    refine ⟨fun l hl => ?_, hok.trans ?_, hfailed⟩
    · exact absurd (congrArg (·[l]?) (hmemory'.trans hmemory)) hl
    · constructor
      · intro hzero j hj
        omega
      · intro h
        refine Nat.eq_zero_of_not_pos fun hpos => hin ?_
        have hfirst := (h 0 hpos).2
        rwa [Int.natCast_zero, Int.add_zero] at hfirst

theorem movesAround (hfetch : m.fetch = .ok i) (hop : i.operation = .move)
    (hwraps : m.Wraps i) : m.MovesAround i := by
  obtain ⟨hsize, ⟨hfrom, hto⟩, -⟩ := hwraps
  have hmoves := moves_step hfetch hop hfrom (by omega)
  refine ⟨fun l hl => ?_, hmoves.ok.trans ?_, hmoves.failed⟩
  · obtain ⟨j, hj, heq, -⟩ := hmoves.changed l hl
    exact ⟨j, hj, heq⟩
  · rw [Int.natCast_zero, Int.add_zero]
    refine forall₂_congr fun j _ => and_iff_left ?_
    have hwrapped : 0 ≤ (m.target.value + j) % 4096 ∧ (m.target.value + j) % 4096 < 4096 := by omega
    exact ⟨hwrapped.1, by omega⟩

/-- `MOVE` keeps to its target, wherever it points, unless memory has all the locations that two
bytes can name and the words do not fit before its end. Then rI1 wraps around, and `MOVE` goes on
from location zero. -/
theorem step_move {m : Machine σ} {i : Instruction} (hfetch : m.fetch = .ok i)
    (hop : i.operation = .move) (hsize : m.memory.size ≤ 4096) :
    (¬ m.Wraps i → m.MovesToTarget i) ∧ (m.Wraps i → m.MovesAround i) :=
  ⟨movesToTarget hfetch hop hsize, movesAround hfetch hop⟩

end Step

def beforeMove : Machine Unattached :=
  (ofImage ⟨4, .halt, none⟩ Unattached.mk
    [Word.wrap false 262279, Word.wrap false 5, Word.wrap false 6]).setRegisters
    (Registers.initial.set firstIndex (Word.wrap false 3))

/-- The first word is moved, and for the second there is no room. -/
theorem step_move_past_end :
    beforeMove.fetch = .ok ⟨.move, 0, 2, ⟨false, 1⟩⟩ ∧ beforeMove.memory.size ≤ 4096 ∧
      ¬ beforeMove.Wraps ⟨.move, 0, 2, ⟨false, 1⟩⟩ ∧
      beforeMove.MovesToTarget ⟨.move, 0, 2, ⟨false, 1⟩⟩ ∧
      beforeMove.step.2 = .error (.memoryLocation 0 4) ∧
      beforeMove.step.1.memory[3]? = some (Word.wrap false 5) := by
  have hfetch : beforeMove.fetch = .ok ⟨.move, 0, 2, ⟨false, 1⟩⟩ := rfl
  have hsize : beforeMove.memory.size = 4 := rfl
  have hle : beforeMove.memory.size ≤ 4096 := by omega
  have hwraps : ¬ beforeMove.Wraps ⟨.move, 0, 2, ⟨false, 1⟩⟩ := fun h => by
    have := h.1
    omega
  have hmoves := (step_move hfetch rfl hle).1 hwraps
  exact ⟨hfetch, hle, hwraps, hmoves, rfl, rfl⟩

def beforeWrap : Machine Unattached :=
  (ofImage ⟨4096, .halt, none⟩ Unattached.mk
    [Word.wrap false 262279, Word.wrap false 5, Word.wrap false 6]).setRegisters
    (Registers.initial.set firstIndex (Word.wrap false 4095))

theorem size_beforeWrap : beforeWrap.memory.size = 4096 := by
  decide +kernel

theorem fetch_beforeWrap : beforeWrap.fetch = .ok ⟨.move, 0, 2, ⟨false, 1⟩⟩ := by
  have hword : beforeWrap.word? beforeWrap.pc = some (Word.wrap false 262279) := by
    decide +kernel
  exact fetch_of_word hword rfl

/-- So in a memory of the largest size `MOVE` does not keep to its target. -/
theorem not_move_keeps_target :
    ¬ ∀ (m : Machine Unattached) (i : Instruction), 4000 ≤ m.memory.size → m.memory.size ≤ 4096 →
      m.fetch = .ok i → i.operation = .move → m.MovesToTarget i := by
  intro h
  have hsize := size_beforeWrap
  have htarget : beforeWrap.target.value = 4095 := by decide +kernel
  have hwraps : beforeWrap.Wraps ⟨.move, 0, 2, ⟨false, 1⟩⟩ := by
    refine ⟨hsize, ⟨by omega, by omega⟩, ?_⟩
    rw [htarget]
    decide
  have hmoves := h beforeWrap _ (by omega) (by omega) fetch_beforeWrap rfl
  have haround := movesAround fetch_beforeWrap rfl hwraps
  have hsource : (beforeWrap.effectiveAddress ⟨.move, 0, 2, ⟨false, 1⟩⟩).value = 1 := by
    decide +kernel
  have hok : beforeWrap.step.2 = .ok .proceed := haround.ok.mpr fun j hj => by
    change j < 2 at hj
    exact ⟨by omega, by omega⟩
  have hinside : beforeWrap.Inside (beforeWrap.target.value + (1 : Nat)) :=
    (hmoves.ok.mp hok 1 (by decide)).2
  have hpast := hinside.2
  omega

end Machine

end MixComputer
