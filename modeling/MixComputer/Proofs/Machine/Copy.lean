import Mathlib.Order.Bounds.Basic
import MixComputer.Proofs.Machine.Move
import MixComputer.Proofs.Memory

/-!
What `MOVE` leaves in memory. Words are copied one by one, so a target that begins behind the source
and within it receives words that have been moved before: the words in front of the target, over
and over. This holds also of a `MOVE` that fails, for the words that it had moved until then.
-/
namespace MixComputer

namespace Machine

variable {σ : Type} {m m' : Machine σ} {here k n count : Nat} {a : Address} {s t : Int} {l : Nat}

section Origin

/-- Where the word comes from that is the `k`-th to be moved from `s` on to `t` on. -/
def origin (s t : Int) (k : Nat) : Int := if s < t then s + k % (t - s) else s + k

/-- A word from where none has been moved to. -/
theorem origin_of_not_moved (h : ∀ j < k, s + k ≠ t + j) : origin s t k = s + k := by
  unfold origin
  split
  · rename_i hlt
    have hnot : ¬ t - s ≤ k := fun hle => h (k - (t - s)).toNat (by omega) (by omega)
    rw [Int.emod_eq_of_lt (Int.natCast_nonneg k) (by omega)]
  · rfl

/-- A word that has been moved before. -/
theorem origin_of_moved {j : Nat} (hj : j < k) (h : s + k = t + j) :
    origin s t k = origin s t j := by
  have hlt : s < t := by omega
  have hback : (j : Int) = k - (t - s) := by omega
  rw [origin, origin, if_pos hlt, if_pos hlt, hback, Int.sub_emod_right]

end Origin

section Rounds

/-- What is left of a machine after `n` words have been moved from `s` on to where rI1 points. -/
structure Copied (m : Machine σ) (s : Int) (n : Nat) (m' : Machine σ) : Prop where
  size : m'.memory.size = m.memory.size
  moved : ∀ k < n,
    m'.memory[(m.target.value + k).toNat]? = m.memory[(origin s m.target.value k).toNat]?
  kept : ∀ l : Nat, (∀ k < n, (l : Int) ≠ m.target.value + k) → m'.memory[l]? = m.memory[l]?
  unmoved : n = 0 → m'.registers = m.registers
  pointer : 0 < n → m'.registers =
    m.registers.set firstIndex (Word.wrap false (m.target.value + n).toNat)
  anomalies : m'.anomalies = m.anomalies

/-- The next word may be one that has been moved before. -/
theorem Copied.content (h : m.Copied s n m') (hfrom : 0 ≤ s + n) :
    m'.memory[(s + n).toNat]? = m.memory[(origin s m.target.value n).toNat]? := by
  -- The place that is read next is a target of an earlier round, or no round has written to it.
  by_cases hmoved : ∃ j < n, s + n = m.target.value + j
  · obtain ⟨j, hj, heq⟩ := hmoved
    rw [origin_of_moved hj heq, heq]
    exact h.moved j hj
  · have hnot : ∀ j < n, s + n ≠ m.target.value + j := fun j hj heq => hmoved ⟨j, hj, heq⟩
    rw [origin_of_not_moved hnot]
    refine h.kept _ fun j hj heq => hnot j hj ?_
    omega

/-- rI1 points to where the next word goes. -/
theorem Copied.target (h : m.Copied s n m') (hfrom : 0 < n → 0 ≤ m.target.value)
    (hto : m.target.value + n ≤ 4095) : m'.target.value = m.target.value + n := by
  rcases Nat.eq_zero_or_pos n with hzero | hpos
  · have hsame : m'.target = m.target := by rw [Machine.target, Machine.target, h.unmoved hzero]
    rw [hsame, hzero, Int.natCast_zero, Int.add_zero]
  · have hsmall : (m.target.value + n).toNat < weight 5 := by
      rw [weight_five]
      omega
    have hget : m'.registers.get firstIndex = Word.wrap false (m.target.value + n).toNat := by
      rw [h.pointer hpos, Registers.get_set, if_pos rfl]
    have hvalue : m'.target.value = (m'.registers.get firstIndex).value := rfl
    have hnonneg := hfrom hpos
    rw [hvalue, hget, Word.value_wrap false hsmall]
    change (((m.target.value + n).toNat : Nat) : Int) = _
    omega

/-- As long as rI1 has two bytes when it moves along, nothing is recorded. -/
theorem moveWord_eq (here source goal : Nat) (hfrom : 0 ≤ m.target.value)
    (hto : m.target.value < 4095) :
    m.moveWord here source goal = { m with
      memory := m.memory.write goal (m.content source)
      registers := m.registers.set firstIndex (Word.wrap false (m.target.value + 1).toNat) } := by
  have hvalue : m.target.value = (m.registers.get firstIndex).value := rfl
  have hsum : Arithmetic.add (m.registers.get firstIndex) 1 =
      Word.wrap false (m.target.value + 1).toNat := by
    have hsign : decide (m.target.value + 1 < 0) = false := decide_eq_false (by omega)
    have hmagnitude : (m.target.value + 1).natAbs = (m.target.value + 1).toNat := by omega
    rw [Arithmetic.add, ← hvalue, if_neg (by omega), Word.ofInt, hsign, hmagnitude]
  have hsmall : ¬ weight 2 ≤ (Word.wrap false (m.target.value + 1).toNat).magnitude := by
    rw [Word.magnitude_wrap, weight_two, weight_five]
    omega
  have hbytes : ¬ (Register.isIndex firstIndex &&
      decide (weight 2 ≤ (Word.wrap false (m.target.value + 1).toNat).magnitude)) = true := by
    rw [decide_eq_false hsmall, Bool.and_false]
    exact Bool.false_ne_true
  change (m.write goal (m.content source)).setRegister here firstIndex
    (Arithmetic.add (m.registers.get firstIndex) 1) = _
  rw [hsum, setRegister, if_neg hbytes]
  rfl

theorem getElem?_eq_content (h : l < m.memory.size) : m.memory[l]? = some (m.content l) := by
  rw [Machine.content, Array.getD_eq_getD_getElem?, Array.getElem?_eq_getElem h, Option.getD_some]

/-- One more word is moved. -/
theorem Copied.moveWord {source goal : Nat} (h : m.Copied s n m') (here : Nat)
    (hsource : m.Inside (s + n)) (hgoal : m.Inside (m.target.value + n))
    (hfrom : 0 ≤ m.target.value) (hto : m.target.value + n < 4095) (hs : s + n = source)
    (ht : m.target.value + n = goal) : m.Copied s (n + 1) (m'.moveWord here source goal) := by
  obtain ⟨hsourceFrom, hsourceTo⟩ := hsource
  obtain ⟨hgoalFrom, hgoalTo⟩ := hgoal
  have htarget := h.target (fun _ => hfrom) (Int.le_of_lt hto)
  have hcontent := h.content hsourceFrom
  have hsourceLt : source < m'.memory.size := by
    rw [h.size]
    omega
  have hgoalLt : goal < m'.memory.size := by
    rw [h.size]
    omega
  rw [hs, Int.toNat_natCast, getElem?_eq_content hsourceLt] at hcontent
  rw [moveWord_eq here source goal (by omega) (by omega)]
  refine ⟨(Memory.size_write _ _ _).trans h.size, fun k hk => ?_, fun l hl => ?_,
    fun hzero => absurd hzero (Nat.succ_ne_zero n), fun _ => ?_, h.anomalies⟩
  · rcases Nat.lt_succ_iff_lt_or_eq.mp hk with hbefore | rfl
    · rw [Memory.getElem?_write_ne _ _ (by omega)]
      exact h.moved k hbefore
    · rw [ht, Int.toNat_natCast, Memory.getElem?_write_self _ _ hgoalLt]
      exact hcontent
  · have hlast := hl n (Nat.lt_succ_self n)
    rw [Memory.getElem?_write_ne _ _ (by omega)]
    exact h.kept l fun k hk => hl k (Nat.lt_succ_of_lt hk)
  · have hnext : m'.target.value + 1 = m.target.value + (n + 1 : Nat) := by omega
    change m'.registers.set firstIndex _ = _
    rw [hnext]
    rcases Nat.eq_zero_or_pos n with hzero | hpos
    · rw [h.unmoved hzero]
    · rw [h.pointer hpos, Registers.set_set]

end Rounds

section Loop

/-- Whether the first `n` of `count` words can be moved: they are in memory, and so are the places
that they go to. -/
def Movable (m : Machine σ) (s : Int) (count n : Nat) : Prop :=
  n ≤ count ∧ ∀ k < n, m.Inside (s + k) ∧ m.Inside (m.target.value + k)

structure Copies (m : Machine σ) (here : Nat) (s : Int) (count n : Nat) (o : Outcome σ) :
    Prop where
  copied : m.Copied s n o.1
  ok : o.2 = .ok .proceed ↔ n = count
  source_outside : n < count → ¬ m.Inside (s + n) → o.2 = .error (.memoryLocation here (s + n))
  goal_outside : n < count → m.Inside (s + n) →
    o.2 = .error (.memoryLocation here (m.target.value + n))

theorem isGreatest_movable (hmovable : m.Movable s count n)
    (hstop : n < count → ¬ (m.Inside (s + n) ∧ m.Inside (m.target.value + n))) :
    IsGreatest {n | m.Movable s count n} n := by
  refine ⟨hmovable, fun n' hn' => Nat.not_lt.mp fun hlt => ?_⟩
  exact hstop (Nat.lt_of_lt_of_le hlt hn'.1) (hn'.2 n hlt)

theorem Movable.next (h : m.Movable s count n) (hlt : n < count) (hsource : m.Inside (s + n))
    (hgoal : m.Inside (m.target.value + n)) : m.Movable s count (n + 1) :=
  ⟨hlt, Nat.forall_lt_succ_right.mpr ⟨h.2, hsource, hgoal⟩⟩

/-- If anything can be moved, rI1 is not negative. -/
theorem Movable.target_nonneg (h : m.Movable s count n) (hpos : 0 < n) : 0 ≤ m.target.value := by
  have hfirst := (h.2 0 hpos).2.1
  rwa [Int.natCast_zero, Int.add_zero] at hfirst

/-- The rounds that are left after `k` words go on as far as words can be moved. -/
theorem copies_moveWords {rest : Nat} (h : m.Copied a.value k m') (here : Nat)
    (hmovable : m.Movable a.value count k) (hrest : k + rest = count)
    (ha : a.value.natAbs + count < 0x100000000) (hto : m.target.value + count ≤ 4095) :
    ∃ n, IsGreatest {n | m.Movable a.value count n} n ∧
      m.Copies here a.value count n (m'.moveWords here a k rest) := by
  -- The machine `m'` is that of a later round each time, and `m` stays the one before the first.
  induction rest generalizing m' k with
  | zero =>
    obtain rfl : k = count := hrest
    exact ⟨k, isGreatest_movable hmovable fun hlt => absurd hlt (Nat.lt_irrefl k),
      h, iff_of_true rfl rfl, fun hlt => absurd hlt (Nat.lt_irrefl k),
      fun hlt => absurd hlt (Nat.lt_irrefl k)⟩
  | succ rest ih =>
    have hlt : k < count := by omega
    have hvalue : (a.add k).value = a.value + k := Address.value_add (by omega)
    have htarget := h.target hmovable.target_nonneg (by omega)
    have hinside (v : Int) : m'.Inside v ↔ m.Inside v := by rw [Inside, Inside, h.size]
    by_cases hsource : m.Inside (a.value + k)
    · have hsource' : m'.Inside (a.add k).value := hvalue ▸ (hinside _).mpr hsource
      by_cases hgoal : m.Inside (m.target.value + k)
      · have hgoal' : m'.Inside m'.target.value := htarget ▸ (hinside _).mpr hgoal
        obtain ⟨source, hsourceLocation, hs⟩ := location?_of_inside hsource'
        obtain ⟨goal, hgoalLocation, ht⟩ := location?_of_inside hgoal'
        have hnext := hmovable.next hlt hsource hgoal
        have hmoved := h.moveWord here hsource hgoal (hnext.target_nonneg (Nat.succ_pos k))
          (by omega) (hvalue ▸ hs) (htarget ▸ ht)
        rw [moveWords_of_locations hsourceLocation hgoalLocation]
        exact ih hmoved hnext (by omega)
      · have hgoal' : ¬ m'.Inside m'.target.value := htarget ▸ mt (hinside _).mp hgoal
        rw [moveWords_of_goal_outside here rest hsource' hgoal', htarget]
        exact ⟨k, isGreatest_movable hmovable fun _ hboth => hgoal hboth.2, h,
          iff_of_false (fun hok => by cases hok) (Nat.ne_of_lt hlt),
          fun _ hnot => absurd hsource hnot, fun _ _ => rfl⟩
    · have hsource' : ¬ m'.Inside (a.add k).value := hvalue ▸ mt (hinside _).mp hsource
      rw [moveWords_of_source_outside here rest hsource', hvalue]
      exact ⟨k, isGreatest_movable hmovable fun _ hboth => hsource hboth.1, h,
        iff_of_false (fun hok => by cases hok) (Nat.ne_of_lt hlt),
        fun _ _ => rfl, fun _ hin => absurd hin hsource⟩

end Loop

section Step

variable {i : Instruction}

/-- How a step ends an instruction is no business of the words that it moved. -/
theorem Copies.complete {o : Outcome σ} (h : m.Copies here s count n o) (hle : n ≤ count)
    (i : Instruction) : m.Copies here s count n (complete i o) := by
  obtain ⟨m', result⟩ := o
  have hcopied : m.Copied s n m' := h.copied
  rcases Nat.eq_or_lt_of_le hle with heq | hlt
  · obtain rfl : result = .ok .proceed := h.ok.mpr heq
    exact ⟨⟨hcopied.size, hcopied.moved, hcopied.kept, hcopied.unmoved, hcopied.pointer,
      hcopied.anomalies⟩, h.ok, h.source_outside, h.goal_outside⟩
  · by_cases hsource : m.Inside (s + n)
    · obtain rfl : result = .error (.memoryLocation here (m.target.value + n)) :=
        h.goal_outside hlt hsource
      exact h
    · obtain rfl : result = .error (.memoryLocation here (s + n)) := h.source_outside hlt hsource
      exact h

variable [Peripherals σ]

/-- `MOVE` moves as many words as are in memory, one by one, until one of them or its target is
not. -/
theorem step_copies (hfetch : m.fetch = .ok i) (hop : i.operation = .move)
    (hto : m.target.value + i.field.val ≤ 4095) :
    ∃ n, IsGreatest {n | m.Movable (m.effectiveAddress i).value i.field.val n} n ∧
      m.Copies m.pc (m.effectiveAddress i).value i.field.val n m.step := by
  have haddress := natAbs_effectiveAddress_lt hfetch
  have hfield := i.field.isLt
  have hnone : m.Copied (m.effectiveAddress i).value 0 m.advance :=
    ⟨rfl, fun k hk => absurd hk (Nat.not_lt_zero k), fun _ _ => rfl, fun _ => rfl,
      fun hpos => absurd hpos (Nat.lt_irrefl 0), rfl⟩
  have hstart : m.Movable (m.effectiveAddress i).value i.field.val 0 :=
    ⟨Nat.zero_le _, fun k hk => absurd hk (Nat.not_lt_zero k)⟩
  obtain ⟨n, hgreatest, hcopies⟩ :=
    copies_moveWords hnone m.pc hstart (Nat.zero_add _) (by omega) hto
  rw [step_eq_complete hfetch hop]
  exact ⟨n, hgreatest, hcopies.complete hgreatest.1.1 i⟩

end Step

/-- A machine with six words of memory, about to move five words from 1 on to 3 and the places that
follow. Two of these places are not there. -/
def beforeCopy : Machine Unattached :=
  (ofImage ⟨6, .halt, none⟩ Unattached.mk
    [Word.wrap false 262471, Word.wrap true 11, Word.wrap false 12, Word.wrap false 13,
      Word.wrap false 14, Word.wrap false 15]).setRegisters
    (Registers.initial.set firstIndex (Word.wrap false 3))

/-- Three words are moved, and the third is the first once more. -/
theorem step_copies_first_again :
    beforeCopy.fetch = .ok ⟨.move, 0, 5, ⟨false, 1⟩⟩ ∧ beforeCopy.target.value = 3 ∧
      beforeCopy.Copies 0 1 5 3 beforeCopy.step ∧
      beforeCopy.step.2 = .error (.memoryLocation 0 6) ∧
      beforeCopy.step.1.registers.get firstIndex = Word.wrap false 6 ∧
      beforeCopy.step.1.memory[3]? = some (Word.wrap true 11) ∧
      beforeCopy.step.1.memory[4]? = some (Word.wrap false 12) ∧
      beforeCopy.step.1.memory[5]? = some (Word.wrap true 11) := by
  have hfetch : beforeCopy.fetch = .ok ⟨.move, 0, 5, ⟨false, 1⟩⟩ := rfl
  have hsize : beforeCopy.memory.size = 6 := rfl
  have htarget : beforeCopy.target.value = 3 := rfl
  have hinside (v : Int) : beforeCopy.Inside v ↔ 0 ≤ v ∧ v < 6 := by
    rw [Inside, hsize]
    rfl
  have hgreatest : IsGreatest {n | beforeCopy.Movable 1 5 n} 3 := by
    refine isGreatest_movable ⟨by decide, fun k hk => ?_⟩ fun _ hboth => ?_
    · rw [hinside, hinside, htarget]
      omega
    · have hpast := ((hinside _).mp hboth.2).2
      omega
  obtain ⟨n, hmost, hcopies⟩ := step_copies hfetch rfl (by decide)
  obtain rfl : n = 3 := hmost.unique hgreatest
  exact ⟨hfetch, htarget, hcopies, rfl, rfl, rfl, rfl, rfl⟩

end Machine

end MixComputer
