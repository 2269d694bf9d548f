import MixComputer.Proofs.Word
import MixComputer.Registers

/-!
What is found in a register after one has been set, and the limits of the register file: the
index registers and rJ have two bytes.
-/
namespace MixComputer.Registers

variable {s : Registers} {r : Register} {w : Word}

theorem get_set (s : Registers) (r other : Register) (w : Word) :
    (s.set r w).get other = if r = other then w else s.get other := by
  simp only [get, set, Fin.getElem_fin, Vector.getElem_set, Fin.ext_iff]

/-- A word that is stored where it was found is no change. -/
theorem set_get (s : Registers) (r : Register) : s.set r (s.get r) = s := by
  unfold set get
  simp

theorem set_set (s : Registers) (r : Register) (w w' : Word) :
    (s.set r w).set r w' = s.set r w' := by
  unfold set
  simp

theorem set_comm (s : Registers) {r other : Register} (h : r ≠ other) (w w' : Word) :
    (s.set r w).set other w' = (s.set other w').set r w := by
  unfold set
  have hval : r.val ≠ other.val := fun heq => h (Fin.ext heq)
  simp [Vector.set_comm _ _ hval]

@[simp]
theorem a_setA (s : Registers) (w : Word) : (s.setA w).a = w :=
  (get_set s .a .a w).trans (if_pos rfl)

@[simp]
theorem x_setA (s : Registers) (w : Word) : (s.setA w).x = s.x :=
  (get_set s .a .x w).trans (if_neg (by decide))

def withPair (s : Registers) (words : Word × Word) : Registers := (s.setA words.1).setX words.2

@[simp]
theorem a_withPair (s : Registers) (words : Word × Word) : (s.withPair words).a = words.1 := by
  have hx : (s.withPair words).a = (s.setA words.1).a := get_set _ .x .a _
  rw [hx, a_setA]

@[simp]
theorem x_withPair (s : Registers) (words : Word × Word) : (s.withPair words).x = words.2 :=
  (get_set _ .x .x _).trans (if_pos rfl)

theorem withPair_self (s : Registers) : s.withPair (s.a, s.x) = s := by
  have ha : s.setA s.a = s := s.set_get .a
  have hx : s.setX s.x = s := s.set_get .x
  rw [withPair, ha, hx]

theorem withPair_withPair (s : Registers) (words words' : Word × Word) :
    (s.withPair words).withPair words' = s.withPair words' := by
  have hne : Register.x ≠ Register.a := by decide
  simp only [withPair, setA, setX]
  rw [set_comm _ hne, set_set, set_set]

/-- A register that has more bytes than it should is still a word. -/
theorem natAbs_indexValue_lt (s : Registers) (i : Fin 7) :
    (s.indexValue i).natAbs < 1073741824 := by
  unfold indexValue
  split
  · decide
  · exact Word.natAbs_value_lt _

def IndexBounded (s : Registers) : Prop :=
  ∀ r : Register, Register.isIndex r = true → (s.get r).magnitude < weight 2

instance (s : Registers) : Decidable s.IndexBounded :=
  inferInstanceAs (Decidable (∀ r : Register, _ → (s.get r).magnitude < weight 2))

structure Bounded (s : Registers) : Prop where
  index : ∀ r : Register, Register.isIndex r = true → (s.get r).magnitude < weight 2
  j : s.j < weight 2

theorem bounded_initial : initial.Bounded := by
  refine ⟨?_, weight_pos 2⟩
  intro r _
  have hzero : initial.get r = Word.zero := by simp [get, initial]
  rw [hzero]
  exact weight_pos 2

/-- A word for another register, or one of two bytes. -/
theorem Bounded.set (h : s.Bounded)
    (hw : Register.isIndex r = true → w.magnitude < weight 2) : (s.set r w).Bounded := by
  refine ⟨?_, h.j⟩
  intro other hother
  rw [get_set]
  by_cases heq : r = other
  · rw [if_pos heq]
    exact hw (heq ▸ hother)
  · rw [if_neg heq]
    exact h.index other hother

theorem Bounded.setA (h : s.Bounded) : (s.setA w).Bounded := h.set fun ha => by cases ha

theorem Bounded.setX (h : s.Bounded) : (s.setX w).Bounded := h.set fun hx => by cases hx

/-- The toggle and the indicator have no limits. -/
theorem Bounded.congr {t : Registers} (h : s.Bounded) (hgeneral : t.general = s.general)
    (hj : t.j = s.j) : t.Bounded := by
  refine ⟨?_, hj ▸ h.j⟩
  intro r hr
  have hget : t.get r = s.get r := by rw [get, get, hgeneral]
  rw [hget]
  exact h.index r hr

/-- An index has two bytes if every index register has. -/
theorem IndexBounded.natAbs_indexValue (h : s.IndexBounded) (i : Fin 7) :
    (s.indexValue i).natAbs < weight 2 := by
  unfold indexValue
  by_cases hzero : i.val = 0
  · rw [if_pos hzero]
    exact weight_pos 2
  · rw [if_neg hzero]
    have hlt := i.isLt
    have hindex : Register.isIndex (i.castLE (by decide) : Register) = true := by
      simp only [Register.isIndex, Fin.val_castLE, Bool.and_eq_true, decide_eq_true_eq]
      omega
    have hmagnitude := h _ hindex
    unfold Word.value
    split <;> omega

theorem Bounded.natAbs_indexValue (h : s.Bounded) (i : Fin 7) :
    (s.indexValue i).natAbs < weight 2 := IndexBounded.natAbs_indexValue h.index i

end MixComputer.Registers
