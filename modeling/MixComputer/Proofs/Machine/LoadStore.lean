import MixComputer.Proofs.Field
import MixComputer.Proofs.Machine.Index
import MixComputer.Proofs.Memory

/-!
Loads and stores through one field. Both keep to the right end of the register, so what has been
loaded is stored back where it was, unless an index register was too narrow for it. What has been
stored is loaded again into rA or rX, as many bytes of it as the field has. A load that comes right
after a store must not be what the store has changed.
-/
namespace MixComputer.Machine

variable {σ : Type} {m : Machine σ} {r t : Register} {f : Field} {l : Nat}

section Load

variable [Peripherals σ]

/-- A load changes nothing but a register, and records what does not fit there. -/
theorem AppliesAt.load_keeps (h : m.AppliesAt (.load r) f l) :
    m.step.2 = .ok .proceed ∧ m.step.1.memory = m.memory ∧
      (m.step.1.anomalies = m.anomalies →
        m.step.1.registers.get r = f.extract (m.content l)) := by
  obtain ⟨i, hstep⟩ := h.step_load
  rw [hstep]
  refine ⟨rfl, memory_setRegister _ _ _ _, ?_⟩
  exact get_setRegister_of_anomalies m.advance m.pc r (f.extract (m.content l))

/-- rA and rX have room for what is loaded. -/
theorem AppliesAt.get_load (h : m.AppliesAt (.load t) f l) (ht : Register.isIndex t = false) :
    m.step.1.registers.get t = f.extract (m.content l) := by
  obtain ⟨i, hstep⟩ := h.step_load
  have hwhole :
      ¬ (Register.isIndex t && weight 2 ≤ (f.extract (m.content l)).magnitude) = true := by
    simp [ht]
  have hget := get_setRegister m.advance m.pc t (f.extract (m.content l))
  rw [if_neg hwhole] at hget
  rw [hstep]
  exact hget

end Load

section Store

variable [Peripherals σ]

structure StoresAt (m : Machine σ) (r : Register) (f : Field) (l : Nat) : Prop where
  ok : m.step.2 = .ok .proceed
  registers : m.step.1.registers = m.registers
  content : m.step.1.content l = f.insert (m.content l) (m.registers.get r)
  unchanged : ∀ other, other ≠ l → m.step.1.memory[other]? = m.memory[other]?

theorem AppliesAt.step_store (h : m.AppliesAt (.store r) f l) :
    m.step.2 = .ok .proceed ∧ m.step.1.registers = m.registers ∧ m.step.1.pc = m.pc + 1 ∧
      m.step.1.memory = m.memory.write l (f.insert (m.content l) (m.registers.get r)) := by
  obtain ⟨i, -, -, hstep⟩ := h.exists_step rfl
    (fun f l => (m.advance.write l (f.insert (m.content l) (m.registers.get r))).proceed)
    (fun i hi => by
      rw [perform, hi]
      rfl)
  rw [hstep]
  exact ⟨rfl, rfl, rfl, rfl⟩

theorem AppliesAt.storesAt (h : m.AppliesAt (.store r) f l) : m.StoresAt r f l := by
  obtain ⟨hok, hregisters, -, hmemory⟩ := h.step_store
  refine ⟨hok, hregisters, ?_, ?_⟩
  · rw [content, hmemory, Memory.getD_write, if_pos ⟨rfl, h.lt⟩]
  · intro other hne
    rw [hmemory]
    exact Memory.getElem?_write_ne m.memory _ (Ne.symm hne)

/-- The instruction after a store is what it was, unless the store has changed it. -/
theorem AppliesAt.after_store {operation : Operation} {g : Field} {k : Nat}
    (h : m.AppliesAt (.store r) f l) (hnext : (m.setPc (m.pc + 1)).AppliesAt operation g k)
    (hne : l ≠ m.pc + 1) : m.step.1.AppliesAt operation g k := by
  obtain ⟨-, hregisters, hpc, hmemory⟩ := h.step_store
  apply hnext.congr
  · exact hpc
  · exact h.storesAt.unchanged _ (Ne.symm hne)
  · rw [hmemory]
    exact Memory.size_write _ _ _
  · exact hregisters

end Store

section Step

variable [Peripherals σ]

/-- Of two steps the second loads what the first has stored: the last bytes of the register `r`, and
its sign if the field begins with byte 0. -/
structure LoadsBack (m : Machine σ) (r t : Register) (f : Field) : Prop where
  ok : m.step.1.step.2 = .ok .proceed
  negative : (m.step.1.step.1.registers.get t).negative =
    if f.left = 0 then (m.registers.get r).negative else false
  bytes : (m.step.1.step.1.registers.get t).bytes =
    zeroBytes (5 - f.byteCount) ++ (m.registers.get r).bytes.drop (5 - f.byteCount)

/-- What has been loaded is stored back. -/
theorem AppliesAt.memory_load_store (h : m.AppliesAt (.load r) f l)
    (hnext : m.step.1.AppliesAt (.store r) f l) (hnone : m.step.1.anomalies = m.anomalies) :
    m.step.1.step.1.memory = m.memory := by
  obtain ⟨-, hmemory, hget⟩ := h.load_keeps
  have hcontent : m.step.1.content l = m.content l := by rw [content, content, hmemory]
  rw [hnext.step_store.2.2.2, hget hnone, hcontent, Field.insert_extract, hmemory]
  exact Memory.write_getD m.memory h.lt

/-- What has been stored is loaded again. -/
theorem AppliesAt.loadsBack (h : m.AppliesAt (.store r) f l)
    (hnext : m.step.1.AppliesAt (.load t) f l) (ht : Register.isIndex t = false) :
    m.LoadsBack r t f := by
  have hget := hnext.get_load ht
  rw [h.storesAt.content] at hget
  refine ⟨hnext.load_keeps.1, ?_, ?_⟩
  · rw [hget, Field.negative_extract, Field.negative_insert]
    split <;> rfl
  · rw [hget]
    exact ((f.cuts (m.content l)).insert _).bytes_extract

/-- Loads and stores through the same field of the same location cancel, and a store changes nothing
but that location. -/
theorem step_loadStore (m : Machine σ) (r : Register) (f : Field) (l : Nat) :
    (m.AppliesAt (.load r) f l → m.step.1.AppliesAt (.store r) f l →
        m.step.1.anomalies = m.anomalies →
          m.step.1.step.2 = .ok .proceed ∧ m.step.1.step.1.memory = m.memory) ∧
      (m.AppliesAt (.store r) f l → m.StoresAt r f l) ∧
      ∀ t : Register, Register.isIndex t = false → m.AppliesAt (.store r) f l →
        (m.setPc (m.pc + 1)).AppliesAt (.load t) f l → l ≠ m.pc + 1 → m.LoadsBack r t f := by
  refine ⟨?_, fun h => h.storesAt, ?_⟩
  · intro h hnext hnone
    exact ⟨hnext.step_store.1, h.memory_load_store hnext hnone⟩
  · intro t ht h hnext hne
    exact h.loadsBack (h.after_store hnext hne) ht

end Step

def beforeCancelling : Machine Unattached :=
  ofImage ⟨6, .halt, none⟩ Unattached.mk
    [Word.wrap false 1048713, Word.wrap false 1048729, Word.wrap false 1313113,
      Word.wrap false 1313103, Word.wrap true 17314053]

theorem step_loadStore_both :
    beforeCancelling.AppliesAt (.load firstIndex) Field.address 4 ∧
      beforeCancelling.step.1.AppliesAt (.store firstIndex) Field.address 4 ∧
      beforeCancelling.step.1.step.1.memory = beforeCancelling.memory ∧
      beforeCancelling.step.1.StoresAt firstIndex Field.address 4 ∧
      beforeCancelling.step.1.step.1.LoadsBack firstIndex .x ⟨4, 5, by decide, by decide⟩ ∧
      beforeCancelling.step.1.step.1.step.1.step.1.registers.x = Word.wrap false 66 := by
  have hload : beforeCancelling.AppliesAt (.load firstIndex) Field.address 4 :=
    ⟨⟨.load firstIndex, 0, 2, ⟨false, 4⟩⟩, rfl, rfl, rfl, rfl⟩
  have hstore : beforeCancelling.step.1.AppliesAt (.store firstIndex) Field.address 4 :=
    ⟨⟨.store firstIndex, 0, 2, ⟨false, 4⟩⟩, rfl, rfl, rfl, rfl⟩
  have hlow : beforeCancelling.step.1.step.1.AppliesAt (.store firstIndex)
      ⟨4, 5, by decide, by decide⟩ 5 :=
    ⟨⟨.store firstIndex, 0, 37, ⟨false, 5⟩⟩, rfl, rfl, rfl, rfl⟩
  have hback : (beforeCancelling.step.1.step.1.setPc 3).AppliesAt (.load .x)
      ⟨4, 5, by decide, by decide⟩ 5 := ⟨⟨.load .x, 0, 37, ⟨false, 5⟩⟩, rfl, rfl, rfl, rfl⟩
  exact ⟨hload, hstore, ((step_loadStore _ _ _ _).1 hload hstore rfl).2,
    (step_loadStore _ _ _ _).2.1 hstore,
    (step_loadStore _ _ _ _).2.2 .x rfl hlow hback (by decide), rfl⟩

end MixComputer.Machine
