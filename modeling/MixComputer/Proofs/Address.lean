import MixComputer.Address

/-!
Addresses as numbers. Numbers of 32 bits are kept, and indexing adds them.
-/
namespace MixComputer.Address

theorem natAbs_value (a : Address) : a.value.natAbs = a.magnitude := by
  unfold value
  split <;> omega

theorem value_ofInt {v : Int} (h : v.natAbs < 0x100000000) : (ofInt v).value = v := by
  have hmagnitude : (ofInt v).magnitude = v.natAbs := Nat.mod_eq_of_lt h
  unfold value
  rw [hmagnitude]
  by_cases hv : v < 0
  · simp only [ofInt, hv, decide_true, if_true]
    omega
  · simp only [ofInt, hv, decide_false, Bool.false_eq_true, if_false]
    omega

theorem value_add {a : Address} {n : Int} (h : (a.value + n).natAbs < 0x100000000) :
    (a.add n).value = a.value + n := by
  unfold add
  split
  · rename_i hzero
    rw [hzero]
    cases hsign : a.negative <;> rfl
  · exact value_ofInt h

end MixComputer.Address
