import MixComputer.Memory

/-!
What is found in memory after a word has been written: the word at its own place, and at every
other place what was there before. A list of words changes the places that it covers, and no other.
-/
namespace MixComputer.Memory

theorem getElem?_write_self (memory : Memory) {location : Nat} (w : Word)
    (h : location < memory.size) : (memory.write location w)[location]? = some w := by
  rw [write, Array.getElem?_setIfInBounds_self_of_lt h]

theorem getElem?_write_ne (memory : Memory) {location other : Nat} (w : Word)
    (h : location ≠ other) : (memory.write location w)[other]? = memory[other]? := by
  rw [write, Array.getElem?_setIfInBounds_ne h]

theorem getElem?_eq_some_getD (memory : Memory) {location : Nat} (h : location < memory.size) :
    memory[location]? = some (memory.getD location Word.zero) := by
  rw [Array.getD_eq_getD_getElem?, Array.getElem?_eq_getElem h, Option.getD_some]

/-- A word that is written where it was found is no change. -/
theorem write_getD (memory : Memory) {location : Nat} (h : location < memory.size) :
    memory.write location (memory.getD location Word.zero) = memory := by
  apply Array.ext_getElem?
  intro other
  by_cases heq : location = other
  · subst heq
    rw [getElem?_write_self memory _ h, getElem?_eq_some_getD memory h]
  · exact getElem?_write_ne memory _ heq

theorem getElem?_write_congr {memory memory' : Memory} {location : Nat} (w : Word)
    (h : memory'[location]? = memory[location]?) :
    (memory'.write location w)[location]? = (memory.write location w)[location]? := by
  have hsize : memory'.size ≤ location ↔ memory.size ≤ location := by
    rw [← Array.getElem?_eq_none_iff, h, Array.getElem?_eq_none_iff]
  by_cases hlt : location < memory.size
  · rw [getElem?_write_self memory w hlt, getElem?_write_self memory' w (by omega)]
  · rw [write, write, Array.setIfInBounds_eq_of_size_le (by omega),
      Array.setIfInBounds_eq_of_size_le (by omega), h]

theorem getD_write (memory : Memory) (location : Nat) (w : Word) (other : Nat) :
    (memory.write location w).getD other Word.zero =
      if location = other ∧ location < memory.size then w else memory.getD other Word.zero := by
  rw [Array.getD_eq_getD_getElem?, Array.getD_eq_getD_getElem?]
  by_cases heq : location = other
  · subst heq
    by_cases hlt : location < memory.size
    · rw [getElem?_write_self memory w hlt, if_pos ⟨rfl, hlt⟩, Option.getD_some]
    · rw [write, Array.setIfInBounds_eq_of_size_le (by omega), if_neg fun h => hlt h.2]
  · rw [getElem?_write_ne memory w heq, if_neg fun h => heq h.1]

theorem getElem?_writeList_outside (memory : Memory) {start other : Nat} (words : List Word)
    (h : ¬ (start ≤ other ∧ other < start + words.length)) :
    (memory.writeList start words)[other]? = memory[other]? := by
  induction words generalizing memory start with
  | nil => rfl
  | cons w words ih =>
    rw [List.length_cons] at h
    rw [writeList, ih _ (by omega)]
    exact getElem?_write_ne memory w (by omega)

end MixComputer.Memory
