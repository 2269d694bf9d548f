import MixComputer.Word

/-!
Memory is an array of words that never changes its size. Words are written one by one or as a
list that starts at a given place; what would lie outside is dropped.
-/
namespace MixComputer

abbrev Memory := Array Word

namespace Memory

def blank (size : Nat) : Memory := Array.replicate size Word.zero

def write (memory : Memory) (location : Nat) (w : Word) : Memory :=
  memory.setIfInBounds location w

@[simp]
theorem size_write (memory : Memory) (location : Nat) (w : Word) :
    (memory.write location w).size = memory.size := by
  simp [write]

def writeList (memory : Memory) (start : Nat) : List Word → Memory
  | [] => memory
  | w :: ws => (memory.write start w).writeList (start + 1) ws

@[simp]
theorem size_writeList (memory : Memory) (start : Nat) (words : List Word) :
    (memory.writeList start words).size = memory.size := by
  induction words generalizing memory start with
  | nil => rfl
  | cons w ws ih => simp [writeList, ih]

/-- Memory of at least `size` words that starts with a copy of `image`. -/
def ofImage (image : List Word) (size : Nat) : Memory :=
  (blank (max size image.length)).writeList 0 image

def block (memory : Memory) (start n : Nat) : Vector Word n :=
  Vector.ofFn fun i => memory.getD (start + i.val) Word.zero

def changes (before after : Memory) : List (Nat × Word) :=
  ((before.zip after).zipIdx.filter fun c => c.1.1 ≠ c.1.2).toList.map fun c => (c.2, c.1.2)

def contents (memory : Memory) : List (Nat × Word) :=
  (memory.zipIdx.filter fun c => c.1 ≠ Word.zero).toList.map fun c => (c.2, c.1)

end Memory

end MixComputer
