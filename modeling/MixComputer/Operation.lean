import MixComputer.Word

/-!
The operations of the machine. Half of them come in families with one member for each of the
eight registers, so a register is part of the operation. Each operation has one of the codes 0
to 63, and every code has an operation.
-/
namespace MixComputer

/-- Register numbers as operation codes count them: rA is 0, the index registers are 1 to 6 and
rX is 7. -/
abbrev Register := Fin 8

namespace Register

def a : Register := 0

def x : Register := 7

def isIndex (r : Nat) : Bool := 1 ≤ r && r ≤ 6

def name (r : Nat) : String :=
  if r = 0 then "rA" else if r = 7 then "rX" else "rI" ++ toString r

def letter (r : Register) : String :=
  if r = a then "A" else if r = x then "X" else toString r.val

def smallLetter (r : Register) : String :=
  if r = a then "a" else if r = x then "x" else toString r.val

def all : List Register := [0, 1, 2, 3, 4, 5, 6, 7]

end Register

inductive Operation where
  | nop
  | add
  | sub
  | mul
  | div
  | special
  | shift
  | move
  | load (r : Register)
  | loadNegative (r : Register)
  | store (r : Register)
  | storeJ
  | storeZero
  | jumpBusy
  | control
  | input
  | output
  | jumpReady
  | jump
  | registerJump (r : Register)
  | addressTransfer (r : Register)
  | compare (r : Register)
deriving DecidableEq

inductive FieldUsage where
  /-- A partial field `(L:R)`. -/
  | bytes
  /-- The choice of one of `count` variants. -/
  | variant (count : Nat)
  /-- A number of words. -/
  | count
  /-- The number of a peripheral unit. -/
  | unit
  | ignored
deriving DecidableEq

namespace Operation

def code : Operation → Nat
  | nop => 0
  | add => 1
  | sub => 2
  | mul => 3
  | div => 4
  | special => 5
  | shift => 6
  | move => 7
  | load r => 8 + r.val
  | loadNegative r => 16 + r.val
  | store r => 24 + r.val
  | storeJ => 32
  | storeZero => 33
  | jumpBusy => 34
  | control => 35
  | input => 36
  | output => 37
  | jumpReady => 38
  | jump => 39
  | registerJump r => 40 + r.val
  | addressTransfer r => 48 + r.val
  | compare r => 56 + r.val

def all : List Operation :=
  [nop, add, sub, mul, div, special, shift, move]
    ++ Register.all.map load ++ Register.all.map loadNegative ++ Register.all.map store
    ++ [storeJ, storeZero, jumpBusy, control, input, output, jumpReady, jump]
    ++ Register.all.map registerJump ++ Register.all.map addressTransfer ++ Register.all.map compare

def ofCode? (code : Nat) : Option Operation := all[code]?

def register? : Operation → Option Register
  | load r | loadNegative r | store r | registerJump r | addressTransfer r | compare r => some r
  | _ => none

def usage : Operation → FieldUsage
  | nop => .ignored
  | special => .variant 3
  | shift => .variant 6
  | move => .count
  | jumpBusy | control | input | output | jumpReady => .unit
  | jump => .variant 10
  | registerJump _ => .variant 6
  | addressTransfer _ => .variant 4
  | _ => .bytes

/-- Execution time in units, without the time that a device takes. -/
def time (op : Operation) (field : Byte) : Nat :=
  match op with
  | mul => 10
  | div => 12
  | special => 10
  | move => 1 + 2 * field.val
  | add | sub | shift | storeJ | storeZero => 2
  | load _ | loadNegative _ | store _ | compare _ => 2
  | _ => 1

def name : Operation → String
  | nop => "Nop"
  | add => "Add"
  | sub => "Sub"
  | mul => "Mul"
  | div => "Div"
  | special => "Special"
  | shift => "Shift"
  | move => "Move"
  | load r => "Ld" ++ r.smallLetter
  | loadNegative r => "Ld" ++ r.smallLetter ++ "n"
  | store r => "St" ++ r.smallLetter
  | storeJ => "Stj"
  | storeZero => "Stz"
  | jumpBusy => "Jbus"
  | control => "Ioc"
  | input => "In"
  | output => "Out"
  | jumpReady => "Jred"
  | jump => "Jump"
  | registerJump r => "Jump" ++ r.letter
  | addressTransfer r => "Address" ++ r.letter
  | compare r => "Cmp" ++ r.smallLetter

end Operation

end MixComputer
