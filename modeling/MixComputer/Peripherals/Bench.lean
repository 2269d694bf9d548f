import MixComputer.Peripherals

/-!
A bench of units that behave as they are told beforehand: how often each is found busy, what it
reads, and which requests fail. It serves to try programs that use devices.
-/
namespace MixComputer

structure Bench where
  /-- How often a unit will still answer that it is busy. -/
  busyCounts : List (Nat × Nat)
  /-- The words that a unit has still to read. -/
  queues : List (Nat × List Word)
  /-- The units whose requests fail, with the reason. -/
  failures : List (Nat × String)
  missing : List Nat
deriving DecidableEq

namespace Bench

def setEntry {α : Type} (entries : List (Nat × α)) (unit : Nat) (a : α) : List (Nat × α) :=
  (unit, a) :: entries.filter fun e => e.1 != unit

def busyCount (b : Bench) (unit : Nat) : Nat := (b.busyCounts.lookup unit).getD 0

def queue (b : Bench) (unit : Nat) : List Word := (b.queues.lookup unit).getD []

def outcome (b : Bench) (unit : Nat) : Except DeviceError Unit :=
  if b.missing.contains unit then .error (.noSuchUnit unit)
  else match b.failures.lookup unit with
    | some reason => .error (.failed reason)
    | none => .ok ()

def fill {n : Nat} (block : Vector Word n) (words : List Word) : Vector Word n :=
  Vector.ofFn fun i => words.getD i.val block[i]

instance : Peripherals Bench where
  busy b unit :=
    match b.busyCount unit with
    | 0 => (false, b)
    | count + 1 => (true, { b with busyCounts := setEntry b.busyCounts unit count })
  control b unit _ _ := (b.outcome unit, b)
  input {n} b unit block _ :=
    (b.outcome unit, fill block (b.queue unit),
      { b with queues := setEntry b.queues unit ((b.queue unit).drop n) })
  output b unit _ _ := (b.outcome unit, b)

end Bench

end MixComputer
