import MixComputer.Proofs.Guarded.Number
import MixComputer.Source.Line
import Mathlib.Data.List.TakeWhile

/-!
Texts in bytes. A character takes one byte or more, and a text can be cut between characters only.
The parts of a line are cut out of it where blanks are found, so no cut goes through a character,
whatever the characters are.
-/
namespace MixComputer.Guarded

open Source

section Cutting

variable {before after : List Char} {p : Char → Bool}

def byteLength : List Char → Nat
  | [] => 0
  | c :: cs => c.utf8Size + byteLength cs

/-- The number of bytes before the first such character. -/
def offsetOf (p : Char → Bool) : List Char → Option Nat
  | [] => none
  | c :: cs => if p c then some 0 else (offsetOf p cs).map (c.utf8Size + ·)

/-- The two parts of a text, of which the first has so many bytes. -/
def cut : List Char → Nat → Guarded (List Char × List Char)
  | cs, 0 => .ok ([], cs)
  | [], _ + 1 => .error .index
  | c :: cs, n + 1 =>
    if c.utf8Size ≤ n + 1 then do
      let parts ← cut cs (n + 1 - c.utf8Size)
      return (c :: parts.1, parts.2)
    else .error .index

def upTo (cs : List Char) (n : Nat) : Guarded (List Char) := do return (← cut cs n).1

def onward (cs : List Char) (n : Nat) : Guarded (List Char) := do return (← cut cs n).2

/-- A text may be cut where a part of it ends. -/
theorem cut_eq (before after : List Char) :
    cut (before ++ after) (byteLength before) = .ok (before, after) := by
  induction before with
  | nil =>
    unfold byteLength cut
    rfl
  | cons c before ih =>
    obtain ⟨n, hn⟩ := Nat.exists_eq_add_of_lt c.utf8Size_pos
    have hlength : byteLength (c :: before) = n + byteLength before + 1 := by
      rw [byteLength]
      omega
    have hrest : n + byteLength before + 1 - c.utf8Size = byteLength before := by omega
    rw [hlength, List.cons_append, cut, if_pos (by omega), hrest, ih]
    rfl

theorem upTo_eq (before after : List Char) :
    upTo (before ++ after) (byteLength before) = .ok before := by
  unfold upTo
  rw [cut_eq]
  rfl

theorem onward_eq (before after : List Char) :
    onward (before ++ after) (byteLength before) = .ok after := by
  unfold onward
  rw [cut_eq]
  rfl

/-- The offset of a character is the length of what comes before it. -/
theorem offsetOf_eq_some {cs : List Char} {n : Nat} (h : offsetOf p cs = some n) :
    n = byteLength (cs.takeWhile (!p ·)) := by
  induction cs generalizing n with
  | nil => cases h
  | cons c cs ih =>
    unfold offsetOf at h
    by_cases hc : p c = true
    · rw [if_pos hc] at h
      cases h
      rw [List.takeWhile_cons, hc]
      rfl
    · rw [if_neg hc] at h
      obtain ⟨m, hm, rfl⟩ := Option.map_eq_some_iff.mp h
      have hc' : (!p c) = true := by simpa using hc
      rw [List.takeWhile_cons, if_pos hc', byteLength, ih hm]

theorem offsetOf_eq_none {cs : List Char} (h : offsetOf p cs = none) : ∀ c ∈ cs, (!p c) = true := by
  induction cs with
  | nil => exact fun c hc => absurd hc List.not_mem_nil
  | cons c cs ih =>
    unfold offsetOf at h
    by_cases hc : p c = true
    · rw [if_pos hc] at h
      cases h
    · rw [if_neg hc] at h
      intro c' hc'
      obtain rfl | hrest := List.mem_cons.mp hc'
      · simpa using hc
      · exact ih (Option.map_eq_none_iff.mp h) c' hrest

end Cutting

section Lines

def nextToken (cs : List Char) : Guarded (List Char × List Char) :=
  let cs := Text.dropBlanks cs
  match offsetOf Text.isBlank cs with
  | some stop => do return (← upTo cs stop, ← onward cs stop)
  | none => .ok (cs, [])

def ofFields (label : Option String) (cs : List Char) : Guarded (Except Malformation Line) := do
  let (operation, rest) ← nextToken cs
  if operation.isEmpty then return .error .missingOperation
  else
    let (operand, _) ← nextToken rest
    return .ok ⟨label, String.ofList operation, String.ofList operand, String.ofList rest⟩

def splitLine (text : String) : Guarded (Except Malformation Line) :=
  let cs := text.toList
  if (cs.head?.map Text.isBlank).getD false then ofFields none cs
  else do
    let (label, rest) ← nextToken cs
    match symbolProblem? (String.ofList label) with
    | some problem => return .error problem
    | none => ofFields (some (String.ofList label)) rest

/-- Two spaces are cut off as two bytes, any other blank as a character. -/
def afterBlank (cs : List Char) : Guarded (List Char) :=
  if [' ', ' '].isPrefixOf cs then onward cs 2
  else if (cs.head?.map Text.isBlank).getD false then .ok cs.tail
  else .ok cs

def fiveCharacters (rest : String) : Guarded (List Char) := do
  let text ← afterBlank rest.toList
  return text.take 5 ++ List.replicate (5 - (text.take 5).length) ' '

theorem nextToken_eq (cs : List Char) : nextToken cs = .ok (nextField cs) := by
  unfold nextToken nextField
  generalize Text.dropBlanks cs = cs
  have hparts := List.takeWhile_append_dropWhile (p := (!Text.isBlank ·)) (l := cs)
  cases hoffset : offsetOf Text.isBlank cs with
  | some stop =>
    have hbefore := upTo_eq (cs.takeWhile (!Text.isBlank ·)) (cs.dropWhile (!Text.isBlank ·))
    have hafter := onward_eq (cs.takeWhile (!Text.isBlank ·)) (cs.dropWhile (!Text.isBlank ·))
    rw [hparts, ← offsetOf_eq_some hoffset] at hbefore hafter
    simp only [hoffset, hbefore, hafter, ok_bind, pure_eq]
  | none =>
    have hall := offsetOf_eq_none hoffset
    simp only [hoffset]
    rw [List.takeWhile_eq_self_iff.mpr hall, List.dropWhile_eq_nil_iff.mpr hall]

theorem ofFields_eq (label : Option String) (cs : List Char) :
    ofFields label cs = .ok (Line.ofFields label cs) := by
  unfold ofFields Line.ofFields
  rw [nextToken_eq, ok_bind]
  generalize nextField cs = parts
  obtain ⟨operation, rest⟩ := parts
  simp only [nextToken_eq, ok_bind]
  split <;> rfl

theorem splitLine_eq (text : String) : splitLine text = .ok (Line.ofText? text) := by
  unfold splitLine Line.ofText?
  simp only [nextToken_eq, ofFields_eq, ok_bind]
  split
  · rfl
  · cases symbolProblem? (String.ofList (nextField text.toList).1) <;> rfl

theorem padded_eq (cs : List Char) :
    cs.take 5 ++ List.replicate (5 - (cs.take 5).length) ' ' =
      (cs ++ List.replicate 5 ' ').take 5 := by
  rw [List.take_append, List.take_replicate, List.length_take]
  congr 2
  omega

theorem fiveCharacters_eq (rest : String) :
    fiveCharacters rest = .ok (Source.fiveCharacters rest) := by
  unfold fiveCharacters Source.fiveCharacters afterBlank
  simp only [padded_eq]
  generalize rest.toList = cs
  by_cases hspaces : [' ', ' '].isPrefixOf cs = true
  · obtain ⟨text, rfl⟩ := List.isPrefixOf_iff_prefix.mp hspaces
    have honward : onward ([' ', ' '] ++ text) 2 = .ok text := onward_eq [' ', ' '] text
    rw [if_pos hspaces, honward]
    rfl
  · rw [if_neg hspaces]
    cases cs with
    | nil => rfl
    | cons c cs =>
      have hblank : (if ((c :: cs).head?.map Text.isBlank).getD false = true then .ok cs
          else .ok (c :: cs) : Guarded (List Char)) =
          .ok (if Text.isBlank c then cs else c :: cs) := by
        show (if Text.isBlank c = true then _ else _) = _
        split <;> rfl
      rw [List.tail_cons, hblank, ok_bind]
      generalize hcut : (if Text.isBlank c then cs else c :: cs) = text
      split
      · rename_i heq
        cases heq
        exact absurd rfl hspaces
      · rename_i heq
        cases heq
        rw [hcut]
        rfl
      · rename_i heq
        cases heq

end Lines

end MixComputer.Guarded
