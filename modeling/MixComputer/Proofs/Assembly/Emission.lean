import MixComputer.Assembly
import MixComputer.Proofs.Assembly.Draft
import Mathlib.Data.List.Nodup

/-!
The record of all words that assembly puts into memory. Every line adds at most one entry, and
the memory, the literals and the open uses of a draft can be read off the entries so far. An entry
that is alone at its location is still found there, and nothing but what came with it is to be
patched there.
-/
namespace MixComputer.Assembly

open Source

/-- A word put into memory, with what it waits for. -/
structure Emission where
  location : Nat
  word : Word
  pending : Pending
deriving DecidableEq

def Pending.patch? : Pending → Option Patch
  | .nothing => none
  | .symbol _ patch => some patch
  | .literal _ patch => some patch

namespace Emission

def store (memory : Memory) (e : Emission) : Memory := memory.write e.location e.word

def Alone (es : List Emission) (e : Emission) : Prop :=
  es.filter (fun e' => e'.location == e.location) = [e]

section Alone

variable {es es' : List Emission} {e : Emission}

theorem Alone.mem (h : e.Alone es) : e ∈ es :=
  List.mem_of_mem_filter (h.symm ▸ List.mem_singleton.mpr rfl)

theorem alone_of_count (hcount : (es.map Emission.location).count e.location = 1) (he : e ∈ es) :
    e.Alone es := by
  rw [List.count, List.countP_map, List.countP_eq_length_filter] at hcount
  obtain ⟨e', hsingle⟩ := List.length_eq_one_iff.mp hcount
  have hmem : e ∈ [e'] := by
    rw [← hsingle]
    exact List.mem_filter.mpr ⟨he, beq_self_eq_true _⟩
  exact hsingle.trans (congrArg ([·]) (List.mem_singleton.mp hmem).symm)

theorem alone_of_nodup (hnodup : (es.map Emission.location).Nodup) (he : e ∈ es) : e.Alone es :=
  alone_of_count (List.count_eq_one_of_mem hnodup (List.mem_map_of_mem he)) he

/-- An entry of the first of two records is alone in both if it is alone in the first and the
second has nothing at its location. -/
theorem Alone.of_append (h : e.Alone (es ++ es')) (he : e ∈ es) :
    e.Alone es ∧ ∀ e' ∈ es', e'.location ≠ e.location := by
  unfold Alone at h
  rw [List.filter_append] at h
  rcases List.append_eq_singleton_iff.mp h with ⟨hnone, -⟩ | ⟨hfirst, hsecond⟩
  · have hmem : e ∈ es.filter (fun e' => e'.location == e.location) :=
      List.mem_filter.mpr ⟨he, beq_self_eq_true _⟩
    rw [hnone] at hmem
    exact absurd hmem List.not_mem_nil
  · refine ⟨hfirst, ?_⟩
    intro e' he'
    simpa using List.filter_eq_nil_iff.mp hsecond e' he'

end Alone

section Store

variable {es : List Emission} {memory : Memory}

theorem getElem?_foldl_store_ne {other : Nat} (h : ∀ e ∈ es, e.location ≠ other) :
    (es.foldl store memory)[other]? = memory[other]? := by
  refine List.foldlRecOn (motive := fun m => m[other]? = memory[other]?) es store rfl ?_
  intro m hm e he
  rw [← hm]
  exact Memory.getElem?_write_ne m e.word (h e he)

theorem size_foldl_store (es : List Emission) (memory : Memory) :
    (es.foldl store memory).size = memory.size := by
  refine List.foldlRecOn (motive := fun m => m.size = memory.size) es store rfl ?_
  intro m hm e _
  exact (Memory.size_write m e.location e.word).trans hm

/-- A word that is alone at its location is still found there. -/
theorem getElem?_foldl_store {e : Emission} (halone : e.Alone es)
    (hlt : e.location < memory.size) : (es.foldl store memory)[e.location]? = some e.word := by
  obtain ⟨before, after, rfl, -, -, hafter⟩ := List.filter_eq_cons_iff.mp halone
  have hlater : ∀ e' ∈ after, e'.location ≠ e.location := by
    intro e' he'
    simpa using List.filter_eq_nil_iff.mp hafter e' he'
  rw [List.foldl_append, List.foldl_cons, getElem?_foldl_store_ne hlater]
  exact Memory.getElem?_write_self _ _ ((size_foldl_store before memory).symm ▸ hlt)

end Store

section Parts

variable {es : List Emission} {α : Type} {part : Emission → Option α} {location : α → Nat}

/-- Parts of entries, each at the location of its entry, are at different locations too. -/
theorem sublist_locations
    (h : ∀ e ∈ es, ∀ a, part e = some a → location a = e.location) :
    ((es.filterMap part).map location).Sublist (es.map Emission.location) := by
  induction es with
  | nil => exact List.Sublist.refl []
  | cons e es ih =>
    have hrest := ih fun e' he' => h e' (List.mem_cons_of_mem e he')
    cases hpart : part e with
    | none =>
      rw [List.filterMap_cons_none hpart]
      exact hrest.cons e.location
    | some a =>
      rw [List.filterMap_cons_some hpart, List.map_cons, List.map_cons,
        h e List.mem_cons_self a hpart]
      exact hrest.cons_cons e.location

/-- The parts at a location are those of the entries there. -/
theorem filter_filterMap_location {β : Type} {es : List β} {key : β → Nat} {part : β → Option α}
    (h : ∀ e ∈ es, ∀ a, part e = some a → location a = key e) (place : Nat) :
    (es.filterMap part).filter (fun a => location a == place) =
      (es.filter fun e => key e == place).filterMap part := by
  induction es with
  | nil => rfl
  | cons e es ih =>
    have hrest := ih fun e' he' => h e' (List.mem_cons_of_mem e he')
    cases hpart : part e with
    | none =>
      rw [List.filterMap_cons_none hpart, hrest, List.filter_cons]
      split
      · rw [List.filterMap_cons_none hpart]
      · rfl
    | some a =>
      rw [List.filterMap_cons_some hpart, List.filter_cons, List.filter_cons, hrest,
        h e List.mem_cons_self a hpart]
      split
      · rw [List.filterMap_cons_some hpart]
      · rfl

/-- An entry without such a part, alone at its location, is not at the location of one. -/
theorem location_ne (h : ∀ e ∈ es, ∀ a, part e = some a → location a = e.location)
    {e : Emission} (halone : e.Alone es) (hnone : part e = none) {a : α}
    (ha : a ∈ es.filterMap part) : location a ≠ e.location := by
  have hparts := filter_filterMap_location h e.location
  rw [halone, List.filterMap_cons_none hnone, List.filterMap_nil] at hparts
  simpa using List.filter_eq_nil_iff.mp hparts a ha

end Parts

def use? (e : Emission) : Option (String × Patch) :=
  match e.pending with
  | .symbol name patch => some (name, patch)
  | _ => none

def literal? (e : Emission) : Option (Word × Patch) :=
  match e.pending with
  | .literal w patch => some (w, patch)
  | _ => none

theorem pending_of_use? {e : Emission} {name : String} {patch : Patch}
    (h : e.use? = some (name, patch)) : e.pending = .symbol name patch := by
  unfold use? at h
  split at h
  · rename_i hpending
    cases h
    exact hpending
  · cases h

theorem pending_of_literal? {e : Emission} {w : Word} {patch : Patch}
    (h : e.literal? = some (w, patch)) : e.pending = .literal w patch := by
  unfold literal? at h
  split at h
  · rename_i hpending
    cases h
    exact hpending
  · cases h

/-- The word is inside memory, and what waits is its own address. -/
structure Sound (e : Emission) (size : Nat) : Prop where
  inside : e.location < size
  patch : ∀ p, e.pending.patch? = some p → p.location = e.location

theorem Sound.use {e : Emission} {size : Nat} (h : e.Sound size) {u : String × Patch}
    (hu : e.use? = some u) : u.2.location = e.location :=
  h.patch u.2 (congrArg Pending.patch? (pending_of_use? hu))

theorem Sound.literal {e : Emission} {size : Nat} (h : e.Sound size) {l : Word × Patch}
    (hl : e.literal? = some l) : l.2.location = e.location :=
  h.patch l.2 (congrArg Pending.patch? (pending_of_literal? hl))

end Emission

namespace Draft

/-- The entry for a word put at the next location; none if that is outside memory. -/
def emissionHere (d : Draft) (entry : Word × Pending) : List Emission :=
  if d.location < d.memory.size then [⟨d.location, entry.1, entry.2⟩] else []

def lineWord (d : Draft) (mnemonic : Mnemonic) (l : Line) (line : Nat) :
    Option (Word × Pending) :=
  match mnemonic with
  | .instruction op standard => (d.instructionWord op standard l.operand line).toOption
  | .directive .constant => (d.constantWord l.operand line).toOption
  | .directive .characters => (charactersWord l.rest).toOption
  | .directive _ => none

def obeyEmissions (d : Draft) (mnemonic : Mnemonic) (l : Line) (line : Nat) : List Emission :=
  match d.defineLabel l.label with
  | .error _ => []
  | .ok d' => (d'.lineWord mnemonic l line).elim [] d'.emissionHere

def lineEmissions (d : Draft) (text : String) (line : Nat) : List Emission :=
  if isComment text then []
  else match parseLine text with
    | .error _ => []
    | .ok (l, mnemonic) => d.obeyEmissions mnemonic l line

def readEmissions (d : Draft) (line : Nat) : List String → List Emission
  | [] => []
  | text :: rest =>
    d.lineEmissions text line ++
      match d.takeLine text line with
      | (_, true) => []
      | (d', false) => d'.readEmissions (line + 1) rest

/-- The draft when reading comes to the line that has `k` lines before it. There is none if
reading ends earlier. -/
def draftAt? (d : Draft) (line : Nat) (texts : List String) : (k : Nat) → Option Draft
  | 0 => some d
  | k + 1 =>
    match texts with
    | [] => none
    | text :: rest =>
      match d.takeLine text line with
      | (_, true) => none
      | (d', false) => d'.draftAt? (line + 1) rest k

/-- The draft can be read off the record of what was put into it. -/
structure Accounts (initial : Memory) (d : Draft) (es : List Emission) : Prop where
  memory : d.memory = es.foldl Emission.store initial
  literals : d.literals = es.filterMap Emission.literal?
  uses : (uses d.futures).Perm (es.filterMap Emission.use?)
  sound : ∀ e ∈ es, e.Sound d.memory.size

/-- What one line can do: put no word into memory, or one at the location of the line. -/
inductive Emits (d : Draft) : List Emission → Draft → Prop
  | nothing {d' : Draft} (h : d.Quiet d') : Emits d [] d'
  | word {d₁ d₂ d' : Draft} {entry : Word × Pending} (h : d.Quiet d₁)
      (hlocation : d₁.location = d.location) (hput : d₁.put entry = .ok d₂)
      (hpatch : ∀ p, entry.2.patch? = some p → p.location = d.location)
      (h' : d₂.Quiet d') : Emits d [⟨d.location, entry.1, entry.2⟩] d'

theorem Emits.congr {d d' d'' : Draft} {es : List Emission} (h : d.Emits es d')
    (hsame : d'.Quiet d'') : d.Emits es d'' := by
  cases h with
  | nothing h => exact .nothing (h.trans hsame)
  | word h hlocation hput hpatch h' => exact .word h hlocation hput hpatch (h'.trans hsame)

section Reading

variable {d d' : Draft} {initial : Memory} {es new : List Emission}

theorem memory_await (d : Draft) (pending : Pending) : (d.await pending).memory = d.memory := by
  cases pending <;> rfl

theorem literals_await (d : Draft) (e : Emission) :
    (d.await e.pending).literals = d.literals ++ [e].filterMap Emission.literal? := by
  obtain ⟨location, word, pending⟩ := e
  cases pending with
  | nothing => exact (List.append_nil _).symm
  | symbol name patch => exact (List.append_nil _).symm
  | literal w patch => rfl

theorem uses_await (d : Draft) (e : Emission) :
    (uses (d.await e.pending).futures).Perm (uses d.futures ++ [e].filterMap Emission.use?) := by
  obtain ⟨location, word, pending⟩ := e
  cases pending with
  | nothing => exact List.Perm.of_eq (List.append_nil _).symm
  | literal w patch => exact List.Perm.of_eq (List.append_nil _).symm
  | symbol name patch =>
    exact (uses_addFuture name patch d.futures).trans (List.perm_append_singleton _ _).symm

/-- Adding to the record what was put into the draft. -/
theorem Accounts.put (h : d.Accounts initial es) {entry : Word × Pending}
    (hput : d.put entry = .ok d')
    (hpatch : ∀ p, entry.2.patch? = some p → p.location = d.location) :
    d'.Accounts initial (es ++ [⟨d.location, entry.1, entry.2⟩]) := by
  have hsize := (leads_put hput).size
  obtain ⟨hlt, rfl⟩ := put_eq_ok_iff.mp hput
  refine ⟨?_, ?_, ?_, ?_⟩
  · rw [memory_await, List.foldl_append, ← h.memory]
    rfl
  · rw [List.filterMap_append, ← h.literals]
    exact literals_await _ ⟨d.location, entry.1, entry.2⟩
  · rw [List.filterMap_append]
    exact (uses_await _ ⟨d.location, entry.1, entry.2⟩).trans (h.uses.append_right _)
  · intro e he
    rw [hsize]
    rcases List.mem_append.mp he with hold | hnew
    · exact h.sound e hold
    · rw [List.mem_singleton.mp hnew]
      exact ⟨hlt, hpatch⟩

theorem Emits.leads (h : d.Emits new d') : d.Leads d' := by
  cases h with
  | nothing h => exact h.leads
  | word h hlocation hput hpatch h' => exact (h.leads.trans (leads_put hput)).trans h'.leads

theorem Accounts.congr (h : d.Accounts initial es) (hsame : d.Quiet d') :
    d'.Accounts initial es where
  memory := hsame.memory.trans h.memory
  literals := hsame.literals.trans h.literals
  uses := hsame.futures ▸ h.uses
  sound := hsame.memory ▸ h.sound

theorem Accounts.emits (h : d.Accounts initial es) (hnew : d.Emits new d') :
    d'.Accounts initial (es ++ new) := by
  cases hnew with
  | nothing hsame =>
    rw [List.append_nil]
    exact h.congr hsame
  | word hsame hlocation hput hpatch hsame' =>
    rw [← hlocation] at hpatch ⊢
    exact ((h.congr hsame).put hput hpatch).congr hsame'

end Reading

end Draft

end MixComputer.Assembly
