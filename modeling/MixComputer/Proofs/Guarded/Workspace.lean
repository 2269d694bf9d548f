import MixComputer.Assembly
import MixComputer.Proofs.Guarded.Table

/-!
The workspace of the assembler. Symbols and their future uses are kept in tables by name. The last
loop of the second pass takes the order of the future uses all at once, and then the uses of one
symbol after the other. Every change is made to a course, which keeps all the workspaces that there
have been; so what holds of the moments of a course held all the time.
-/
namespace MixComputer.Guarded

open Assembly Source

structure Workspace where
  location : Nat
  memory : Memory
  symbols : Table Int
  /-- The places that wait for a symbol. -/
  futures : Table (List Patch)
  /-- The symbols that the last loop has still to go through, once it has begun. -/
  inHand : Option (List String)
  literals : List (Word × Patch)
  entry : Option Nat
  entrySymbol : Option (String × Nat)
  endLabel : Option (String × Nat)
  diagnostics : List Diagnostic

namespace Workspace

def start (size : Nat) : Workspace where
  location := 0
  memory := Memory.blank size
  symbols := Table.empty
  futures := Table.empty
  inHand := none
  literals := []
  entry := none
  entrySymbol := none
  endLabel := none
  diagnostics := []

def remember (w : Workspace) (name : String) (p : Patch) : Workspace :=
  { w with futures := w.futures.put name ((w.futures.get? name).getD [] ++ [p]) }

/-- The last loop takes the whole order at once and leaves an empty one. -/
def takeOrder (w : Workspace) : Workspace :=
  { w with
    futures := { w.futures with order := [] }
    inHand := some w.futures.order }

/-- The loop comes to the next symbol, whose places are taken out of the table. -/
def takeFuture (w : Workspace) (name : String) (rest : List String) : Workspace :=
  { w with
    futures := w.futures.erase name
    inHand := some rest }

/-- The symbols that are still to be patched. -/
def awaited (w : Workspace) : List String := w.inHand.getD w.futures.order

/-- What holds at every moment. -/
structure Sound (w : Workspace) : Prop where
  location : w.location ≤ w.memory.size
  /-- Each symbol is listed once, and its value fits into a word. -/
  symbols : w.symbols.Listed
  fits : ∀ name v, w.symbols.get? name = some v → Word.Fits v
  /-- Each symbol that is waited for is listed once, and there are places that wait for it. It is
  listed in the order until the last loop begins, and from then on by what that loop has in hand,
  while the order is empty. -/
  futures : w.futures.Lists w.awaited
  emptied : w.inHand ≠ none → w.futures.order = []
  uses : ∀ name ps, w.futures.get? name = some ps →
    ps ≠ [] ∧ ∀ p ∈ ps, p.location < w.memory.size
  literals : ∀ l ∈ w.literals, l.2.location < w.memory.size

section Sound

variable {w : Workspace} {name : String} {p : Patch}

theorem sound_start (size : Nat) : (start size).Sound where
  location := Nat.zero_le _
  symbols := Table.listed_empty
  fits := fun name v h => by cases (Table.holds_empty.get? name).symm.trans h
  futures := Table.listed_empty
  emptied := fun h => absurd rfl h
  uses := fun name ps h => by cases (Table.holds_empty.get? name).symm.trans h
  literals := fun _ h => absurd h List.not_mem_nil

theorem Sound.write (h : w.Sound) (l : Nat) (v : Word) :
    ({ w with memory := w.memory.write l v } : Workspace).Sound := by
  have hsize := Memory.size_write w.memory l v
  exact ⟨hsize.symm ▸ h.location, h.symbols, h.fits, h.futures, h.emptied, hsize.symm ▸ h.uses,
    hsize.symm ▸ h.literals⟩

theorem Sound.moveTo (h : w.Sound) {l : Nat} (hl : l ≤ w.memory.size) :
    ({ w with location := l } : Workspace).Sound :=
  { h with location := hl }

/-- What is noted beside these things does not matter. -/
theorem Sound.note (h : w.Sound) (entry : Option Nat) (entrySymbol endLabel : Option (String × Nat))
    (diagnostics : List Diagnostic) :
    ({ w with entry, entrySymbol, endLabel, diagnostics } : Workspace).Sound :=
  { h with }

theorem Sound.define (h : w.Sound) {v : Int} (hv : Word.Fits v) (name : String) :
    ({ w with symbols := w.symbols.put name v } : Workspace).Sound := by
  refine { h with symbols := h.symbols.put name v, fits := fun other v' hvalue => ?_ }
  rw [Table.get?_put] at hvalue
  split at hvalue
  · cases hvalue
    exact hv
  · exact h.fits other v' hvalue

/-- Before the last loop the order has the symbols. -/
theorem Sound.listed (h : w.Sound) (hhand : w.inHand = none) : w.futures.Listed := by
  have hfutures := h.futures
  rwa [awaited, hhand] at hfutures

theorem Sound.remember (h : w.Sound) (hhand : w.inHand = none)
    (hp : p.location < w.memory.size) (name : String) : (w.remember name p).Sound := by
  have hkept : (w.remember name p).inHand = none := hhand
  refine { h with
    futures := ?_
    emptied := fun hsome => absurd hkept hsome
    uses := fun other ps hps => ?_ }
  · rw [awaited, hkept]
    exact (h.listed hhand).put name _
  rw [Workspace.remember, Table.get?_put] at hps
  split at hps
  · cases hps
    refine ⟨List.append_ne_nil_of_right_ne_nil _ (List.cons_ne_nil p []), fun q hq => ?_⟩
    obtain hold | hnew := List.mem_append.mp hq
    · cases hbefore : w.futures.get? name with
      | none =>
        rw [hbefore] at hold
        exact absurd hold List.not_mem_nil
      | some before =>
        rw [hbefore] at hold
        exact (h.uses name before hbefore).2 q hold
    · rw [List.mem_singleton.mp hnew]
      exact hp
  · exact h.uses other ps hps

theorem Sound.takeOrder (h : w.Sound) (hhand : w.inHand = none) : w.takeOrder.Sound := by
  have hlisted := h.listed hhand
  exact { h with futures := ⟨hlisted.nodup, hlisted.mem⟩, emptied := fun _ => rfl }

theorem Sound.takeFuture (h : w.Sound) {rest : List String}
    (hhand : w.inHand = some (name :: rest)) : (w.takeFuture name rest).Sound := by
  have hnames : w.awaited = name :: rest := by rw [awaited, hhand, Option.getD_some]
  refine { h with
    futures := (hnames ▸ h.futures).erase
    emptied := fun _ => h.emptied fun hnone => ?_
    uses := fun other ps hps => ?_ }
  · cases hhand.symm.trans hnone
  · rw [Workspace.takeFuture, Table.get?_erase] at hps
    split at hps
    · cases hps
    · exact h.uses other ps hps

theorem Sound.setLiterals (h : w.Sound) {literals : List (Word × Patch)}
    (hliterals : ∀ l ∈ literals, l.2.location < w.memory.size) :
    ({ w with literals } : Workspace).Sound :=
  { h with literals := hliterals }

end Sound

end Workspace

/-- The workspaces that there have been, and the present one. -/
structure Course where
  now : Workspace
  earlier : List Workspace

namespace Course

def start (size : Nat) : Course := ⟨Workspace.start size, []⟩

def change (c : Course) (w : Workspace) : Course := ⟨w, c.now :: c.earlier⟩

def moments (c : Course) : List Workspace := c.now :: c.earlier

def setEntrySymbol (c : Course) (entrySymbol : Option (String × Nat)) : Course :=
  c.change { c.now with entrySymbol }

def setEndLabel (c : Course) (endLabel : Option (String × Nat)) : Course :=
  c.change { c.now with endLabel }

def setLiterals (c : Course) (literals : List (Word × Patch)) : Course :=
  c.change { c.now with literals }

def report (c : Course) (line : Nat) (text : String) (severity : Severity) (error : Error) :
    Course :=
  c.change { c.now with diagnostics := c.now.diagnostics ++ [⟨line, text, severity, error⟩] }

/-- At one moment the last loop takes all of these names. Before, it has nothing in hand, and from
then on it has what is left of them. -/
def TakesAtOnce (c : Course) (names : List String) : Prop :=
  ∃ later w earlier, c.moments = later ++ w :: earlier ∧ w.inHand = some names ∧
    (∀ w' ∈ earlier, w'.inHand = none) ∧ ∀ w' ∈ later, w'.inHand ≠ none

end Course

def diagnostic (lines : List String) (r : Report) : Diagnostic :=
  ⟨r.line, lines.getD (r.line - 1) "", r.severity, r.error⟩

structure Tasks where
  futures : List Future
  /-- Whether the last loop has begun. -/
  patching : Bool
  literals : List (Word × Patch)
  entrySymbol : Option (String × Nat)
  endLabel : Option (String × Nat)

namespace Tasks

def ofDraft (d : Draft) : Tasks := ⟨d.futures, false, d.literals, d.entrySymbol, d.endLabel⟩

def uses (futures : List Future) : List (String × List Patch) :=
  futures.map fun f => (f.name, f.first :: f.others)

end Tasks

section Futures

open Draft

variable {futures : List Future} {name other : String} {p : Patch}

theorem uses_cons (f : Future) (futures : List Future) :
    Tasks.uses (f :: futures) = (f.name, f.first :: f.others) :: Tasks.uses futures := rfl

theorem lookup_addFuture :
    (Tasks.uses (addFuture name p futures)).lookup other =
      if name = other then some (((Tasks.uses futures).lookup name).getD [] ++ [p])
      else (Tasks.uses futures).lookup other := by
  induction futures with
  | nil =>
    show List.lookup other [(name, [p])] = _
    rw [List.lookup_cons]
    by_cases hname : name = other
    · rw [if_pos hname, hname, beq_self_eq_true]
      rfl
    · rw [if_neg hname, beq_eq_false_iff_ne.mpr (Ne.symm hname)]
      rfl
  | cons f futures ih =>
    unfold addFuture
    by_cases hf : f.name = name
    · subst hf
      rw [if_pos rfl, uses_cons, uses_cons, List.lookup_cons, List.lookup_cons, List.lookup_cons,
        beq_self_eq_true]
      by_cases hname : f.name = other
      · rw [if_pos hname, hname, beq_self_eq_true]
        rfl
      · rw [if_neg hname, beq_eq_false_iff_ne.mpr (Ne.symm hname)]
    · rw [if_neg hf, uses_cons, uses_cons, List.lookup_cons, List.lookup_cons, List.lookup_cons, ih,
        beq_eq_false_iff_ne.mpr (Ne.symm hf)]
      by_cases hother : other = f.name
      · rw [hother, beq_self_eq_true]
        exact (if_neg (Ne.symm hf)).symm
      · rw [beq_eq_false_iff_ne.mpr hother]

theorem names_addFuture :
    (Tasks.uses (addFuture name p futures)).map Prod.fst =
      if ((Tasks.uses futures).lookup name).isSome then (Tasks.uses futures).map Prod.fst
      else (Tasks.uses futures).map Prod.fst ++ [name] := by
  induction futures with
  | nil => rfl
  | cons f futures ih =>
    unfold addFuture
    by_cases hf : f.name = name
    · rw [if_pos hf, uses_cons, uses_cons, List.lookup_cons, hf, beq_self_eq_true]
      rfl
    · rw [if_neg hf, uses_cons, uses_cons, List.lookup_cons, List.map_cons, List.map_cons, ih,
        beq_eq_false_iff_ne.mpr (Ne.symm hf)]
      split <;> rfl

/-- A place more in the table is a place more in the list. -/
theorem holds_addFuture {t : Table (List Patch)} (h : t.Holds (Tasks.uses futures))
    (name : String) (p : Patch) :
    (t.put name ((t.get? name).getD [] ++ [p])).Holds
      (Tasks.uses (addFuture name p futures)) := by
  refine ⟨?_, fun other => ?_⟩
  · rw [names_addFuture, ← h.get?, ← h.order]
    exact if_congr Table.mem_values rfl rfl
  · rw [Table.get?_put, lookup_addFuture, h.get?, h.get?]

end Futures

structure Workspace.Shows (w : Workspace) (lines : List String) (d : Draft) (t : Tasks) :
    Prop where
  location : w.location = d.location
  memory : w.memory = d.memory
  symbols : w.symbols.Holds d.symbols.entries
  entry : w.entry = d.entry
  diagnostics : w.diagnostics = d.reports.map (diagnostic lines)
  futures : w.futures.Finds (Tasks.uses t.futures)
  awaited : w.awaited = (Tasks.uses t.futures).map Prod.fst
  inHand : w.inHand.isSome = t.patching
  literals : w.literals = t.literals
  entrySymbol : w.entrySymbol = t.entrySymbol
  endLabel : w.endLabel = t.endLabel

/-- As long as the last loop has not begun, the table is what it was filled to be. -/
theorem Workspace.Shows.holds {w : Workspace} {lines : List String} {d : Draft} {t : Tasks}
    (h : w.Shows lines d t) (hpatching : t.patching = false) :
    w.inHand = none ∧ w.futures.Holds (Tasks.uses t.futures) := by
  have hhand : w.inHand = none := by
    rw [← Option.not_isSome_iff_eq_none, h.inHand, hpatching]
    exact Bool.false_ne_true
  have horder := h.awaited
  rw [Workspace.awaited, hhand] at horder
  exact ⟨hhand, horder, h.futures⟩

/-- A course that has come to a draft, soundly all the time. Since its past the last loop has been
running, or has not begun. Memory is not too large for its locations to fit into words. -/
structure Course.Reaches (c : Course) (past : List Workspace) (lines : List String) (d : Draft)
    (t : Tasks) : Prop where
  shows : c.now.Shows lines d t
  small : d.memory.size < 0x40000000
  sound : ∀ w ∈ c.moments, w.Sound
  since : ∃ later, c.moments = later ++ past ∧ ∀ w ∈ later, w.inHand.isSome = t.patching

section Reaches

variable {c : Course} {w : Workspace} {past : List Workspace} {lines : List String}
  {d d' : Draft} {t t' : Tasks}

theorem Course.Reaches.now (h : c.Reaches past lines d t) : c.now.Sound :=
  h.sound c.now List.mem_cons_self

theorem Course.Reaches.sound_change (h : c.Reaches past lines d t) (hsound : w.Sound) :
    ∀ w' ∈ (c.change w).moments, w'.Sound :=
  List.forall_mem_cons.mpr ⟨hsound, h.sound⟩

theorem Course.Reaches.change (h : c.Reaches past lines d t) (hshows : w.Shows lines d' t')
    (hsize : d'.memory.size = d.memory.size) (hsame : t'.patching = t.patching)
    (hsound : w.Sound) : (c.change w).Reaches past lines d' t' := by
  refine ⟨hshows, hsize.symm ▸ h.small, h.sound_change hsound, ?_⟩
  obtain ⟨later, hmoments, hlater⟩ := h.since
  refine ⟨w :: later, congrArg (w :: ·) hmoments, List.forall_mem_cons.mpr ⟨hshows.inHand, ?_⟩⟩
  exact fun w' hw' => (hlater w' hw').trans hsame.symm

theorem reaches_start (lines : List String) {size : Nat} (hsize : size < 0x40000000) :
    (Course.start size).Reaches [] lines (Draft.start size)
      (Tasks.ofDraft (Draft.start size)) := by
  refine ⟨⟨rfl, rfl, Table.holds_empty, rfl, rfl, Table.holds_empty.get?, rfl, rfl, rfl, rfl, rfl⟩,
    ?_, List.forall_mem_singleton.mpr (Workspace.sound_start size),
    [Workspace.start size], rfl, List.forall_mem_singleton.mpr rfl⟩
  exact Array.size_replicate.symm ▸ hsize

/-- There is still room for the location counter in a word. -/
theorem Course.Reaches.location_le (h : c.Reaches past lines d t) : d.location ≤ d.memory.size := by
  have hlocation := h.now.location
  rwa [h.shows.location, h.shows.memory] at hlocation

theorem Course.Reaches.store (h : c.Reaches past lines d t) (l : Nat) (v : Word) :
    (c.change { c.now with memory := c.now.memory.write l v }).Reaches past lines
      { d with memory := d.memory.write l v } t :=
  h.change { h.shows with memory := congrArg (·.write l v) h.shows.memory }
    (Memory.size_write _ _ _) rfl (h.now.write l v)

theorem Course.Reaches.moveTo (h : c.Reaches past lines d t) {l : Nat} (hl : l ≤ d.memory.size) :
    (c.change { c.now with location := l }).Reaches past lines { d with location := l } t :=
  h.change { h.shows with location := rfl } rfl rfl (h.now.moveTo (h.shows.memory ▸ hl))

theorem Course.Reaches.define (h : c.Reaches past lines d t) {name : String} {v : Int}
    (hnew : d.symbols.get? name = none) (hv : Word.Fits v) :
    (c.change { c.now with symbols := c.now.symbols.put name v }).Reaches past lines
      { d with symbols := ⟨d.symbols.entries ++ [(name, v)]⟩ } t :=
  h.change { h.shows with symbols := h.shows.symbols.put hnew v } rfl rfl (h.now.define hv name)

theorem Course.Reaches.setEntry (h : c.Reaches past lines d t) (entry : Option Nat) :
    (c.change { c.now with entry }).Reaches past lines { d with entry } t :=
  h.change { h.shows with entry := rfl } rfl rfl (h.now.note entry _ _ _)

theorem Course.Reaches.setEntrySymbol (h : c.Reaches past lines d t)
    (entrySymbol : Option (String × Nat)) :
    (c.setEntrySymbol entrySymbol).Reaches past lines d { t with entrySymbol } :=
  h.change { h.shows with entrySymbol := rfl } rfl rfl (h.now.note _ entrySymbol _ _)

theorem Course.Reaches.setEndLabel (h : c.Reaches past lines d t)
    (endLabel : Option (String × Nat)) :
    (c.setEndLabel endLabel).Reaches past lines d { t with endLabel } :=
  h.change { h.shows with endLabel := rfl } rfl rfl (h.now.note _ _ endLabel _)

/-- A report has the text of its line. -/
theorem Course.Reaches.report (h : c.Reaches past lines d t) {line : Nat} {text : String}
    (htext : lines.getD (line - 1) "" = text) (severity : Severity) (error : Error) :
    (c.report line text severity error).Reaches past lines (d.report line severity error) t := by
  refine h.change { h.shows with diagnostics := ?_ } rfl rfl (h.now.note _ _ _ _)
  show c.now.diagnostics ++ [_] = (d.reports ++ [_]).map (diagnostic lines)
  rw [h.shows.diagnostics, List.map_append, ← htext]
  rfl

theorem Course.Reaches.remember (h : c.Reaches past lines d t) (hpatching : t.patching = false)
    {p : Patch} (hp : p.location < d.memory.size) (name : String) :
    (c.change (c.now.remember name p)).Reaches past lines d
      { t with futures := Draft.addFuture name p t.futures } := by
  obtain ⟨hhand, hholds⟩ := h.shows.holds hpatching
  have hadded := holds_addFuture hholds name p
  have hkept : (c.now.remember name p).inHand = none := hhand
  refine h.change { h.shows with futures := hadded.get?, awaited := ?_ } rfl rfl
    (h.now.remember hhand (h.shows.memory ▸ hp) name)
  rw [Workspace.awaited, hkept]
  exact hadded.order

theorem Course.Reaches.setLiterals (h : c.Reaches past lines d t) {literals : List (Word × Patch)}
    (hliterals : ∀ l ∈ literals, l.2.location < d.memory.size) :
    (c.setLiterals literals).Reaches past lines d { t with literals } :=
  h.change { h.shows with literals := rfl } rfl rfl (h.now.setLiterals (h.shows.memory ▸ hliterals))

/-- The tasks are what waits, whatever waits in the draft. -/
theorem Course.Reaches.leave (h : c.Reaches past lines d t) (futures : List Future)
    (literals : List (Word × Patch)) (entrySymbol endLabel : Option (String × Nat)) :
    c.Reaches past lines { d with futures, literals, entrySymbol, endLabel } t :=
  ⟨{ h.shows with }, h.small, h.sound, h.since⟩

theorem Course.Reaches.inHand_eq_none (h : c.Reaches [] lines d t)
    (hpatching : t.patching = false) :
    ∀ w ∈ c.moments, w.inHand = none := by
  obtain ⟨later, hmoments, hlater⟩ := h.since
  rw [hmoments, List.append_nil]
  intro w hw
  have hhand := hlater w hw
  rwa [hpatching, Option.isSome_eq_false_iff, Option.isNone_iff_eq_none] at hhand

/-- The past ends with the last loop taking the order. -/
theorem Course.Reaches.takeOrder (h : c.Reaches past lines d t) (hpatching : t.patching = false) :
    (c.change c.now.takeOrder).Reaches (c.now.takeOrder :: c.moments) lines d
      { t with patching := true } := by
  obtain ⟨hhand, hholds⟩ := h.shows.holds hpatching
  exact {
    shows := { h.shows with
      futures := hholds.get?
      awaited := hholds.order
      inHand := rfl }
    small := h.small
    sound := h.sound_change (h.now.takeOrder hhand)
    since := ⟨[], rfl, List.forall_mem_nil _⟩ }

theorem Course.Reaches.takeFuture (h : c.Reaches past lines d t) (hpatching : t.patching = true)
    {f : Future} {rest : List Future} (hfirst : t.futures = f :: rest) :
    (c.change (c.now.takeFuture f.name (rest.map Future.name))).Reaches past lines d
      { t with futures := rest } := by
  have hnames : (Tasks.uses rest).map Prod.fst = rest.map Future.name := List.map_map
  have hfutures := h.shows.futures
  have hawaited := h.shows.awaited
  rw [hfirst, uses_cons] at hfutures hawaited
  rw [List.map_cons, hnames] at hawaited
  have hhand : c.now.inHand = some (f.name :: rest.map Future.name) := by
    obtain ⟨names, hnames⟩ := Option.isSome_iff_exists.mp (h.shows.inHand.trans hpatching)
    rw [Workspace.awaited, hnames, Option.getD_some] at hawaited
    rw [hnames, hawaited]
  have hnew : f.name ∉ (Tasks.uses rest).map Prod.fst := by
    have hnodup := h.now.futures.nodup
    rw [hawaited] at hnodup
    exact hnames ▸ (List.nodup_cons.mp hnodup).1
  exact h.change
    { h.shows with
      futures := hfutures.erase hnew
      awaited := hnames.symm
      inHand := hpatching.symm } rfl rfl
    (h.now.takeFuture hhand)

end Reaches

end MixComputer.Guarded
