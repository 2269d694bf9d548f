import MixComputer.Proofs.Assembly.Reading
import MixComputer.Proofs.Guarded.Evaluation
import MixComputer.Proofs.Guarded.Line
import MixComputer.Proofs.Guarded.Workspace

/-!
The first pass in numbers of fixed width. Each line makes its changes to the course one by one,
and a line that fails leaves behind what it has changed by then. The course comes to the drafts of
the first pass, with the same errors and without a trap.
-/
namespace MixComputer.Guarded

open Assembly Source

/-- Changes that may fail. What has been changed by then stays. -/
abbrev Stage := Guarded (Course × Except Error Unit)

namespace Stage

def done (c : Course) : Stage := .ok (c, .ok ())

def failed (c : Course) (error : Error) : Stage := .ok (c, .error error)

def next (s : Stage) (next : Course → Stage) : Stage := do
  match ← s with
  | (c, .ok ()) => next c
  | (c, .error error) => failed c error

def given {α : Type} (c : Course) (x : Guarded (Except Error α)) (next : α → Stage) : Stage := do
  match ← x with
  | .ok a => next a
  | .error error => failed c error

/-- The changes lead to the same draft, or fail with the same error and without a change. -/
def Attains (s : Stage) (c : Course) (r : Except Error Draft) (P : Course → Draft → Prop) : Prop :=
  match r with
  | .ok d => ∃ c', s = done c' ∧ P c' d
  | .error error => s = failed c error

variable {s : Stage} {c : Course} {P : Course → Draft → Prop}

theorem next_done (f : Course → Stage) : (done c).next f = f c := rfl

theorem Attains.imp {Q : Course → Draft → Prop} {r : Except Error Draft} (h : s.Attains c r P)
    (himp : ∀ c' d, r = .ok d → P c' d → Q c' d) : s.Attains c r Q := by
  cases r with
  | error error => exact h
  | ok d =>
    obtain ⟨c', hs, hP⟩ := h
    exact ⟨c', hs, himp c' d rfl hP⟩

theorem Attains.cases {r : Except Error Draft} (h : s.Attains c r P) :
    (∃ error, r = .error error ∧ s = failed c error) ∨
      ∃ d c', r = .ok d ∧ s = done c' ∧ P c' d := by
  cases r with
  | error error => exact .inl ⟨error, rfl, h⟩
  | ok d =>
    obtain ⟨c', hs, hP⟩ := h
    exact .inr ⟨d, c', rfl, hs, hP⟩

theorem attains_given {α : Type} {x : Guarded (Except Error α)} {r : Except Error α}
    {next : α → Stage} {f : α → Except Error Draft} (hx : x = .ok r)
    (hnext : ∀ a, r = .ok a → (next a).Attains c (f a) P) :
    (given c x next).Attains c (r >>= f) P := by
  rw [given, hx]
  cases r with
  | error error => rfl
  | ok a => exact hnext a rfl

/-- A change as it is made to a draft. -/
theorem exists_of_attains {d : Draft} {r : Except Error Draft} (hs : s.Attains c r P)
    (hc : P c d) : ∃ c', s = .ok (c', (d.attempt r).2) ∧ P c' (d.attempt r).1 := by
  cases r with
  | error error => exact ⟨c, hs, hc⟩
  | ok d' =>
    obtain ⟨c', hs, hP⟩ := hs
    exact ⟨c', hs, hP⟩

/-- Two changes one after the other, as they are made to a draft. -/
theorem exists_of_attains_next {second : Course → Stage} {d : Draft} {r : Except Error Draft}
    {f : Draft → Except Error Draft} (hs : s.Attains c r P) (hc : P c d)
    (hsecond : ∀ c' d', r = .ok d' → P c' d' → (second c').Attains c' (f d') P) :
    ∃ c', s.next second = .ok (c', (d.attemptBoth r f).2) ∧ P c' (d.attemptBoth r f).1 := by
  cases r with
  | error error =>
    have hs : s = failed c error := hs
    exact ⟨c, by rw [hs]; rfl, hc⟩
  | ok d' =>
    obtain ⟨c', rfl, hP⟩ := hs
    exact exists_of_attains (hsecond c' d' rfl hP) hP

end Stage

open Stage

section Words

def Workspace.openSymbol? (w : Workspace) (e : Expression) : Option (String × Bool) :=
  e.loneSymbol?.filter fun s => !(w.symbols.get? s.1).isSome

def directiveWord (w : Workspace) (operand : String) : Guarded (Except Error Word) :=
  andThen (.ok (readWValue operand)) (storeParts w.symbols w.location Word.zero)

def checkLocation (w : Workspace) (quantity : Quantity) (v : Int) : Guarded (Except Error Nat) :=
  if v < 0 then .ok (.error (.outOfRange quantity v))
  else do
    let location ← number .w64 v.toNat
    if location < w.memory.size then return .ok location
    else return .error (.outOfRange quantity v)

def constantWord (w : Workspace) (operand : String) (line : Nat) :
    Guarded (Except Error (Word × Pending)) :=
  andThen (.ok (readWValue operand)) fun parts =>
    match (wholeExpression? parts).bind w.openSymbol? with
    | some (name, negative) =>
      .ok (.ok (Word.wrap negative 0, .symbol name ⟨w.location, negative, Field.whole, line⟩))
    | none =>
      andThen (storeParts w.symbols w.location Word.zero parts) fun v => .ok (.ok (v, .nothing))

def codesOf (cs : List Char) : Except Error (List Byte) :=
  cs.mapM fun c =>
    match Alphabet.code? c with
    | some code => .ok code
    | none => .error (.badCharacter c)

def charactersWord (rest : String) : Guarded (Except Error (Word × Pending)) := do
  match codesOf (← fiveCharacters rest) with
  | .ok codes => return .ok (← ofBytes false (codes.map Fin.val), .nothing)
  | .error error => return .error error

def instructionWord (w : Workspace) (op : Operation) (standard : Byte) (text : String)
    (line : Nat) : Guarded (Except Error (Word × Pending)) :=
  andThen (.ok (readOperand text)) fun operand =>
    andThen (indexOf w.symbols w.location operand.index) fun index =>
      andThen (codeOf w.symbols w.location standard operand.field) fun field =>
        match operand.address with
        | .empty => do return .ok (← pack op.code index field Address.zero, .nothing)
        | .expression e =>
          match w.openSymbol? e with
          | some (name, negative) => do
            let waiting ← pack op.code index field ⟨negative, 0⟩
            return .ok (waiting, .symbol name ⟨w.location, negative, Field.address, line⟩)
          | none =>
            andThen (addressOf w.symbols w.location e) fun a => do
              return .ok (← pack op.code index field a, .nothing)
        | .literal parts =>
          andThen (storeParts w.symbols w.location Word.zero parts) fun v => do
            let waiting ← pack op.code index field Address.zero
            return .ok (waiting, .literal v ⟨w.location, false, Field.address, line⟩)

variable {c : Course} {past : List Workspace} {lines : List String} {d : Draft} {t : Tasks}

theorem andThen_map_eq {α β γ : Type} {x : Guarded (Except Error β)} {r : Except Error α}
    {g : α → β} {next : β → Guarded (Except Error γ)} {f : α → Except Error γ}
    (hx : x = .ok (r.map g)) (hnext : ∀ a, r = .ok a → next (g a) = .ok (f a)) :
    andThen x next = .ok (r >>= f) := by
  rw [hx]
  cases r with
  | error error => rfl
  | ok a => exact hnext a rfl

variable (h : c.Reaches past lines d t)

include h

theorem fits_location : Word.Fits (d.location : Int) := by
  have hle := h.location_le
  have hsmall := h.small
  rw [fits_iff]
  omega

theorem integer_location : integer d.location = .ok (d.location : Int) := by
  have hsmall := fits_iff.mp (fits_location h)
  exact integer_eq (by omega)

theorem get?_eq (name : String) : c.now.symbols.get? name = d.symbols.get? name :=
  h.shows.symbols.get? name

theorem gives : Gives c.now.symbols d.scope where
  symbol := get?_eq h
  fits := fun name v hv => h.now.fits name v ((get?_eq h name).trans hv)
  here := Nat.lt_of_le_of_lt h.location_le h.small

theorem openSymbol?_eq : c.now.openSymbol? = d.openSymbol? := by
  funext e
  unfold Workspace.openSymbol? Draft.openSymbol? SymbolTable.contains
  simp only [get?_eq h]

theorem word_eq (parts : WValue) :
    storeParts c.now.symbols c.now.location Word.zero parts = .ok (d.scope.word parts) := by
  rw [h.shows.location]
  exact storeParts_eq (gives h) Word.zero parts

theorem directiveWord_eq (operand : String) :
    directiveWord c.now operand = .ok (d.directiveWord operand) :=
  andThen_eq rfl fun parts _ => word_eq h parts

theorem checkLocation_eq (quantity : Quantity) {v : Int} (hv : Word.Fits v) :
    checkLocation c.now quantity v = .ok (d.checkLocation quantity v) := by
  have hsmall := fits_iff.mp hv
  unfold checkLocation Draft.checkLocation
  rw [h.shows.memory]
  by_cases hnegative : v < 0
  · rw [if_pos hnegative, if_neg fun hinside => absurd hnegative (Int.not_lt.mpr hinside.1)]
  · have hnumber : number .w64 v.toNat = .ok v.toNat := if_pos (by simp only [Width.limit]; omega)
    rw [if_neg hnegative, hnumber, ok_bind]
    by_cases hinside : v.toNat < d.memory.size
    · rw [if_pos hinside, if_pos ⟨Int.not_lt.mp hnegative, hinside⟩]
      rfl
    · rw [if_neg hinside, if_neg fun hboth => hinside hboth.2]
      rfl

omit h in
theorem lt_of_checkLocation {quantity : Quantity} {v : Int} {location : Nat}
    (hlocation : d.checkLocation quantity v = .ok location) : location < d.memory.size := by
  unfold Draft.checkLocation at hlocation
  split at hlocation
  · rename_i hinside
    cases hlocation
    exact hinside.2
  · cases hlocation

theorem constantWord_eq (operand : String) (line : Nat) :
    constantWord c.now operand line = .ok (d.constantWord operand line) := by
  refine andThen_eq rfl fun parts _ => ?_
  rw [openSymbol?_eq h, h.shows.location]
  cases (wholeExpression? parts).bind d.openSymbol? with
  | some s => rfl
  | none =>
    rw [← h.shows.location]
    exact andThen_eq (word_eq h parts) fun v _ => rfl

theorem instructionWord_eq (op : Operation) (standard : Byte) (text : String) (line : Nat) :
    instructionWord c.now op standard text line =
      .ok (d.instructionWord op standard text line) := by
  have hword := word_eq h
  have hindex := indexOf_eq (gives h)
  have hcode := codeOf_eq (gives h) standard
  have haddress := addressOf_eq (gives h)
  unfold instructionWord
  rw [openSymbol?_eq h]
  rw [h.shows.location] at hword ⊢
  refine andThen_eq rfl fun operand _ => ?_
  refine andThen_map_eq (hindex operand.index) fun index _ => ?_
  refine andThen_map_eq (hcode operand.field) fun field _ => ?_
  simp only [pack_eq, ok_bind, pure_eq]
  cases operand.address with
  | empty => rfl
  | literal parts => exact andThen_eq (hword parts) fun v _ => rfl
  | expression e =>
    simp only
    cases d.openSymbol? e with
    | some s => rfl
    | none => exact andThen_eq (haddress e) fun a _ => rfl

omit h in
theorem length_mapM {α β : Type} {f : α → Except Error β} {as : List α} {bs : List β}
    (h : as.mapM f = .ok bs) : bs.length = as.length := by
  induction as generalizing bs with
  | nil =>
    cases h
    rfl
  | cons a as ih =>
    rw [List.mapM_cons] at h
    obtain ⟨b, -, h⟩ := (bind_eq_ok_iff _ _ _).mp h
    obtain ⟨rest, hrest, h⟩ := (bind_eq_ok_iff _ _ _).mp h
    cases h
    rw [List.length_cons, List.length_cons, ih hrest]

omit h in
theorem charactersWord_eq (rest : String) :
    charactersWord rest = .ok (Draft.charactersWord rest) := by
  have hfive : (Source.fiveCharacters rest).length = 5 := by
    unfold Source.fiveCharacters
    rw [List.length_take, List.length_append, List.length_replicate]
    omega
  have hword : characterWord (Source.fiveCharacters rest) =
      codesOf (Source.fiveCharacters rest) >>= fun codes => .ok (Word.ofBytes false codes) := rfl
  unfold charactersWord Draft.charactersWord
  rw [fiveCharacters_eq, ok_bind, hword]
  cases hcodes : codesOf (Source.fiveCharacters rest) with
  | error error => rfl
  | ok codes =>
    have hlength := length_mapM hcodes
    simp only [ofBytes_eq false codes (by omega), ok_bind]
    rfl

end Words

section Changes

def define (c : Course) (name : String) (v : Int) : Stage :=
  match c.now.symbols.get? name with
  | some old => failed c (.duplicateSymbol name old)
  | none => done (c.change { c.now with symbols := c.now.symbols.put name v })

def defineLabel (c : Course) : Option String → Stage
  | some label => do define c label (← integer c.now.location)
  | none => done c

/-- The location counter moves on after the word has been stored. -/
def emit (c : Course) (w : Word) : Stage :=
  if c.now.location < c.now.memory.size then do
    let c := c.change { c.now with memory := c.now.memory.write c.now.location w }
    let location ← add .w64 c.now.location 1
    done (c.change { c.now with location })
  else do failed c (.outOfRange .location (← integer c.now.location))

def await (c : Course) : Pending → Course
  | .nothing => c
  | .symbol name p => c.change (c.now.remember name p)
  | .literal v p => c.setLiterals (c.now.literals ++ [(v, p)])

def put (c : Course) (entry : Word × Pending) : Stage :=
  (emit c entry.1).next fun c => done (await c entry.2)

variable {c : Course} {past : List Workspace} {lines : List String} {d d' : Draft} {t : Tasks}

theorem attains_define (h : c.Reaches past lines d t) {name : String} {v : Int} (hv : Word.Fits v) :
    (define c name v).Attains c (d.define name v) fun c' d' => c'.Reaches past lines d' t := by
  unfold define Draft.define SymbolTable.insert
  rw [get?_eq h]
  cases hvalue : d.symbols.get? name with
  | some old => rfl
  | none => exact ⟨_, rfl, h.define hvalue hv⟩

theorem attains_emit (h : c.Reaches past lines d t) (w : Word) :
    (emit c w).Attains c (d.emit w) fun c' d' => c'.Reaches past lines d' t := by
  have hle := h.location_le
  have hsmall := h.small
  unfold emit Draft.emit
  rw [h.shows.location, h.shows.memory]
  by_cases hroom : d.location < d.memory.size
  · have hadd : add .w64 c.now.location 1 = .ok (d.location + 1) := by
      rw [h.shows.location]
      exact add_eq (by simp only [Width.limit]; omega)
    have hstored := h.store d.location w
    have hmoved := hstored.moveTo (l := d.location + 1)
      ((Memory.size_write d.memory d.location w).symm ▸ hroom)
    rw [h.shows.memory] at hmoved
    rw [if_pos hroom, if_pos hroom]
    refine ⟨_, ?_, hmoved⟩
    show (do let location ← add .w64 c.now.location 1; done _) = _
    rw [hadd]
    rfl
  · rw [if_neg hroom, if_neg hroom, integer_location h]
    rfl

end Changes

section Lines

def Course.Draws (lines : List String) (c : Course) (d : Draft) : Prop :=
  c.Reaches [] lines d (Tasks.ofDraft d)

def equate (c : Course) (label : Option String) (operand : String) : Stage :=
  given c (directiveWord c.now operand) fun v =>
    match label with
    | some name => do define c name (← value v)
    | none => done c

def moveOrigin (c : Course) (operand : String) : Stage :=
  given c (directiveWord c.now operand) fun v => do
    given c (checkLocation c.now .location (← value v)) fun location =>
      done (c.change { c.now with location })

def setEntry (c : Course) (operand : String) (line : Nat) : Stage :=
  given c (.ok (readWValue operand)) fun parts =>
    match (wholeExpression? parts).bind c.now.openSymbol? with
    | some (name, false) => done (c.setEntrySymbol (some (name, line)))
    | _ =>
      given c (storeParts c.now.symbols c.now.location Word.zero parts) fun v => do
        given c (checkLocation c.now .entryPoint (← value v)) fun entry =>
          done (c.change { c.now with entry := some entry })

def deferLabel (c : Course) (label : Option String) (line : Nat) : Stage :=
  match label with
  | none => done c
  | some name =>
    match c.now.symbols.get? name with
    | some old => failed c (.duplicateSymbol name old)
    | none => done (c.setEndLabel (some (name, line)))

def obey (c : Course) (mnemonic : Mnemonic) (l : Line) (line : Nat) : Stage :=
  match mnemonic with
  | .directive .equate => equate c l.label l.operand
  | .directive .origin => (defineLabel c l.label).next fun c => moveOrigin c l.operand
  | .directive .constant =>
    (defineLabel c l.label).next fun c => given c (constantWord c.now l.operand line) (put c)
  | .directive .characters =>
    (defineLabel c l.label).next fun c => given c (charactersWord l.rest) (put c)
  | .directive .finish =>
    (deferLabel c l.label line).next fun c => setEntry c l.operand line
  | .instruction op standard =>
    (defineLabel c l.label).next fun c =>
      given c (instructionWord c.now op standard l.operand line) (put c)

def readLine (c : Course) (text : String) (line : Nat) :
    Guarded (Course × Except Error Bool) := do
  match ← splitLine text with
  | .error cause => return (c, .error (.malformed cause))
  | .ok l =>
    match Mnemonic.ofName? l.operation with
    | none => return (c, .error (.unknownOperation l.operation))
    | some mnemonic =>
      match ← obey c mnemonic l line with
      | (c, .ok ()) => return (c, .ok (mnemonic == .directive .finish))
      | (c, .error error) => return (c, .error error)

def takeLine (c : Course) (text : String) (line : Nat) : Guarded (Course × Bool) :=
  if isComment text then .ok (c, false)
  else do
    match ← readLine c text line with
    | (c, .ok last) => return (c, last)
    | (c, .error error) => return (c.report line text .error error, false)

/-- Lines are counted from the given number on; there are no more of them than can be counted. -/
def readLines (c : Course) (line : Nat) : List String → Guarded Course
  | [] => .ok c
  | text :: rest => do
    match ← takeLine c text line with
    | (c, true) => return c
    | (c, false) => readLines c (line + 1) rest

variable {c : Course} {lines : List String} {d : Draft}

theorem draws_await (h : c.Draws lines d) {pending : Pending}
    (hpatch : ∀ p, pending.patch? = some p → p.location < d.memory.size) :
    (await c pending).Draws lines (d.await pending) := by
  cases pending with
  | nothing => exact h
  | symbol name p => exact (h.remember rfl (hpatch p rfl) name).leave _ _ _ _
  | literal v p =>
    have hshown : c.now.literals = d.literals := h.shows.literals
    unfold await
    rw [hshown]
    refine (h.setLiterals fun l hl => ?_).leave _ _ _ _
    obtain hold | hnew := List.mem_append.mp hl
    · have hsound := h.now.literals
      rw [hshown, h.shows.memory] at hsound
      exact hsound l hold
    · rw [List.mem_singleton.mp hnew]
      exact hpatch p rfl

theorem draws_put (h : c.Draws lines d) {entry : Word × Pending}
    (hpatch : ∀ p, entry.2.patch? = some p → p.location = d.location) :
    (put c entry).Attains c (d.put entry) (Course.Draws lines) := by
  unfold put Draft.put
  obtain ⟨error, hr, hemit⟩ | ⟨d', c', hr, hemit, hreaches⟩ := (attains_emit h entry.1).cases
  · rw [hr, hemit]
    rfl
  · rw [hr, hemit]
    obtain ⟨hroom, rfl⟩ := Draft.emit_eq_ok_iff.mp hr
    refine ⟨_, rfl, draws_await hreaches fun p hp => ?_⟩
    rw [hpatch p hp]
    exact (Memory.size_write d.memory d.location entry.1).symm ▸ hroom

theorem draws_define (h : c.Draws lines d) (name : String) {v : Int} (hv : Word.Fits v) :
    (define c name v).Attains c (d.define name v) (Course.Draws lines) := by
  refine (attains_define h hv).imp fun c' d' hd hreaches => ?_
  obtain ⟨symbols, -, rfl⟩ := Draft.define_eq_ok_iff.mp hd
  exact hreaches

theorem draws_defineLabel (h : c.Draws lines d) (label : Option String) :
    (defineLabel c label).Attains c (d.defineLabel label) (Course.Draws lines) := by
  cases label with
  | none => exact ⟨c, rfl, h⟩
  | some name =>
    unfold defineLabel
    simp only [h.shows.location, integer_location h, ok_bind]
    exact draws_define h name (fits_location h)

theorem draws_equate (h : c.Draws lines d) (label : Option String) (operand : String) :
    (equate c label operand).Attains c (d.equate label operand) (Course.Draws lines) := by
  refine attains_given (directiveWord_eq h operand) fun v _ => ?_
  cases label with
  | none => exact ⟨c, rfl, h⟩
  | some name =>
    simp only [value_eq, ok_bind]
    exact draws_define h name (fits_value v)

theorem draws_moveOrigin (h : c.Draws lines d) (operand : String) :
    (moveOrigin c operand).Attains c (d.moveOrigin operand) (Course.Draws lines) := by
  refine attains_given (directiveWord_eq h operand) fun v _ => ?_
  simp only [value_eq, ok_bind]
  refine attains_given (checkLocation_eq h .location (fits_value v)) fun location hlocation => ?_
  exact ⟨_, rfl, h.moveTo (Nat.le_of_lt (lt_of_checkLocation hlocation))⟩

theorem draws_setEntry (h : c.Draws lines d) (operand : String) (line : Nat) :
    (setEntry c operand line).Attains c (d.setEntry operand line) (Course.Draws lines) := by
  refine attains_given rfl fun parts _ => ?_
  have hvalue : Attains (given c (storeParts c.now.symbols c.now.location Word.zero parts)
      fun v => do
        given c (checkLocation c.now .entryPoint (← value v)) fun entry =>
          done (c.change { c.now with entry := some entry })) c
      (do
        let v ← d.scope.word parts
        let entry ← d.checkLocation .entryPoint v.value
        .ok { d with entry := some entry }) (Course.Draws lines) := by
    refine attains_given (word_eq h parts) fun v _ => ?_
    simp only [value_eq, ok_bind]
    refine attains_given (checkLocation_eq h .entryPoint (fits_value v)) fun entry _ => ?_
    exact ⟨_, rfl, h.setEntry (some entry)⟩
  rw [openSymbol?_eq h]
  cases (wholeExpression? parts).bind d.openSymbol? with
  | none => exact hvalue
  | some s =>
    obtain ⟨name, negative⟩ := s
    cases negative with
    | true => exact hvalue
    | false => exact ⟨_, rfl, (h.setEntrySymbol (some (name, line))).leave _ _ _ _⟩

theorem draws_deferLabel (h : c.Draws lines d) (label : Option String) (line : Nat) :
    (deferLabel c label line).Attains c (d.deferLabel label line) (Course.Draws lines) := by
  cases label with
  | none => exact ⟨c, rfl, h⟩
  | some name =>
    unfold deferLabel Draft.deferLabel
    simp only [get?_eq h]
    cases d.symbols.get? name with
    | some old => rfl
    | none => exact ⟨_, rfl, (h.setEndLabel (some (name, line))).leave _ _ _ _⟩

/-- A line whose word is computed under its label and then put into memory. -/
theorem exists_obeyWord (h : c.Draws lines d) (mnemonic : Mnemonic) (l : Line) (line : Nat)
    (guardedWord : Workspace → Guarded (Except Error (Word × Pending)))
    (word : Draft → Except Error (Word × Pending))
    (hsame : ∀ d, d.lineWord mnemonic l line = (word d).toOption)
    (hword : ∀ {c d}, Course.Draws lines c d → guardedWord c.now = .ok (word d)) :
    ∃ c', ((defineLabel c l.label).next fun c => given c (guardedWord c.now) (put c)) =
        .ok (c', (d.attemptBoth (d.defineLabel l.label) fun d => word d >>= d.put).2) ∧
      c'.Draws lines (d.attemptBoth (d.defineLabel l.label) fun d => word d >>= d.put).1 := by
  refine exists_of_attains_next (draws_defineLabel h l.label) h fun c' d' _ h' => ?_
  refine attains_given (hword h') fun entry hentry => draws_put h' fun p hp => ?_
  exact (Draft.lineWord_patch ((hsame d').trans (congrArg Except.toOption hentry)) p hp).1

theorem exists_obey (h : c.Draws lines d) (mnemonic : Mnemonic) (l : Line) (line : Nat) :
    ∃ c', obey c mnemonic l line = .ok (c', (d.obey mnemonic l line).2) ∧
      c'.Draws lines (d.obey mnemonic l line).1 := by
  cases mnemonic with
  | instruction op standard =>
    exact exists_obeyWord h (.instruction op standard) l line
      (instructionWord · op standard l.operand line) (·.instructionWord op standard l.operand line)
      (fun _ => rfl) fun h => instructionWord_eq h op standard l.operand line
  | directive directive =>
    cases directive with
    | equate => exact exists_of_attains (draws_equate h l.label l.operand) h
    | origin =>
      exact exists_of_attains_next (draws_defineLabel h l.label) h
        fun _ _ _ h => draws_moveOrigin h l.operand
    | constant =>
      exact exists_obeyWord h (.directive .constant) l line (constantWord · l.operand line)
        (·.constantWord l.operand line) (fun _ => rfl) fun h => constantWord_eq h l.operand line
    | characters =>
      exact exists_obeyWord h (.directive .characters) l line (fun _ => charactersWord l.rest)
        (fun _ => Draft.charactersWord l.rest) (fun _ => rfl) fun _ => charactersWord_eq l.rest
    | finish =>
      exact exists_of_attains_next (draws_deferLabel h l.label line) h
        fun _ _ _ h => draws_setEntry h l.operand line

theorem exists_readLine (h : c.Draws lines d) (text : String) (line : Nat) :
    ∃ c', readLine c text line = .ok (c', (d.readLine text line).2) ∧
      c'.Draws lines (d.readLine text line).1 := by
  unfold readLine Draft.readLine Draft.parseLine
  rw [splitLine_eq, ok_bind]
  cases Line.ofText? text with
  | error cause => exact ⟨c, rfl, h⟩
  | ok l =>
    simp only
    cases Mnemonic.ofName? l.operation with
    | none => exact ⟨c, rfl, h⟩
    | some mnemonic =>
      obtain ⟨c', hobey, hdraws⟩ := exists_obey h mnemonic l line
      simp only [hobey, ok_bind]
      generalize d.obey mnemonic l line = obeyed at hdraws ⊢
      obtain ⟨d', result⟩ := obeyed
      cases result <;> exact ⟨c', rfl, hdraws⟩

theorem exists_takeLine (h : c.Draws lines d) {text : String} (line : Nat)
    (htext : lines.getD (line - 1) "" = text) :
    ∃ c', takeLine c text line = .ok (c', (d.takeLine text line).2) ∧
      c'.Draws lines (d.takeLine text line).1 := by
  unfold takeLine Draft.takeLine
  split
  · exact ⟨c, rfl, h⟩
  · obtain ⟨c', hread, hdraws⟩ := exists_readLine h text line
    generalize d.readLine text line = read at hread hdraws
    obtain ⟨d', result⟩ := read
    rw [hread, ok_bind]
    cases result with
    | ok last => exact ⟨c', rfl, hdraws⟩
    | error error => exact ⟨_, rfl, hdraws.report htext .error error⟩

/-- The first pass goes through. The lines still to be read are the last ones of the program. -/
theorem exists_readLines {k : Nat} {texts : List String} (h : c.Draws lines d)
    (htexts : lines.drop k = texts) :
    ∃ c', readLines c (k + 1) texts = .ok c' ∧
      c'.Draws lines (d.readLines (k + 1) texts) := by
  induction texts generalizing c d k with
  | nil => exact ⟨c, rfl, h⟩
  | cons text rest ih =>
    have htext : lines.getD k "" = text := by
      rw [List.getD_eq_getElem?_getD, ← List.head?_drop, htexts]
      rfl
    have hrest : lines.drop (k + 1) = rest := by
      rw [← List.tail_drop, htexts]
      rfl
    obtain ⟨c', htake, hdraws⟩ := exists_takeLine h (k + 1) htext
    unfold readLines Draft.readLines
    generalize d.takeLine text (k + 1) = taken at htake hdraws
    obtain ⟨d', last⟩ := taken
    rw [htake, ok_bind]
    cases last with
    | true => exact ⟨c', rfl, hdraws⟩
    | false => exact ih hdraws hrest

end Lines

end MixComputer.Guarded
