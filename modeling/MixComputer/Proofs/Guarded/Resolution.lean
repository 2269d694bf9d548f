import MixComputer.Proofs.Assembly.Allocation
import MixComputer.Proofs.Assembly.Numbering
import MixComputer.Proofs.Guarded.Reading

/-!
The second pass in numbers of fixed width. The literals are taken all at once, and so is the order
of the symbols that are waited for. The places of a symbol are taken out of the table when the
loop comes to it. Every place that waits lies in memory, and every symbol that is waited for has a
first use, so whatever is looked up is there.
-/
namespace MixComputer.Guarded

open Assembly Source Stage

def source (lines : List String) (line : Nat) : Guarded String := do
  return lines.getD (← sub line 1) ""

def firstUse : List Patch → Guarded Patch
  | p :: _ => .ok p
  | [] => .error .index

def nameWithLine (w : Workspace) (name : String) : Guarded (String × Nat) := do
  return (name, (← firstUse (← w.futures.lookup name)).line)

def undefinedSymbols (w : Workspace) : Guarded (List (String × Nat)) := do
  let used ← (w.futures.order.filter fun name => !(w.symbols.get? name).isSome).mapM
    (nameWithLine w)
  match w.entrySymbol with
  | some (name, line) =>
    if (w.symbols.get? name).isSome || used.any fun u => u.1 == name then return used
    else return used ++ [(name, line)]
  | none => return used

def fitsPatch (p : Patch) (v : Int) : Guarded Bool :=
  if p.field = Field.address then do return decide ((← integer v.natAbs) ≤ 4095) else .ok true

def applyPatch (c : Course) (p : Patch) (value : Int) (text : String) : Guarded Course := do
  let v ← signed p.negative value
  match ← wordOf v, ← fitsPatch p v with
  | some w, true =>
    let w := if v = 0 then w.withSign p.negative else w
    let old ← item c.now.memory p.location
    let new ← insert p.field old w
    return c.change { c.now with memory := c.now.memory.write p.location new }
  | _, _ => return c.report p.line text .error (.outOfRange .address v)

def allocateSymbol (lines : List String) (c : Course) (name : String) (line : Nat) :
    Guarded Course := do
  let location := c.now.location
  match ← (emit c Word.zero).next fun c => do define c name (← integer location) with
  | (c, .ok ()) =>
    return c.report line (← source lines line) .warning (.undefinedSymbol name location)
  | (c, .error error) => return c.report line (← source lines line) .error error

def placeLiteral (lines : List String) (c : Course) (w : Word) (p : Patch) : Guarded Course := do
  let location := c.now.location
  match ← emit c w with
  | (c, .ok ()) => applyPatch c p (← integer location) (← source lines p.line)
  | (c, .error error) => return c.report p.line (← source lines p.line) .error error

def placeLiterals (lines : List String) (c : Course) (literals : List (Word × Patch)) :
    Guarded Course :=
  literals.foldlM (fun c l => placeLiteral lines c l.1 l.2) c

def applyPatches (lines : List String) (c : Course) (value : Int) (patches : List Patch) :
    Guarded Course :=
  patches.foldlM (fun c p => do applyPatch c p value (← source lines p.line)) c

/-- The places of a symbol are taken out whether the symbol has a value or not. -/
def patchFuture (lines : List String) (c : Course) (name : String) (rest : List String) :
    Guarded Course :=
  let taken := c.change (c.now.takeFuture name rest)
  match c.now.symbols.get? name with
  | some value => applyPatches lines taken value ((c.now.futures.get? name).getD [])
  | none => .ok taken

def patchFutures (lines : List String) (c : Course) : List String → Guarded Course
  | [] => .ok c
  | name :: rest => do patchFutures lines (← patchFuture lines c name rest) rest

def setEntryTo (lines : List String) (c : Course) (name : String) (line : Nat) :
    Guarded Course :=
  match c.now.symbols.get? name with
  | none => .ok c
  | some value => do
    match ← checkLocation c.now .entryPoint value with
    | .ok entry => return c.change { c.now with entry := some entry }
    | .error error => return c.report line (← source lines line) .error error

def settleEntry (lines : List String) (c : Course) : Guarded Course :=
  match c.now.entrySymbol with
  | none => .ok c
  | some (name, line) => setEntryTo lines (c.setEntrySymbol none) name line

def settleEndLabel (lines : List String) (c : Course) : Guarded Course :=
  match c.now.endLabel with
  | none => .ok c
  | some (name, line) => do
    match ← define (c.setEndLabel none) name (← integer c.now.location) with
    | (c, .ok ()) => return c
    | (c, .error error) => return c.report line (← source lines line) .error error

def resolve (lines : List String) (c : Course) : Guarded Course := do
  let undefined ← undefinedSymbols c.now
  let c ← undefined.foldlM (fun c u => allocateSymbol lines c u.1 u.2) c
  let c ← placeLiterals lines (c.setLiterals []) c.now.literals
  let c ← patchFutures lines (c.change c.now.takeOrder) c.now.futures.order
  settleEndLabel lines (← settleEntry lines c)

variable {c : Course} {past : List Workspace} {lines : List String} {d d' : Draft} {t : Tasks}

theorem source_eq {line : Nat} (hline : 0 < line) :
    source lines line = .ok (lines.getD (line - 1) "") := by
  unfold source
  rw [sub_eq hline]
  rfl

section Patching

theorem fitsPatch_eq (p : Patch) {v : Int} (hv : Word.Fits v) :
    fitsPatch p v = .ok (Draft.patchFits p v) := by
  have hsmall := fits_iff.mp hv
  have habs : integer v.natAbs = .ok (v.natAbs : Int) := integer_eq (by omega)
  unfold fitsPatch Draft.patchFits
  rw [decide_eq_true hv, Bool.true_and]
  by_cases hfield : p.field = Field.address
  · rw [if_pos hfield, habs, hfield, bne_self_eq_false, Bool.false_or, weight_two]
    exact congrArg Except.ok (decide_eq_decide.mpr (by omega))
  · rw [if_neg hfield, bne_iff_ne.mpr hfield, Bool.true_or]

/-- Zero takes the sign of the reference. -/
theorem patchWord_eq (p : Patch) (v : Int) :
    (if v = 0 then (Word.ofInt v).withSign p.negative else Word.ofInt v) =
      Draft.patchWord p v := by
  unfold Draft.patchWord
  split
  · rename_i hzero
    rw [hzero]
    rfl
  · rfl

theorem exists_applyPatch (h : c.Reaches past lines d t) {p : Patch} {value : Int}
    (hp : p.location < d.memory.size) (hvalue : Word.Fits value) :
    ∃ c', applyPatch c p value (lines.getD (p.line - 1) "") = .ok c' ∧
      c'.Reaches past lines (d.applyPatch p value) t := by
  have hfits : Word.Fits (p.signed value) := fits_signed hvalue p.negative
  have hsmall := fits_iff.mp hvalue
  have hsigned : signed p.negative value = .ok (p.signed value) :=
    signed_eq p.negative (by omega)
  have hmemory := h.shows.memory
  unfold applyPatch
  rw [hsigned, ok_bind, wordOf_eq, if_pos hfits, ok_bind, fitsPatch_eq p hfits, ok_bind,
    Draft.applyPatch_eq]
  cases Draft.patchFits p (p.signed value) with
  | false => exact ⟨_, rfl, h.report rfl .error _⟩
  | true =>
    have hold : item c.now.memory p.location =
        .ok (d.memory.getD p.location Word.zero) := by
      rw [hmemory, item_eq hp]
      exact congrArg Except.ok (Array.getElem_eq_getD _)
    simp only [patchWord_eq, hold, ok_bind, insert_eq, if_true]
    exact ⟨_, rfl, h.store p.location _⟩

/-- All places that wait for one value. -/
theorem exists_applyPatches (h : c.Reaches past lines d t) {value : Int} (hvalue : Word.Fits value)
    {patches : List Patch} (hpatches : ∀ p ∈ patches, p.location < d.memory.size ∧ 0 < p.line) :
    ∃ c', applyPatches lines c value patches = .ok c' ∧
      c'.Reaches past lines (patches.foldl (fun d p => d.applyPatch p value) d) t := by
  induction patches generalizing c d with
  | nil => exact ⟨c, rfl, h⟩
  | cons p patches ih =>
    obtain ⟨hp, hline⟩ := hpatches p List.mem_cons_self
    obtain ⟨c', hstep, hreaches⟩ := exists_applyPatch h hp hvalue
    have hsize := (Draft.leads_applyPatch d p value).size
    unfold applyPatches
    rw [List.foldlM_cons, source_eq hline, ok_bind, hstep, ok_bind]
    exact ih hreaches fun q hq => hsize.symm ▸ hpatches q (List.mem_cons_of_mem p hq)

end Patching

section Symbols

theorem order_futures (h : c.Reaches past lines d t) (hpatching : t.patching = false) :
    c.now.futures.order = t.futures.map Future.name :=
  (h.shows.holds hpatching).2.order.trans List.map_map

theorem nameWithLine_eq (h : c.Draws lines d) {f : Future} (hf : f ∈ d.futures) :
    nameWithLine c.now f.name = .ok (f.name, f.first.line) := by
  have hmem : (f.name, f.first :: f.others) ∈ Tasks.uses d.futures := List.mem_map_of_mem hf
  unfold nameWithLine
  obtain ⟨hhand, hholds⟩ := h.shows.holds rfl
  rw [hholds.lookup (h.now.listed hhand).nodup hmem]
  rfl

theorem undefinedSymbols_eq (h : c.Draws lines d) :
    undefinedSymbols c.now = .ok d.undefinedSymbols := by
  have hnames : (c.now.futures.order.filter fun name => !(c.now.symbols.get? name).isSome) =
      (d.futures.filter fun f => !d.symbols.contains f.name).map Future.name := by
    rw [order_futures h rfl, List.filter_map]
    simp only [get?_eq h]
    rfl
  have hused : ((d.futures.filter fun f => !d.symbols.contains f.name).map Future.name).mapM
      (nameWithLine c.now) = .ok ((d.futures.filter fun f => !d.symbols.contains f.name).map
        fun f => (f.name, f.first.line)) := by
    rw [List.mapM_map]
    exact mapM_eq_ok fun f hf => nameWithLine_eq h (List.mem_of_mem_filter hf)
  have hentry : c.now.entrySymbol = d.entrySymbol := h.shows.entrySymbol
  unfold undefinedSymbols Draft.undefinedSymbols
  rw [hnames, hused, ok_bind, hentry]
  cases d.entrySymbol with
  | none => rfl
  | some s =>
    simp only [get?_eq h]
    exact (apply_ite Except.ok _ _ _).symm

/-- A symbol without a value, which can only lack room. -/
theorem exists_allocateSymbol (h : c.Reaches past lines d t) {name : String} {line : Nat}
    (hnew : d.symbols.get? name = none) (hline : 0 < line) :
    ∃ c', allocateSymbol lines c name line = .ok c' ∧
      c'.Reaches past lines (d.allocateSymbol name line) t := by
  unfold allocateSymbol Draft.allocateSymbol
  simp only [h.shows.location, integer_location h, ok_bind, source_eq hline]
  obtain ⟨error, hr, hemit⟩ | ⟨d₁, c₁, hr, hemit, hreaches₁⟩ := (attains_emit h Word.zero).cases
  · rw [hr, hemit]
    exact ⟨_, rfl, h.report rfl .error error⟩
  · have hsame : d₁.symbols = d.symbols := by
      obtain ⟨-, rfl⟩ := Draft.emit_eq_ok_iff.mp hr
      rfl
    have hinsert := (SymbolTable.insert_eq_ok_iff d₁.symbols _ name d.location).mpr
      ⟨hsame ▸ hnew, rfl⟩
    have hr₂ := Draft.define_eq_ok_iff.mpr ⟨_, hinsert, rfl⟩
    have hboth : (d.emit Word.zero >>= (·.define name d.location)) = .ok _ :=
      (bind_eq_ok_iff _ _ _).mpr ⟨d₁, hr, hr₂⟩
    have hdefine : (define c₁ name d.location).Attains c₁ (d₁.define name d.location) _ :=
      attains_define hreaches₁ (fits_location h)
    rw [hr₂] at hdefine
    obtain ⟨c₂, hdefine, hreaches₂⟩ := hdefine
    rw [hemit, hboth, next_done, hdefine]
    exact ⟨_, rfl, hreaches₂.report rfl .warning _⟩

/-- No symbol comes twice, so each is still without a value when it gets its word. -/
theorem exists_allocateSymbols (h : c.Reaches past lines d t) {us : List (String × Nat)}
    (hnodup : (us.map Prod.fst).Nodup) (hnew : ∀ u ∈ us, d.symbols.get? u.1 = none)
    (hlines : ∀ u ∈ us, 0 < u.2) :
    ∃ c', us.foldlM (fun c u => allocateSymbol lines c u.1 u.2) c = .ok c' ∧
      c'.Reaches past lines (us.foldl (fun d u => d.allocateSymbol u.1 u.2) d) t := by
  induction us generalizing c d with
  | nil => exact ⟨c, rfl, h⟩
  | cons u us ih =>
    obtain ⟨hfirst, hrest⟩ := List.nodup_cons.mp hnodup
    obtain ⟨c', hstep, hreaches⟩ :=
      exists_allocateSymbol h (hnew u List.mem_cons_self) (hlines u List.mem_cons_self)
    rw [List.foldlM_cons, hstep, ok_bind]
    refine ih hreaches hrest (fun u' hu' => ?_)
      fun u' hu' => hlines u' (List.mem_cons_of_mem u hu')
    rw [Draft.get?_allocateSymbol_ne (ne_of_mem_of_not_mem (List.mem_map_of_mem hu') hfirst)]
    exact hnew u' (List.mem_cons_of_mem u hu')

end Symbols

section Literals

theorem exists_placeLiteral (h : c.Reaches past lines d t) (w : Word) {p : Patch}
    (hp : p.location < d.memory.size) (hline : 0 < p.line) :
    ∃ c', placeLiteral lines c w p = .ok c' ∧ c'.Reaches past lines (d.placeLiteral w p) t := by
  unfold placeLiteral Draft.placeLiteral
  simp only [h.shows.location, integer_location h, ok_bind, source_eq hline]
  obtain ⟨error, hr, hemit⟩ | ⟨d₁, c₁, hr, hemit, hreaches₁⟩ := (attains_emit h w).cases
  · rw [hr, hemit]
    exact ⟨_, rfl, h.report rfl .error error⟩
  · have hsize : d₁.memory.size = d.memory.size := by
      obtain ⟨-, rfl⟩ := Draft.emit_eq_ok_iff.mp hr
      exact Memory.size_write _ _ _
    rw [hr, hemit]
    exact exists_applyPatch hreaches₁ (hsize.symm ▸ hp) (fits_location h)

theorem exists_placeLiterals (h : c.Reaches past lines d t) {literals : List (Word × Patch)}
    (hliterals : ∀ l ∈ literals, l.2.location < d.memory.size ∧ 0 < l.2.line) :
    ∃ c', placeLiterals lines c literals = .ok c' ∧
      c'.Reaches past lines (literals.foldl (fun d l => d.placeLiteral l.1 l.2) d) t := by
  induction literals generalizing c d with
  | nil => exact ⟨c, rfl, h⟩
  | cons l rest ih =>
    obtain ⟨hinside, hline⟩ := hliterals l List.mem_cons_self
    obtain ⟨c', hplace, hreaches⟩ := exists_placeLiteral h l.1 hinside hline
    have hsize := (Draft.leads_placeLiteral d l).size
    unfold placeLiterals
    rw [List.foldlM_cons, hplace, ok_bind]
    exact ih hreaches fun l' hl' => hsize.symm ▸ hliterals l' (List.mem_cons_of_mem l hl')

end Literals

section Futures

theorem exists_patchFuture (h : c.Reaches past lines d t) (hpatching : t.patching = true)
    {f : Future} {rest : List Future} (hfirst : t.futures = f :: rest)
    (hlines : ∀ p ∈ f.first :: f.others, 0 < p.line) :
    ∃ c', patchFuture lines c f.name (rest.map Future.name) = .ok c' ∧
      c'.Reaches past lines (d.patchFuture f) { t with futures := rest } := by
  have hpatches : c.now.futures.get? f.name = some (f.first :: f.others) := by
    rw [h.shows.futures, hfirst, uses_cons, List.lookup_cons, beq_self_eq_true]
  have hinside := (h.now.uses f.name _ hpatches).2
  rw [h.shows.memory] at hinside
  have htaken := h.takeFuture hpatching hfirst
  unfold patchFuture Draft.patchFuture
  rw [hpatches, get?_eq h]
  cases hvalue : d.symbols.get? f.name with
  | none => exact ⟨_, rfl, htaken⟩
  | some value =>
    have hfits := (gives h).fits f.name value hvalue
    exact exists_applyPatches htaken hfits fun p hp => ⟨hinside p hp, hlines p hp⟩

theorem exists_patchFutures {fs : List Future} (h : c.Reaches past lines d t)
    (hpatching : t.patching = true) (hfs : t.futures = fs)
    (hlines : ∀ f ∈ fs, ∀ p ∈ f.first :: f.others, 0 < p.line) :
    ∃ c', patchFutures lines c (fs.map Future.name) = .ok c' ∧
      c'.Reaches past lines (fs.foldl Draft.patchFuture d) { t with futures := [] } := by
  induction fs generalizing c d t with
  | nil =>
    obtain ⟨futures, patching, literals, entrySymbol, endLabel⟩ := t
    obtain rfl : futures = [] := hfs
    exact ⟨c, rfl, h⟩
  | cons f rest ih =>
    obtain ⟨c', hpatch, hreaches⟩ :=
      exists_patchFuture h hpatching hfs (hlines f List.mem_cons_self)
    obtain ⟨c'', hrest, hreaches'⟩ :=
      ih hreaches hpatching rfl fun f' hf' => hlines f' (List.mem_cons_of_mem f hf')
    refine ⟨c'', ?_, hreaches'⟩
    rw [List.map_cons, patchFutures, hpatch, ok_bind, hrest]

end Futures

section Settling

theorem exists_setEntryTo (h : c.Reaches past lines d t) (name : String) {line : Nat}
    (hsymbol : d.entrySymbol = some (name, line)) (hline : 0 < line) :
    ∃ c', setEntryTo lines c name line = .ok c' ∧ c'.Reaches past lines d.settleEntry t := by
  unfold setEntryTo Draft.settleEntry
  rw [get?_eq h, hsymbol]
  simp only
  cases hvalue : d.symbols.get? name with
  | none => exact ⟨c, rfl, h⟩
  | some value =>
    have hfits := (gives h).fits name value hvalue
    simp only [checkLocation_eq h .entryPoint hfits, ok_bind, source_eq hline]
    cases d.checkLocation .entryPoint value with
    | ok entry => exact ⟨_, rfl, (h.setEntry (some entry)).leave _ _ _ _⟩
    | error error => exact ⟨_, rfl, h.report rfl .error error⟩

theorem exists_settleEntry (h : c.Reaches past lines d t) (hentry : t.entrySymbol = d.entrySymbol)
    (hlines : ∀ s ∈ d.entrySymbol, 0 < s.2) :
    ∃ c', settleEntry lines c = .ok c' ∧
      c'.Reaches past lines d.settleEntry { t with entrySymbol := none } := by
  unfold settleEntry
  rw [h.shows.entrySymbol, hentry]
  cases hsymbol : d.entrySymbol with
  | none =>
    obtain ⟨futures, patching, literals, entrySymbol, endLabel⟩ := t
    obtain rfl : entrySymbol = none := hentry.trans hsymbol
    unfold Draft.settleEntry
    rw [hsymbol]
    exact ⟨c, rfl, h⟩
  | some s =>
    exact exists_setEntryTo (h.setEntrySymbol none) s.1 hsymbol (hlines s hsymbol)

theorem exists_settleEndLabel (h : c.Reaches past lines d t) (hlabel : t.endLabel = d.endLabel)
    (hlines : ∀ s ∈ d.endLabel, 0 < s.2) :
    ∃ c', settleEndLabel lines c = .ok c' ∧
      c'.Reaches past lines d.settleEndLabel { t with endLabel := none } := by
  unfold settleEndLabel Draft.settleEndLabel
  rw [h.shows.endLabel, hlabel]
  cases hsymbol : d.endLabel with
  | none =>
    obtain ⟨futures, patching, literals, entrySymbol, endLabel⟩ := t
    obtain rfl : endLabel = none := hlabel.trans hsymbol
    exact ⟨c, rfl, h⟩
  | some s =>
    have htaken := h.setEndLabel none
    have hline : 0 < s.2 := hlines s hsymbol
    simp only [h.shows.location, integer_location h, ok_bind, source_eq hline]
    obtain ⟨error, hr, hdefine⟩ | ⟨d', c', hr, hdefine, hreaches⟩ :=
      (attains_define htaken (fits_location h)).cases
    · rw [hr, hdefine]
      exact ⟨_, rfl, htaken.report rfl .error error⟩
    · rw [hr, hdefine]
      exact ⟨c', rfl, hreaches⟩

end Settling

/-- The second pass goes through. What it works through is what the first pass left. -/
theorem exists_resolve (h : c.Draws lines d) (hwaits : d.Waits (0 < ·)) :
    ∃ c' past t, resolve lines c = .ok c' ∧ c'.Reaches past lines d.resolve t ∧
      c'.TakesAtOnce (d.futures.map Future.name) := by
  have huses : ∀ f ∈ d.futures, ∀ p ∈ f.first :: f.others, 0 < p.line := fun f hf p hp =>
    hwaits.uses (f.name, p) (List.mem_flatMap.mpr ⟨f, hf, List.mem_map_of_mem hp⟩)
  have hnames : (d.futures.map Future.name).Nodup :=
    order_futures h rfl ▸ (h.now.listed (h.shows.holds rfl).1).nodup
  have hsame := Draft.sameTasks_withUses d
  have hlabel := Draft.endLabel_settled d
  obtain ⟨c₁, hc₁, h₁⟩ := exists_allocateSymbols h (Draft.nodup_undefinedSymbols hnames)
    (fun _ => Draft.get?_of_mem_undefinedSymbols) hwaits.undefinedSymbols
  have h₁ : c₁.Reaches [] lines d.withSymbols
    ⟨d.futures, false, d.literals, d.entrySymbol, d.endLabel⟩ := h₁
  have hliterals : ∀ l ∈ d.literals, l.2.location < d.withSymbols.memory.size ∧ 0 < l.2.line := by
    intro l hl
    have hinside := h₁.now.literals
    rw [h₁.shows.literals, h₁.shows.memory] at hinside
    exact ⟨hinside l hl, hwaits.literals l hl⟩
  obtain ⟨c₂, hc₂, h₂⟩ := exists_placeLiterals (h₁.setLiterals (List.forall_mem_nil _)) hliterals
  have h₂ : c₂.Reaches [] lines d.withLiterals ⟨d.futures, false, [], d.entrySymbol, d.endLabel⟩ :=
    h₂
  obtain ⟨c₃, hc₃, h₃⟩ := exists_patchFutures (h₂.takeOrder rfl) rfl rfl huses
  rw [Draft.foldl_patchFuture d.withLiterals d.futures] at h₃
  have h₃ : c₃.Reaches _ lines d.withUses ⟨[], true, [], d.entrySymbol, d.endLabel⟩ := h₃
  obtain ⟨c₄, hc₄, h₄⟩ := exists_settleEntry h₃ hsame.entrySymbol.symm
    (hsame.entrySymbol ▸ hwaits.entrySymbol)
  have h₄ : c₄.Reaches _ lines d.withUses.settleEntry ⟨[], true, [], none, d.endLabel⟩ := h₄
  obtain ⟨c₅, hc₅, h₅⟩ := exists_settleEndLabel h₄ hlabel.symm (hlabel ▸ hwaits.endLabel)
  have htakes : c₅.TakesAtOnce (d.futures.map Future.name) := by
    obtain ⟨later, hmoments, hlater⟩ := h₅.since
    refine ⟨later, c₂.now.takeOrder, c₂.moments, hmoments, congrArg some (order_futures h₂ rfl),
      h₂.inHand_eq_none rfl, fun w hw => ?_⟩
    exact Option.isSome_iff_ne_none.mp (hlater w hw)
  refine ⟨c₅, _, _, ?_, (Draft.resolve_eq d).symm ▸ h₅, htakes⟩
  unfold resolve
  rw [undefinedSymbols_eq h, ok_bind, hc₁, ok_bind, h₁.shows.literals, hc₂, ok_bind,
    order_futures h₂ rfl, hc₃, ok_bind, hc₄, ok_bind, hc₅]

end MixComputer.Guarded
