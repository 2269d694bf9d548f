import MixComputer.Proofs.Guarded.Resolution

/-!
Assembly in numbers of fixed width. It goes through without a trap, whatever the text is, and has
the product that it has in numbers of any size. The workspace is sound all the time.
-/
namespace MixComputer.Guarded

open Assembly Source

def Course.product (c : Course) : Guarded Assembly := do
  return {
    memory := c.now.memory
    symbols := ⟨← c.now.symbols.entries⟩
    entry := c.now.entry
    diagnostics := c.now.diagnostics }

def assemble (size : Nat) (text : String) : Guarded (Assembly × Course) := do
  let c ← readLines (Course.start size) 1 (Text.lines text)
  let c ← resolve (Text.lines text) c
  return (← c.product, c)

/-- The course of assembly, which comes to the draft of the whole program. -/
theorem exists_assemble (text : String) {size : Nat} (hsize : size < 0x40000000) :
    ∃ c past t, assemble size text = .ok (MixComputer.assemble size text, c) ∧
      c.Reaches past (Text.lines text) (Draft.ofLines size (Text.lines text)) t ∧
      c.TakesAtOnce
        (((Draft.start size).readLines 1 (Text.lines text)).futures.map Future.name) := by
  have hwaits : ((Draft.start size).readLines 1 (Text.lines text)).Waits (0 < ·) :=
    Draft.waits_readLines (Draft.waits_start _ size) (fun _ hj => hj) (Text.lines text)
  obtain ⟨c, hread, hdraws⟩ : ∃ c, readLines (Course.start size) 1 (Text.lines text) = .ok c ∧
      c.Draws (Text.lines text) ((Draft.start size).readLines 1 (Text.lines text)) :=
    exists_readLines (reaches_start (Text.lines text) hsize) List.drop_zero
  obtain ⟨c', past, t, hresolve, hreaches, htakes⟩ := exists_resolve hdraws hwaits
  have hproduct : c'.product = .ok (MixComputer.assemble size text) := by
    unfold Course.product
    rw [hreaches.shows.symbols.entries hreaches.now.symbols.nodup, ok_bind, hreaches.shows.memory,
      hreaches.shows.entry, hreaches.shows.diagnostics]
    rfl
  refine ⟨c', past, t, ?_, hreaches, htakes⟩
  unfold assemble
  rw [hread, ok_bind, hresolve, ok_bind, hproduct, ok_bind]
  rfl

/-- No text makes assembly trap, and at every moment the workspace is sound. The last loop takes
all symbols at once that the first pass has left waiting. -/
theorem assemble_guarded (text : String) {size : Nat} (hsize : size < 0x40000000) :
    ∃ c, assemble size text = .ok (MixComputer.assemble size text, c) ∧
      (∀ w ∈ c.moments, w.Sound) ∧
      c.TakesAtOnce
        (((Draft.start size).readLines 1 (Text.lines text)).futures.map Future.name) := by
  obtain ⟨c, past, t, hassemble, hreaches, htakes⟩ := exists_assemble text hsize
  exact ⟨c, hassemble, hreaches.sound, htakes⟩

/-- A blank of three bytes, a symbol with a value and one without, each used before, a literal, a
fraction, and a label for the last line. -/
def wideBlank : String := "A\u2003LDA X\n ADD =5=\n STA -Y\nX CON 1//2\nL END A"

theorem assemble_guarded_wideBlank :
    8 < 0x40000000 ∧
      (∃ c, assemble 8 wideBlank = .ok (MixComputer.assemble 8 wideBlank, c) ∧
        (∀ w ∈ c.moments, w.Sound) ∧ c.TakesAtOnce ["X", "Y"]) ∧
      (MixComputer.assemble 8 wideBlank).succeeded = true ∧
      (MixComputer.assemble 8 wideBlank).symbols.entries =
        [("A", 0), ("X", 3), ("Y", 4), ("L", 6)] ∧
      (MixComputer.assemble 8 wideBlank).entry = some 0 :=
  ⟨by decide, assemble_guarded wideBlank (by decide), by decide +kernel, by decide +kernel,
    by decide +kernel⟩

/-- The order is empty while a symbol is still waited for, so it does not always list those that
are. -/
theorem order_emptied_before_patching :
    ∃ c, assemble 4 " LDA X\nX HLT" = .ok (MixComputer.assemble 4 " LDA X\nX HLT", c) ∧
      ∃ w ∈ c.moments, w.futures.order = [] ∧ "X" ∈ w.futures.values ∧ ¬ w.futures.Listed := by
  obtain ⟨c, past, t, hassemble, hreaches, htakes⟩ :=
    exists_assemble " LDA X\nX HLT" (show 4 < 0x40000000 by decide)
  obtain ⟨later, w, earlier, hmoments, hhand, -, -⟩ := htakes
  have hnames : ((Draft.start 4).readLines 1 (Text.lines " LDA X\nX HLT")).futures.map
      Future.name = ["X"] := by decide +kernel
  rw [hnames] at hhand
  have hw : w ∈ c.moments := hmoments ▸ List.mem_append_right later List.mem_cons_self
  have hsound := hreaches.sound w hw
  have horder : w.futures.order = [] := hsound.emptied (hhand ▸ Option.some_ne_none _)
  have hX : "X" ∈ w.futures.values := by
    have hawaited : w.awaited = ["X"] := congrArg (Option.getD · w.futures.order) hhand
    rw [← hsound.futures.mem, hawaited]
    exact List.mem_cons_self
  refine ⟨c, hassemble, w, hw, horder, hX, fun hlisted => ?_⟩
  have hlost := (hlisted.mem "X").mpr hX
  rw [horder] at hlost
  exact absurd hlost List.not_mem_nil

end MixComputer.Guarded
