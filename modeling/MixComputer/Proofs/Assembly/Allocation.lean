import MixComputer.Proofs.Assembly.Resolution

/-!
The words that are inserted when all lines have been read. The uses of a symbol are collected in
one place, so no symbol is undefined twice, and the undefined symbols name consecutive words from
the location counter on, as far as memory has room. The words of literals come after them.
-/
namespace MixComputer.Assembly.Draft

open Source

section Names

theorem mem_name_addFuture {name other : String} {patch : Patch} {futures : List Future}
    (h : other ∈ (addFuture name patch futures).map Future.name) :
    other = name ∨ other ∈ futures.map Future.name := by
  induction futures with
  | nil => exact .inl (List.mem_singleton.mp h)
  | cons f futures ih =>
    unfold addFuture at h
    by_cases hf : f.name = name
    · rw [if_pos hf] at h
      exact .inr h
    · rw [if_neg hf] at h
      rcases List.mem_cons.mp h with rfl | htail
      · exact .inr List.mem_cons_self
      · exact (ih htail).imp_right (List.mem_cons_of_mem f.name)

theorem nodup_name_addFuture (name : String) (patch : Patch) {futures : List Future}
    (h : (futures.map Future.name).Nodup) :
    ((addFuture name patch futures).map Future.name).Nodup := by
  induction futures with
  | nil => exact List.nodup_singleton name
  | cons f futures ih =>
    obtain ⟨hnew, hrest⟩ := List.nodup_cons.mp h
    unfold addFuture
    by_cases hf : f.name = name
    · rw [if_pos hf]
      exact h
    · rw [if_neg hf]
      refine List.nodup_cons.mpr ⟨fun hmem => ?_, ih hrest⟩
      rcases mem_name_addFuture hmem with heq | hold
      · exact hf heq
      · exact hnew hold

variable {d d' : Draft}

theorem nodup_name_await (pending : Pending) (h : (d.futures.map Future.name).Nodup) :
    ((d.await pending).futures.map Future.name).Nodup := by
  cases pending with
  | nothing => exact h
  | literal w patch => exact h
  | symbol name patch => exact nodup_name_addFuture name patch h

theorem Emits.nodup_name {new : List Emission} (h : d.Emits new d')
    (hd : (d.futures.map Future.name).Nodup) : (d'.futures.map Future.name).Nodup := by
  cases h with
  | nothing h =>
    rw [h.futures]
    exact hd
  | @word d₁ d₂ _ entry h hlocation hput hpatch h' =>
    obtain ⟨-, rfl⟩ := put_eq_ok_iff.mp hput
    rw [h'.futures]
    refine nodup_name_await entry.2 ?_
    change (d₁.futures.map Future.name).Nodup
    rw [h.futures]
    exact hd

/-- Each symbol has its uses collected in one place. -/
theorem nodup_name_readLines (size : Nat) (texts : List String) :
    (((start size).readLines 1 texts).futures.map Future.name).Nodup :=
  readLines_induction (P := fun d => (d.futures.map Future.name).Nodup)
    (fun d text line h => (emits_takeLine d text line).nodup_name h) 1 texts List.nodup_nil

/-- So no symbol is undefined twice. -/
theorem nodup_undefinedSymbols (h : (d.futures.map Future.name).Nodup) :
    (d.undefinedSymbols.map Prod.fst).Nodup := by
  have hused : (((d.futures.filter fun f => !d.symbols.contains f.name).map fun f =>
      (f.name, f.first.line)).map Prod.fst).Nodup := by
    rw [List.map_map]
    exact h.sublist (List.filter_sublist.map Future.name)
  unfold undefinedSymbols
  simp only
  split
  · split
    · exact hused
    · rename_i name line _ hnew
      rw [List.map_append]
      refine List.nodup_append.mpr ⟨hused, List.nodup_singleton name, fun a ha b hb => ?_⟩
      rw [List.mem_singleton.mp hb]
      rintro rfl
      obtain ⟨u, hu, rfl⟩ := List.mem_map.mp ha
      exact hnew (Bool.or_eq_true_iff.mpr (.inr (List.any_eq_true.mpr ⟨u, hu, beq_self_eq_true _⟩)))
  · exact hused

theorem get?_of_mem_undefinedSymbols {u : String × Nat} (hu : u ∈ d.undefinedSymbols) :
    d.symbols.get? u.1 = none := by
  simpa [SymbolTable.contains] using (mem_undefinedSymbols hu).1

end Names

section Allocation

variable {d : Draft} {us : List (String × Nat)} {u : String × Nat}

/-- A symbol without a value gets a word if there is room. -/
theorem allocateSymbol_of_room {name : String} (line : Nat) (hnone : d.symbols.get? name = none)
    (hroom : d.location < d.memory.size) :
    ∃ symbols, d.symbols.insert name d.location = .ok symbols ∧
      d.allocateSymbol name line =
        { d with
          memory := d.memory.write d.location Word.zero
          location := d.location + 1
          symbols := symbols : Draft }.report line .warning (.undefinedSymbol name d.location) := by
  have hinsert : d.symbols.insert name d.location =
      .ok ⟨d.symbols.entries ++ [(name, (d.location : Int))]⟩ :=
    (SymbolTable.insert_eq_ok_iff _ _ _ _).mpr ⟨hnone, rfl⟩
  have hboth : d.emit Word.zero >>= (·.define name d.location) = .ok
      { d with
        memory := d.memory.write d.location Word.zero
        location := d.location + 1
        symbols := ⟨d.symbols.entries ++ [(name, (d.location : Int))]⟩ } :=
    (bind_eq_ok_iff _ _ _).mpr ⟨_, emit_eq_ok_iff.mpr ⟨hroom, rfl⟩,
      define_eq_ok_iff.mpr ⟨_, hinsert, rfl⟩⟩
  refine ⟨_, hinsert, ?_⟩
  unfold allocateSymbol
  rw [hboth]

theorem allocateSymbol_of_full (name : String) (line : Nat) (hfull : d.memory.size ≤ d.location) :
    d.allocateSymbol name line = d.report line .error (.outOfRange .location d.location) := by
  have hemit : d.emit Word.zero = .error (.outOfRange .location d.location) := by
    unfold emit
    rw [if_neg (Nat.not_lt.mpr hfull)]
  unfold allocateSymbol
  rw [hemit]
  rfl

theorem location_le_allocateSymbol (d : Draft) (u : String × Nat) :
    d.location ≤ (d.allocateSymbol u.1 u.2).location := by
  obtain ⟨error, h⟩ | ⟨-, symbols, -, h⟩ := allocateSymbol_cases d u.1 u.2
  · rw [h]
    exact Nat.le_refl _
  · rw [h]
    exact Nat.le_succ _

theorem location_le_foldl_allocateSymbol (us : List (String × Nat)) (d : Draft) :
    d.location ≤ (us.foldl (fun d u => d.allocateSymbol u.1 u.2) d).location :=
  List.foldlRecOn (motive := fun d' : Draft => d.location ≤ d'.location) us
    (fun d u => d.allocateSymbol u.1 u.2) (Nat.le_refl _)
    fun d' h u _ => Nat.le_trans h (location_le_allocateSymbol d' u)

/-- Other symbols keep their values, and those without a value have none. -/
theorem get?_allocateSymbol_ne {name : String} (h : name ≠ u.1) :
    (d.allocateSymbol u.1 u.2).symbols.get? name = d.symbols.get? name := by
  obtain ⟨error, heq⟩ | ⟨-, symbols, hs, heq⟩ := allocateSymbol_cases d u.1 u.2
  · rw [heq]
    rfl
  · rw [heq]
    exact SymbolTable.get?_insert_ne hs h

theorem get?_foldl_allocateSymbol_ne {name : String} (h : name ∉ us.map Prod.fst) :
    (us.foldl (fun d u => d.allocateSymbol u.1 u.2) d).symbols.get? name =
      d.symbols.get? name := by
  induction us generalizing d with
  | nil => rfl
  | cons u us ih =>
    obtain ⟨hne, hrest⟩ := not_or.mp (mt List.mem_cons.mpr h)
    rw [List.foldl_cons, ih hrest]
    exact get?_allocateSymbol_ne hne

/-- The undefined symbols name consecutive words, as far as there is room. -/
theorem foldl_allocateSymbol_of_room (hnodup : (us.map Prod.fst).Nodup)
    (hnone : ∀ u ∈ us, d.symbols.get? u.1 = none) {i : Nat} (hi : us[i]? = some u)
    (hroom : d.location + i < d.memory.size) :
    (us.foldl (fun d u => d.allocateSymbol u.1 u.2) d).symbols.get? u.1 =
        some ((d.location + i : Nat) : Int) ∧
      ⟨u.2, .warning, .undefinedSymbol u.1 (d.location + i)⟩ ∈
        (us.foldl (fun d u => d.allocateSymbol u.1 u.2) d).reports ∧
      d.location + i < (us.foldl (fun d u => d.allocateSymbol u.1 u.2) d).location := by
  induction us generalizing d i with
  | nil => cases hi
  | cons first us ih =>
    obtain ⟨hnew, hnodup⟩ := List.nodup_cons.mp hnodup
    obtain ⟨symbols, hs, h⟩ := allocateSymbol_of_room first.2
      (hnone first List.mem_cons_self) (by omega)
    rw [List.foldl_cons]
    cases i with
    | zero =>
      obtain rfl : first = u := Option.some.inj hi
      have hrest := leads_foldl leads_allocateSymbol us (d.allocateSymbol first.1 first.2)
      refine ⟨hrest.symbols.get? ?_, hrest.reports.subset ?_, ?_⟩
      · rw [h]
        exact SymbolTable.get?_insert hs
      · rw [h]
        exact List.mem_append_right _ (List.mem_singleton.mpr rfl)
      · refine Nat.lt_of_lt_of_le ?_ (location_le_foldl_allocateSymbol us _)
        rw [h]
        exact Nat.lt_succ_self _
    | succ i =>
      have hlocation : (d.allocateSymbol first.1 first.2).location = d.location + 1 := by
        rw [h]
        rfl
      have hsize := (leads_allocateSymbol d first).size
      have hstep := ih (d := d.allocateSymbol first.1 first.2) hnodup ?_ hi (by omega)
      · rwa [hlocation, show d.location + 1 + i = d.location + (i + 1) by omega] at hstep
      · intro u' hu'
        rw [get?_allocateSymbol_ne, hnone u' (List.mem_cons_of_mem first hu')]
        exact fun heq => hnew (heq ▸ List.mem_map_of_mem hu')

/-- The others stay undefined, which is an error. -/
theorem foldl_allocateSymbol_of_full (hnodup : (us.map Prod.fst).Nodup)
    (hnone : ∀ u ∈ us, d.symbols.get? u.1 = none) {i : Nat} (hi : us[i]? = some u)
    (hfull : d.memory.size ≤ d.location + i) :
    (us.foldl (fun d u => d.allocateSymbol u.1 u.2) d).symbols.get? u.1 = none ∧
      ⟨u.2, .error, .outOfRange .location (max d.location d.memory.size : Nat)⟩ ∈
        (us.foldl (fun d u => d.allocateSymbol u.1 u.2) d).reports := by
  induction us generalizing d i with
  | nil => cases hi
  | cons first us ih =>
    obtain ⟨hnew, hnodup⟩ := List.nodup_cons.mp hnodup
    have hnone' : ∀ u' ∈ us, (d.allocateSymbol first.1 first.2).symbols.get? u'.1 = none := by
      intro u' hu'
      rw [get?_allocateSymbol_ne, hnone u' (List.mem_cons_of_mem first hu')]
      exact fun heq => hnew (heq ▸ List.mem_map_of_mem hu')
    have hsize := (leads_allocateSymbol d first).size
    rw [List.foldl_cons]
    cases i with
    | zero =>
      obtain rfl : first = u := Option.some.inj hi
      have h := allocateSymbol_of_full first.1 first.2 (d := d) (by omega)
      have hrest := leads_foldl leads_allocateSymbol us (d.allocateSymbol first.1 first.2)
      refine ⟨?_, hrest.reports.subset ?_⟩
      · rw [get?_foldl_allocateSymbol_ne hnew, h]
        exact hnone first List.mem_cons_self
      · rw [h, show max d.location d.memory.size = d.location by omega]
        exact List.mem_append_right _ (List.mem_singleton.mpr rfl)
    | succ i =>
      -- One word more, or none because there was no room: either way there is none for this one.
      have hlocation : (d.allocateSymbol first.1 first.2).location = d.location + 1 ∧
            d.location < d.memory.size ∨
          (d.allocateSymbol first.1 first.2).location = d.location ∧
            d.memory.size ≤ d.location := by
        by_cases hroom : d.location < d.memory.size
        · obtain ⟨symbols, -, h⟩ := allocateSymbol_of_room first.2
            (hnone first List.mem_cons_self) hroom
          refine .inl ⟨?_, hroom⟩
          rw [h]
          rfl
        · have h := allocateSymbol_of_full first.1 first.2 (Nat.not_lt.mp hroom)
          refine .inr ⟨?_, Nat.not_lt.mp hroom⟩
          rw [h]
          rfl
      have hstep := ih hnodup hnone' hi (by omega)
      rwa [hsize, show max (d.allocateSymbol first.1 first.2).location d.memory.size =
        max d.location d.memory.size by omega] at hstep

end Allocation

section Location

theorem location_applyPatch (d : Draft) (patch : Patch) (value : Int) :
    (d.applyPatch patch value).location = d.location := by
  rw [applyPatch_eq]
  split <;> rfl

theorem location_le_placeLiteral (d : Draft) (l : Word × Patch) :
    d.location ≤ (d.placeLiteral l.1 l.2).location := by
  obtain ⟨error, h⟩ | ⟨-, h⟩ := placeLiteral_cases d l.1 l.2
  · rw [h]
    exact Nat.le_refl _
  · rw [h, location_applyPatch]
    exact Nat.le_succ _

theorem location_patchUse (d : Draft) (u : String × Patch) :
    (d.patchUse u).location = d.location := by
  unfold patchUse
  split
  · exact location_applyPatch _ _ _
  · rfl

theorem location_settled (d : Draft) :
    d.settleEntry.settleEndLabel.location = d.location := by
  obtain ⟨entry, reports, -, hentry⟩ := settleEntry_eq d
  obtain ⟨symbols, reports', -, -, hlabel⟩ := settleEndLabel_eq d.settleEntry
  rw [hlabel, hentry]

theorem location_withUses (d : Draft) : d.withUses.location = d.withLiterals.location :=
  List.foldlRecOn (motive := fun d' : Draft => d'.location = d.withLiterals.location)
    (uses d.futures) patchUse rfl fun d' h u _ => (location_patchUse d' u).trans h

/-- The words of literals come after those of symbols, and no other word is inserted. -/
theorem location_withSymbols_le (d : Draft) : d.withSymbols.location ≤ d.resolve.location := by
  rw [resolve_eq, location_settled, location_withUses]
  exact List.foldlRecOn (motive := fun d' : Draft => d.withSymbols.location ≤ d'.location)
    d.literals (fun d l => d.placeLiteral l.1 l.2) (Nat.le_refl _)
    fun d' h l _ => Nat.le_trans h (location_le_placeLiteral d' l)

end Location

end MixComputer.Assembly.Draft
