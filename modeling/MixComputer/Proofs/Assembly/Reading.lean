import MixComputer.Proofs.Assembly.Emission

/-!
The first pass. Each line puts at most one word into memory, at its own location, and what that
word waits for is its own address; so the record of the emissions accounts for the draft after
any number of lines. The word of an instruction is made from the parts of its operand.
-/
namespace MixComputer.Assembly.Draft

open Source

/-- How the address part of an instruction enters its word: now, or when all lines are read. -/
inductive Assembles (d : Draft) (encode : Address → Word) (line : Nat) :
    AddressPart → Word × Pending → Prop
  | empty : Assembles d encode line .empty (encode Address.zero, .nothing)
  | waiting {e : Expression} {name : String} {negative : Bool}
      (h : d.openSymbol? e = some (name, negative)) :
      Assembles d encode line (.expression e)
        (encode ⟨negative, 0⟩, .symbol name ⟨d.location, negative, Field.address, line⟩)
  | known {e : Expression} {a : Address} (h : addressOf d.scope e = .ok a) :
      Assembles d encode line (.expression e) (encode a, .nothing)
  | literal {w : WValue} {v : Word} (h : d.scope.word w = .ok v) :
      Assembles d encode line (.literal w)
        (encode Address.zero, .literal v ⟨d.location, false, Field.address, line⟩)

theorem instructionWord_eq_ok {d : Draft} {op : Operation} {standard : Byte} {text : String}
    {line : Nat} {entry : Word × Pending}
    (h : d.instructionWord op standard text line = .ok entry) :
    ∃ operand index field, readOperand text = .ok operand ∧
      d.scope.indexOf operand.index = .ok index ∧
      d.scope.fieldPartOf standard operand.field = .ok field ∧
      d.Assembles (fun a => Instruction.encode ⟨op, index, field, a⟩) line operand.address
        entry := by
  obtain ⟨operand, hoperand, h⟩ := (bind_eq_ok_iff _ _ _).mp h
  obtain ⟨index, hindex, h⟩ := (bind_eq_ok_iff _ _ _).mp h
  obtain ⟨field, hfield, h⟩ := (bind_eq_ok_iff _ _ _).mp h
  refine ⟨operand, index, field, hoperand, hindex, hfield, ?_⟩
  obtain ⟨address, i, f⟩ := operand
  cases address with
  | empty =>
    cases h
    exact .empty
  | literal w =>
    obtain ⟨v, hv, h⟩ := (bind_eq_ok_iff _ _ _).mp h
    cases h
    exact .literal hv
  | expression e =>
    cases hopen : d.openSymbol? e with
    | some reference =>
      obtain ⟨name, negative⟩ := reference
      simp only [hopen] at h
      cases h
      exact .waiting hopen
    | none =>
      simp only [hopen] at h
      obtain ⟨a, ha, h⟩ := (bind_eq_ok_iff _ _ _).mp h
      cases h
      exact .known ha

theorem Assembles.patch {d : Draft} {encode : Address → Word} {line : Nat} {address : AddressPart}
    {entry : Word × Pending} (h : d.Assembles encode line address entry) :
    ∀ p, entry.2.patch? = some p → p.location = d.location ∧ p.line = line := by
  intro p hp
  cases h <;> simp only [Pending.patch?, Option.some.injEq, reduceCtorEq] at hp
  all_goals exact hp ▸ ⟨rfl, rfl⟩

theorem constantWord_patch {d : Draft} {operand : String} {line : Nat} {entry : Word × Pending}
    (h : d.constantWord operand line = .ok entry) :
    ∀ p, entry.2.patch? = some p → p.location = d.location ∧ p.line = line := by
  obtain ⟨w, -, h⟩ := (bind_eq_ok_iff _ _ _).mp h
  intro p hp
  cases hopen : (wholeExpression? w).bind d.openSymbol? with
  | some reference =>
    simp only [hopen] at h
    cases h
    cases hp
    exact ⟨rfl, rfl⟩
  | none =>
    simp only [hopen] at h
    obtain ⟨v, -, h⟩ := (bind_eq_ok_iff _ _ _).mp h
    cases h
    cases hp

theorem charactersWord_patch {rest : String} {entry : Word × Pending}
    (h : charactersWord rest = .ok entry) : entry.2.patch? = none := by
  obtain ⟨w, -, h⟩ := (bind_eq_ok_iff _ _ _).mp h
  cases h
  rfl

/-- What waits in the word of a line is at the location of the line, and has its number. -/
theorem lineWord_patch {d : Draft} {mnemonic : Mnemonic} {l : Line} {line : Nat}
    {entry : Word × Pending} (h : d.lineWord mnemonic l line = some entry) :
    ∀ p, entry.2.patch? = some p → p.location = d.location ∧ p.line = line := by
  have hok {x : Except Error (Word × Pending)} (hx : x.toOption = some entry) :
      x = .ok entry := by
    cases x with
    | error error => cases hx
    | ok a => exact congrArg Except.ok (Option.some.inj hx)
  cases mnemonic with
  | instruction op standard =>
    obtain ⟨_, _, _, _, _, _, hassembles⟩ := instructionWord_eq_ok (hok h)
    exact hassembles.patch
  | directive directive =>
    cases directive with
    | constant => exact constantWord_patch (hok h)
    | characters =>
      intro p hp
      rw [charactersWord_patch (hok h)] at hp
      cases hp
    | equate => cases h
    | origin => cases h
    | finish => cases h

section Step

variable {d d' : Draft}

/-- What holds before a change and after it holds also if the change fails. -/
theorem attempt_keeps {P : Draft → Prop} {r : Except Error Draft} (h : P d)
    (hr : ∀ d', r = .ok d' → P d') : P (d.attempt r).1 := by
  cases r with
  | ok d' => exact hr d' rfl
  | error error => exact h

theorem attemptBoth_keeps {P : Draft → Prop} {first : Except Error Draft}
    {second : Draft → Except Error Draft} (h : P d) (hfirst : ∀ d₁, first = .ok d₁ → P d₁)
    (hsecond : ∀ d₁ d₂, P d₁ → second d₁ = .ok d₂ → P d₂) :
    P (d.attemptBoth first second).1 := by
  cases first with
  | ok d₁ => exact attempt_keeps (hfirst d₁ rfl) fun d₂ => hsecond d₁ d₂ (hfirst d₁ rfl)
  | error error => exact h

theorem quiet_defineLabel {label : Option String} (h : d.defineLabel label = .ok d') :
    d.Quiet d' := by
  obtain ⟨symbols, hs, rfl⟩ := defineLabel_eq_ok h
  exact quiet_symbols d hs

theorem quiet_equate {label : Option String} {operand : String}
    (h : d.equate label operand = .ok d') : d.Quiet d' := by
  obtain ⟨w, -, h⟩ := (bind_eq_ok_iff _ _ _).mp h
  cases label with
  | none =>
    cases h
    exact Quiet.refl d
  | some name => exact quiet_define h

theorem quiet_moveOrigin {operand : String} (h : d.moveOrigin operand = .ok d') :
    d.Quiet d' := by
  obtain ⟨w, -, h⟩ := (bind_eq_ok_iff _ _ _).mp h
  obtain ⟨location, -, h⟩ := (bind_eq_ok_iff _ _ _).mp h
  cases h
  exact quiet_redirect d location d.entry d.entrySymbol d.endLabel

theorem deferLabel_eq_ok {label : Option String} {line : Nat}
    (h : d.deferLabel label line = .ok d') :
    ∃ endLabel, d' = { d with endLabel } := by
  cases label with
  | none =>
    cases h
    exact ⟨d.endLabel, rfl⟩
  | some name =>
    unfold deferLabel at h
    cases hname : d.symbols.get? name with
    | some old => simp [hname] at h
    | none =>
      simp only [hname] at h
      cases h
      exact ⟨_, rfl⟩

theorem quiet_deferLabel {label : Option String} {line : Nat}
    (h : d.deferLabel label line = .ok d') : d.Quiet d' := by
  obtain ⟨endLabel, rfl⟩ := deferLabel_eq_ok h
  exact quiet_redirect d d.location d.entry d.entrySymbol endLabel

/-- The entry is given by the operand, or by a symbol that is still to be defined. -/
theorem setEntry_eq_ok {operand : String} {line : Nat} (h : d.setEntry operand line = .ok d') :
    ∃ w, readWValue operand = .ok w ∧
      ((∃ name, (wholeExpression? w).bind d.openSymbol? = some (name, false) ∧
          d' = { d with entrySymbol := some (name, line) }) ∨
        ∃ v entry, d.scope.word w = .ok v ∧ d.checkLocation .entryPoint v.value = .ok entry ∧
          d' = { d with entry := some entry }) := by
  obtain ⟨w, hw, h⟩ := (bind_eq_ok_iff _ _ _).mp h
  refine ⟨w, hw, ?_⟩
  split at h
  · rename_i name hname
    cases h
    exact .inl ⟨name, hname, rfl⟩
  · obtain ⟨v, hv, h⟩ := (bind_eq_ok_iff _ _ _).mp h
    obtain ⟨entry, hentry, h⟩ := (bind_eq_ok_iff _ _ _).mp h
    cases h
    exact .inr ⟨v, entry, hv, hentry, rfl⟩

theorem quiet_setEntry {operand : String} {line : Nat}
    (h : d.setEntry operand line = .ok d') : d.Quiet d' := by
  obtain ⟨w, -, ⟨name, -, rfl⟩ | ⟨v, entry, -, -, rfl⟩⟩ := setEntry_eq_ok h
  · exact quiet_redirect d d.location d.entry (some (name, line)) d.endLabel
  · exact quiet_redirect d d.location (some entry) d.entrySymbol d.endLabel

/-- What all that a line may do keeps, obeying the line keeps. -/
theorem obey_keeps {P : Draft → Prop} {mnemonic : Mnemonic} {l : Line} {line : Nat} (h : P d)
    (hlabel : ∀ d', d.defineLabel l.label = .ok d' → P d')
    (hequate : ∀ d', d.equate l.label l.operand = .ok d' → P d')
    (horigin : ∀ d₁ d₂, P d₁ → d₁.moveOrigin l.operand = .ok d₂ → P d₂)
    (hput : ∀ d₁ d₂ entry, P d₁ → d₁.lineWord mnemonic l line = some entry →
      d₁.put entry = .ok d₂ → P d₂)
    (hdefer : ∀ d', d.deferLabel l.label line = .ok d' → P d')
    (hentry : ∀ d₁ d₂, P d₁ → d₁.setEntry l.operand line = .ok d₂ → P d₂) :
    P (d.obey mnemonic l line).1 := by
  have hword {word : Draft → Except Error (Word × Pending)}
      (hsame : ∀ d, d.lineWord mnemonic l line = (word d).toOption) :
      P (d.attemptBoth (d.defineLabel l.label) fun d => word d >>= d.put).1 := by
    refine attemptBoth_keeps h hlabel fun d₁ d₂ hd₁ hd₂ => ?_
    obtain ⟨entry, hword, hput'⟩ := (bind_eq_ok_iff _ _ _).mp hd₂
    exact hput d₁ d₂ entry hd₁ ((hsame d₁).trans (congrArg Except.toOption hword)) hput'
  cases mnemonic with
  | instruction op standard => exact hword fun _ => rfl
  | directive directive =>
    cases directive with
    | equate => exact attempt_keeps h hequate
    | origin => exact attemptBoth_keeps h hlabel horigin
    | constant => exact hword fun _ => rfl
    | characters => exact hword fun _ => rfl
    | finish => exact attemptBoth_keeps h hdefer hentry

/-- A line whose word is computed under its label and then put into memory. -/
theorem emits_word {mnemonic : Mnemonic} {l : Line} {line : Nat}
    {word : Draft → Except Error (Word × Pending)}
    (hword : ∀ d, d.lineWord mnemonic l line = (word d).toOption) :
    d.Emits (d.obeyEmissions mnemonic l line)
      (d.attemptBoth (d.defineLabel l.label) fun d => word d >>= d.put).1 := by
  unfold obeyEmissions
  cases hlabel : d.defineLabel l.label with
  | error error => exact .nothing (Quiet.refl d)
  | ok d₁ =>
    have hsame := quiet_defineLabel hlabel
    have hlocation : d₁.location = d.location := by
      obtain ⟨symbols, -, rfl⟩ := defineLabel_eq_ok hlabel
      rfl
    simp only [hword, attemptBoth]
    cases hentry : word d₁ with
    | error error => exact .nothing hsame
    | ok entry =>
      have hpatch := lineWord_patch ((hword d₁).trans (congrArg Except.toOption hentry))
      change d.Emits (d₁.emissionHere entry) (d₁.attempt (d₁.put entry)).1
      unfold emissionHere
      cases hput : d₁.put entry with
      | ok d₂ =>
        rw [if_pos (put_eq_ok_iff.mp hput).1, hlocation]
        rw [hlocation] at hpatch
        exact .word hsame hlocation hput (fun p hp => (hpatch p hp).1) (Quiet.refl d₂)
      | error error =>
        have hlt : ¬ d₁.location < d₁.memory.size := by
          intro hlt
          rw [put_eq_ok_iff.mpr ⟨hlt, rfl⟩] at hput
          cases hput
        rw [if_neg hlt]
        exact .nothing hsame

theorem emits_obey (d : Draft) (mnemonic : Mnemonic) (l : Line) (line : Nat) :
    d.Emits (d.obeyEmissions mnemonic l line) (d.obey mnemonic l line).1 := by
  have hquiet (hnone : ∀ d : Draft, d.lineWord mnemonic l line = none) :
      d.obeyEmissions mnemonic l line = [] := by
    unfold obeyEmissions
    cases d.defineLabel l.label with
    | error error => rfl
    | ok d' => simp [hnone]
  cases mnemonic with
  | instruction op standard => exact emits_word fun _ => rfl
  | directive directive =>
    cases directive with
    | constant => exact emits_word fun _ => rfl
    | characters => exact emits_word fun _ => rfl
    | equate =>
      rw [hquiet fun _ => rfl]
      exact .nothing (attempt_keeps (Quiet.refl d) fun _ => quiet_equate)
    | origin =>
      rw [hquiet fun _ => rfl]
      refine .nothing (attemptBoth_keeps (Quiet.refl d) (fun _ => quiet_defineLabel) ?_)
      intro d₁ d₂ hd₁ hd₂
      exact hd₁.trans (quiet_moveOrigin hd₂)
    | finish =>
      rw [hquiet fun _ => rfl]
      refine .nothing (attemptBoth_keeps (Quiet.refl d) (fun _ => quiet_deferLabel) ?_)
      intro d₁ d₂ hd₁ hd₂
      exact hd₁.trans (quiet_setEntry hd₂)

/-- What taking a line can do: pass over a comment, report a line that cannot be split, obey a
line, or report an error that came up while it was obeyed. -/
inductive Takes (d : Draft) (text : String) (line : Nat) : Draft × Bool → Prop
  | comment (hcomment : isComment text = true) : Takes d text line (d, false)
  | malformed {error : Error} (hcomment : isComment text = false)
      (hparse : parseLine text = .error error) :
      Takes d text line (d.report line .error error, false)
  | obeyed {l : Line} {mnemonic : Mnemonic} {d' : Draft} (hcomment : isComment text = false)
      (hparse : parseLine text = .ok (l, mnemonic))
      (hobey : d.obey mnemonic l line = (d', .ok ())) :
      Takes d text line (d', mnemonic == .directive .finish)
  | refused {l : Line} {mnemonic : Mnemonic} {d' : Draft} {error : Error}
      (hcomment : isComment text = false) (hparse : parseLine text = .ok (l, mnemonic))
      (hobey : d.obey mnemonic l line = (d', .error error)) :
      Takes d text line (d'.report line .error error, false)

/-- A line that is obeyed leaves what obeying it leaves. -/
theorem takeLine_of_obey {text : String} {l : Line} {mnemonic : Mnemonic} {line : Nat}
    (hcomment : isComment text = false) (hparse : parseLine text = .ok (l, mnemonic))
    (hobey : d.obey mnemonic l line = (d', .ok ())) :
    d.takeLine text line = (d', mnemonic == .directive .finish) := by
  simp only [takeLine, hcomment, Bool.false_eq_true, if_false, readLine, hparse, hobey]

theorem takes_takeLine (d : Draft) (text : String) (line : Nat) :
    d.Takes text line (d.takeLine text line) := by
  cases hcomment : isComment text with
  | true =>
    simp only [takeLine, hcomment, if_true]
    exact .comment hcomment
  | false =>
    cases hparse : parseLine text with
    | error error =>
      simp only [takeLine, hcomment, Bool.false_eq_true, if_false, readLine, hparse]
      exact .malformed hcomment hparse
    | ok parsed =>
      obtain ⟨l, mnemonic⟩ := parsed
      cases hobey : d.obey mnemonic l line with
      | mk d' result =>
        cases result with
        | ok done =>
          rw [takeLine_of_obey hcomment hparse hobey]
          exact .obeyed hcomment hparse hobey
        | error error =>
          simp only [takeLine, hcomment, Bool.false_eq_true, if_false, readLine, hparse, hobey]
          exact .refused hcomment hparse hobey

/-- What a report and every line that can be split keep, taking a line keeps. -/
theorem takeLine_keeps {P : Draft → Prop} {text : String} {line : Nat} (h : P d)
    (hreport : ∀ (d : Draft) (error : Error), P d → P (d.report line .error error))
    (hobey : ∀ l mnemonic, parseLine text = .ok (l, mnemonic) → P (d.obey mnemonic l line).1) :
    P (d.takeLine text line).1 := by
  have htakes := takes_takeLine d text line
  generalize d.takeLine text line = taken at htakes
  cases htakes with
  | comment hcomment => exact h
  | malformed hcomment hparse => exact hreport _ _ h
  | @obeyed l mnemonic d' hcomment hparse hobeyed =>
    have hkept := hobey l mnemonic hparse
    rwa [hobeyed] at hkept
  | @refused l mnemonic d' error hcomment hparse hobeyed =>
    have hkept := hobey l mnemonic hparse
    rw [hobeyed] at hkept
    exact hreport _ _ hkept

theorem emits_takeLine (d : Draft) (text : String) (line : Nat) :
    d.Emits (d.lineEmissions text line) (d.takeLine text line).1 := by
  have htakes := takes_takeLine d text line
  unfold lineEmissions
  generalize d.takeLine text line = taken at htakes
  cases htakes with
  | comment hcomment =>
    rw [if_pos hcomment]
    exact .nothing (Quiet.refl d)
  | @malformed error hcomment hparse =>
    simp only [hcomment, Bool.false_eq_true, if_false, hparse]
    exact .nothing (quiet_report d line .error error)
  | @obeyed l mnemonic d' hcomment hparse hobey =>
    have hemits := emits_obey d mnemonic l line
    rw [hobey] at hemits
    simp only [hcomment, Bool.false_eq_true, if_false, hparse]
    exact hemits
  | @refused l mnemonic d' error hcomment hparse hobey =>
    have hemits := emits_obey d mnemonic l line
    rw [hobey] at hemits
    simp only [hcomment, Bool.false_eq_true, if_false, hparse]
    exact hemits.congr (quiet_report d' line .error error)

/-- What the entries for every line keep of a draft and its record, the entries for all lines
keep. -/
theorem readEmissions_induction {P : Draft → List Emission → Prop}
    (hstep : ∀ (d : Draft) (es : List Emission) (text : String) (line : Nat), P d es →
      P (d.takeLine text line).1 (es ++ d.lineEmissions text line))
    {es : List Emission} (line : Nat) (texts : List String) (h : P d es) :
    P (d.readLines line texts) (es ++ d.readEmissions line texts) := by
  induction texts generalizing d line es with
  | nil => simpa [Draft.readLines, readEmissions] using h
  | cons text rest ih =>
    have hnext := hstep d es text line h
    unfold Draft.readLines readEmissions
    rw [← List.append_assoc]
    cases htake : d.takeLine text line with
    | mk d' last =>
      rw [htake] at hnext
      cases last with
      | true => simpa using hnext
      | false => exact ih (line + 1) hnext

/-- The record of the emissions accounts for the draft after any number of lines. -/
theorem Accounts.readLines {initial : Memory} {es : List Emission} (h : d.Accounts initial es)
    (line : Nat) (texts : List String) :
    (d.readLines line texts).Accounts initial (es ++ d.readEmissions line texts) :=
  readEmissions_induction (P := fun d es => d.Accounts initial es)
    (fun d _ text line h => h.emits (emits_takeLine d text line)) line texts h

/-- What every line keeps, reading keeps. -/
theorem readLines_induction {P : Draft → Prop}
    (hstep : ∀ (d : Draft) (text : String) (line : Nat), P d → P (d.takeLine text line).1)
    (line : Nat) (texts : List String) (h : P d) : P (d.readLines line texts) := by
  induction texts generalizing d line with
  | nil => exact h
  | cons text rest ih =>
    have hnext := hstep d text line h
    unfold Draft.readLines
    cases htake : d.takeLine text line with
    | mk d' last =>
      rw [htake] at hnext
      cases last with
      | true => exact hnext
      | false => exact ih (line + 1) hnext

theorem leads_readLines (d : Draft) (line : Nat) (texts : List String) :
    d.Leads (d.readLines line texts) :=
  readLines_induction (P := d.Leads)
    (fun d' text line h => h.trans (emits_takeLine d' text line).leads) line texts (Leads.refl d)

/-- Reading goes on from a line as from the start. -/
theorem draftAt?_eq_some {line k : Nat} {texts : List String}
    (h : d.draftAt? line texts k = some d') :
    d.readLines line texts = d'.readLines (line + k) (texts.drop k) ∧
      ∃ before, d.readEmissions line texts =
        before ++ d'.readEmissions (line + k) (texts.drop k) := by
  induction k generalizing d line texts with
  | zero =>
    cases h
    exact ⟨rfl, [], rfl⟩
  | succ k ih =>
    cases texts with
    | nil => cases h
    | cons text rest =>
      unfold draftAt? at h
      cases htake : d.takeLine text line with
      | mk d₁ last =>
        simp only [htake] at h
        cases last with
        | true => cases h
        | false =>
          obtain ⟨hread, before, hbefore⟩ := ih h
          simp only [Draft.readLines, readEmissions, htake, List.drop_succ_cons]
          rw [show line + (k + 1) = line + 1 + k by omega, ← hread]
          refine ⟨rfl, d.lineEmissions text line ++ before, ?_⟩
          rw [List.append_assoc, ← hbefore]

theorem drop_of_getElem? {texts : List String} {k : Nat} {text : String}
    (h : texts[k]? = some text) : texts.drop k = text :: texts.drop (k + 1) := by
  obtain ⟨hk, rfl⟩ := List.getElem?_eq_some_iff.mp h
  exact List.drop_eq_getElem_cons hk

/-- The entry for a line is in the record of all lines. -/
theorem lineEmissions_subset {line k : Nat} {texts : List String} {text : String}
    (h : d.draftAt? line texts k = some d') (htext : texts[k]? = some text) :
    d'.lineEmissions text (line + k) ⊆ d.readEmissions line texts := by
  obtain ⟨-, before, hbefore⟩ := draftAt?_eq_some h
  rw [hbefore, drop_of_getElem? htext]
  intro e he
  exact List.mem_append_right before (List.mem_append_left _ he)

/-- The draft after a line comes before the draft after all lines. -/
theorem leads_of_draftAt? {line k : Nat} {texts : List String} {text : String}
    (h : d.draftAt? line texts k = some d') (htext : texts[k]? = some text) :
    (d'.takeLine text (line + k)).1.Leads (d.readLines line texts) := by
  rw [(draftAt?_eq_some h).1, drop_of_getElem? htext]
  unfold Draft.readLines
  cases htake : d'.takeLine text (line + k) with
  | mk d₁ last =>
    cases last with
    | true => exact Leads.refl d₁
    | false => exact leads_readLines d₁ (line + k + 1) (texts.drop (k + 1))

theorem accounts_start (size : Nat) : (start size).Accounts (Memory.blank size) [] :=
  ⟨rfl, rfl, List.Perm.refl _, fun _ he => absurd he List.not_mem_nil⟩

theorem accounts_readLines (size : Nat) (texts : List String) :
    ((start size).readLines 1 texts).Accounts (Memory.blank size)
      ((start size).readEmissions 1 texts) := by
  simpa using (accounts_start size).readLines 1 texts

end Step

end MixComputer.Assembly.Draft
