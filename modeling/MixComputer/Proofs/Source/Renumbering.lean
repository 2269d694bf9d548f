import MixComputer.Proofs.Source.Proper

/-!
Other numbers in a text. A run of digits that stands for a number gives way to another run of
digits, which may be shorter or longer. The grammar does not mind: what was written with the first
number is now written with the second, and nothing else about it is different.
-/
namespace MixComputer.Source

section Texts

variable {cs ds es run before after : List Char}

theorem marks_of_all (h : cs.all (fun c => !c.isAlphanum) = true) :
    ∀ c ∈ cs, c.isAlphanum = false := by
  intro c hc
  have hmark := List.all_eq_true.mp h c hc
  rwa [Bool.not_eq_true'] at hmark

/-- There is no run of letters and digits in a text that has none. -/
theorem IsRun.not_marks (h : IsRun cs run before after) : ¬ ∀ c ∈ cs, c.isAlphanum = false := by
  intro hcs
  obtain ⟨c, hc⟩ := List.exists_mem_of_ne_nil run h.nonempty
  have hmem : c ∈ cs := by
    rw [h.eq]
    exact List.mem_append_right _ (List.mem_append_left _ hc)
  exact absurd ((h.letters c hc).symm.trans (hcs c hmem)) (by decide)

/-- The only run in a text of letters and digits is the text. -/
theorem IsRun.eq_of_letters (h : IsRun cs run before after)
    (hcs : ∀ c ∈ cs, c.isAlphanum = true) : before = [] ∧ cs = run ∧ after = [] := by
  have hparts := hcs
  rw [h.eq] at hparts
  simp only [List.forall_mem_append] at hparts
  obtain ⟨hbefore, -, hafter⟩ := hparts
  have hnothing : before = [] := by
    refine List.getLast?_eq_none_iff.mp (Option.eq_none_iff_forall_not_mem.mpr fun c hc => ?_)
    exact absurd ((h.left c hc).symm.trans (hbefore c (List.mem_of_mem_getLast? hc))) (by decide)
  have hnothing' : after = [] := by
    refine List.head?_eq_none_iff.mp (Option.eq_none_iff_forall_not_mem.mpr fun c hc => ?_)
    exact absurd ((h.right c hc).symm.trans (hafter c (List.mem_of_mem_head? hc))) (by decide)
  refine ⟨hnothing, ?_, hnothing'⟩
  rw [h.eq, hnothing, hnothing', List.nil_append, List.append_nil]

def EndsRun (cs : List Char) : Prop := ∀ c ∈ cs.head?, c.isAlphanum = false

theorem endsRun_nil : EndsRun [] := fun c hc => absurd hc (Option.not_mem_none c)

theorem endsRun_cons {c : Char} (hc : c.isAlphanum = false) (cs : List Char) :
    EndsRun (c :: cs) := by
  intro c' hc'
  cases hc'
  exact hc

/-- A run in two texts, one after the other, is a run in one of them, unless the first ends with a
letter or digit and the second begins with one. -/
theorem IsRun.of_append (h : IsRun (cs ++ ds) run before after)
    (hborder : ∀ c ∈ cs.getLast?, c.isAlphanum = true → EndsRun ds) :
    (∃ more, after = more ++ ds ∧ IsRun cs run before more) ∨
      ∃ more, before = cs ++ more ∧ IsRun ds run more after := by
  obtain ⟨heq, hne, hletters, hleft, hright⟩ := h
  have hinSecond {more : List Char} (hbefore : before = cs ++ more)
      (hds : ds = more ++ (run ++ after)) :
      ∃ more, before = cs ++ more ∧ IsRun ds run more after := by
    refine ⟨more, hbefore, hds, hne, hletters, fun c hc => hleft c ?_, hright⟩
    rw [hbefore, List.getLast?_append, hc]
    rfl
  have hinFirst {more : List Char} (hafter : after = more ++ ds)
      (hcs : cs = before ++ (run ++ more)) :
      ∃ more, after = more ++ ds ∧ IsRun cs run before more := by
    refine ⟨more, hafter, hcs, hne, hletters, hleft, fun c hc => hright c ?_⟩
    rw [hafter, List.head?_append, hc]
    rfl
  obtain ⟨more, hbefore, hds⟩ | ⟨more, hcs, hrest⟩ := List.append_eq_append_iff.mp heq
  · exact .inr (hinSecond hbefore hds)
  · obtain ⟨rest, hmore, hafter⟩ | ⟨rest, hrun, hds⟩ := List.append_eq_append_iff.mp hrest
    · exact .inl (hinFirst hafter (hmore ▸ hcs))
    · obtain rfl | ⟨front, c, rfl⟩ := more.eq_nil_or_concat'
      · have hbefore : before = cs ++ [] := by rw [hcs, List.append_nil, List.append_nil]
        exact .inr (hinSecond hbefore (hrun ▸ hds))
      · cases rest with
        | nil =>
          rw [List.append_nil] at hrun
          have hafter : after = [] ++ ds := hds.symm
          exact .inl (hinFirst hafter (by rw [hcs, hrun, List.append_nil]))
        | cons c' rest =>
          -- The run goes on from the first text into the second.
          have hlast : c ∈ cs.getLast? := by simp [hcs]
          have hfirst : c' ∈ ds.head? := by simp [hds]
          have hletter := hborder c hlast (hletters c (by simp [hrun])) c' hfirst
          exact absurd (hletter.symm.trans (hletters c' (by simp [hrun]))) (by decide)

/-- A run of digits that is as long as possible has given way to other digits. -/
inductive Exchanges (digits digits' : List Char) : List Char → List Char → Prop
  | mk {cs before after : List Char} (hrun : IsRun cs digits before after)
      (hdigits : ∀ c ∈ digits, c.isDigit = true) (hne : digits' ≠ [])
      (hdigits' : ∀ c ∈ digits', c.isDigit = true) :
      Exchanges digits digits' cs (before ++ (digits' ++ after))

variable {digits digits' : List Char}

theorem Exchanges.symm (h : Exchanges digits digits' cs es) : Exchanges digits' digits es cs := by
  obtain ⟨hrun, hdigits, hne, hdigits'⟩ := h
  rw [hrun.eq]
  refine .mk ⟨rfl, hne, fun c hc => ?_, hrun.left, hrun.right⟩ hdigits' hrun.nonempty hdigits
  exact Text.isAlphanum_of_isDigit (hdigits' c hc)

theorem Exchanges.of_append_of_border (h : Exchanges digits digits' (cs ++ ds) es)
    (hborder : ∀ c ∈ cs.getLast?, c.isAlphanum = true → EndsRun ds) :
    (∃ cs', es = cs' ++ ds ∧ Exchanges digits digits' cs cs') ∨
      ∃ ds', es = cs ++ ds' ∧ Exchanges digits digits' ds ds' := by
  obtain ⟨hrun, hdigits, hne, hdigits'⟩ := h
  obtain ⟨more, rfl, hfirst⟩ | ⟨more, rfl, hsecond⟩ := hrun.of_append hborder
  · refine .inl ⟨_, ?_, .mk hfirst hdigits hne hdigits'⟩
    simp only [List.append_assoc]
  · refine .inr ⟨_, ?_, .mk hsecond hdigits hne hdigits'⟩
    simp only [List.append_assoc]

/-- Digits in two texts, the second of which begins with a mark. -/
theorem Exchanges.of_append (h : Exchanges digits digits' (cs ++ ds) es)
    (hds : EndsRun ds) :
    (∃ cs', es = cs' ++ ds ∧ Exchanges digits digits' cs cs') ∨
      ∃ ds', es = cs ++ ds' ∧ Exchanges digits digits' ds ds' :=
  h.of_append_of_border fun _ _ _ => hds

theorem Exchanges.not_marks (h : Exchanges digits digits' cs es) :
    ¬ ∀ c ∈ cs, c.isAlphanum = false := by
  obtain ⟨hrun, -⟩ := h
  exact hrun.not_marks

theorem Exchanges.not_nil (h : Exchanges digits digits' [] es) : False :=
  h.not_marks fun _ hc => absurd hc List.not_mem_nil

/-- Digits after marks. -/
theorem Exchanges.of_marks_append (h : Exchanges digits digits' (cs ++ ds) es)
    (hcs : ∀ c ∈ cs, c.isAlphanum = false) :
    ∃ ds', es = cs ++ ds' ∧ Exchanges digits digits' ds ds' := by
  have hborder : ∀ c ∈ cs.getLast?, c.isAlphanum = true → EndsRun ds := fun c hc hletter =>
    absurd (hletter.symm.trans (hcs c (List.mem_of_mem_getLast? hc))) (by decide)
  exact (h.of_append_of_border hborder).resolve_left fun ⟨_, _, h⟩ => h.not_marks hcs

theorem Exchanges.of_mark_cons {c : Char} (h : Exchanges digits digits' (c :: ds) es)
    (hc : c.isAlphanum = false) : ∃ ds', es = c :: ds' ∧ Exchanges digits digits' ds ds' := by
  have happend : Exchanges digits digits' ([c] ++ ds) es := h
  exact happend.of_marks_append (List.forall_mem_singleton.mpr hc)

/-- Digits before a mark. -/
theorem Exchanges.of_append_mark {c : Char} (h : Exchanges digits digits' (cs ++ [c]) es)
    (hc : c.isAlphanum = false) : ∃ cs', es = cs' ++ [c] ∧ Exchanges digits digits' cs cs' := by
  have hmarks : ∀ c' ∈ [c], c'.isAlphanum = false := List.forall_mem_singleton.mpr hc
  exact (h.of_append (endsRun_cons hc [])).resolve_right fun ⟨_, _, h⟩ => h.not_marks hmarks

end Texts

section Renumbering

variable (n n' : Nat)

inductive Expression.OperationsRenumber :
    List (Operator × Atom) → List (Operator × Atom) → Prop
  | here (op : Operator) (operations : List (Operator × Atom)) :
      OperationsRenumber ((op, .number n) :: operations) ((op, .number n') :: operations)
  | later (o : Operator × Atom) {operations operations' : List (Operator × Atom)}
      (h : OperationsRenumber operations operations') :
      OperationsRenumber (o :: operations) (o :: operations')

/-- The expressions differ in one number, which is `n` in the first and `n'` in the second. -/
inductive Expression.Renumbers : Expression → Expression → Prop
  | first (negative : Bool) (operations : List (Operator × Atom)) :
      Renumbers ⟨negative, .number n, operations⟩ ⟨negative, .number n', operations⟩
  | rest (negative : Bool) (first : Atom) {operations operations' : List (Operator × Atom)}
      (h : OperationsRenumber n n' operations operations') :
      Renumbers ⟨negative, first, operations⟩ ⟨negative, first, operations'⟩

inductive WPart.Renumbers : WPart → WPart → Prop
  | value {e e' : Expression} (h : e.Renumbers n n' e') (field : Option Expression) :
      Renumbers ⟨e, field⟩ ⟨e', field⟩
  | field (value : Expression) {e e' : Expression} (h : e.Renumbers n n' e') :
      Renumbers ⟨value, some e⟩ ⟨value, some e'⟩

inductive WValue.Renumbers : WValue → WValue → Prop
  | here {p p' : WPart} (h : p.Renumbers n n' p') (w : WValue) : Renumbers (p :: w) (p' :: w)
  | later (p : WPart) {w w' : WValue} (h : Renumbers w w') : Renumbers (p :: w) (p :: w')

inductive AddressPart.Renumbers : AddressPart → AddressPart → Prop
  | expression {e e' : Expression} (h : e.Renumbers n n' e') :
      Renumbers (.expression e) (.expression e')
  | literal {w w' : WValue} (h : w.Renumbers n n' w') : Renumbers (.literal w) (.literal w')

inductive Operand.Renumbers : Operand → Operand → Prop
  | address {address address' : AddressPart} (h : address.Renumbers n n' address')
      (index field : Option Expression) : Renumbers ⟨address, index, field⟩ ⟨address', index, field⟩
  | index (address : AddressPart) {e e' : Expression} (h : e.Renumbers n n' e')
      (field : Option Expression) : Renumbers ⟨address, some e, field⟩ ⟨address, some e', field⟩
  | field (address : AddressPart) (index : Option Expression) {e e' : Expression}
      (h : e.Renumbers n n' e') : Renumbers ⟨address, index, some e⟩ ⟨address, index, some e'⟩

end Renumbering

section Proper

variable {n n' : Nat}

/-- What is proper has small numbers, and stays proper with another small number. -/
theorem Expression.OperationsRenumber.proper {operations operations' : List (Operator × Atom)}
    (h : OperationsRenumber n n' operations operations')
    (hproper : ∀ o ∈ operations, o.2.Proper) :
    n < 0x8000000000000000 ∧
      (n' < 0x8000000000000000 → ∀ o ∈ operations', o.2.Proper) := by
  induction h with
  | here op operations =>
    obtain ⟨hn, hrest⟩ := List.forall_mem_cons.mp hproper
    exact ⟨hn, fun hn' => List.forall_mem_cons.mpr ⟨hn', hrest⟩⟩
  | later o _ ih =>
    obtain ⟨ho, hrest⟩ := List.forall_mem_cons.mp hproper
    obtain ⟨hn, hproper'⟩ := ih hrest
    exact ⟨hn, fun hn' => List.forall_mem_cons.mpr ⟨ho, hproper' hn'⟩⟩

theorem Expression.Renumbers.proper {e e' : Expression} (h : e.Renumbers n n' e')
    (hproper : e.Proper) :
    n < 0x8000000000000000 ∧ (n' < 0x8000000000000000 → e'.Proper) := by
  cases h with
  | first => exact ⟨hproper.1, fun hn' => ⟨hn', hproper.2⟩⟩
  | rest _ _ h =>
    obtain ⟨hn, hrest⟩ := h.proper hproper.2
    exact ⟨hn, fun hn' => ⟨hproper.1, hrest hn'⟩⟩

/-- An expression that may be missing, and is not. -/
theorem Expression.Renumbers.proper_some {e e' : Expression} (h : e.Renumbers n n' e')
    (hproper : ∀ e₀ ∈ some e, e₀.Proper) :
    n < 0x8000000000000000 ∧ (n' < 0x8000000000000000 → ∀ e₀ ∈ some e', e₀.Proper) := by
  obtain ⟨hn, hproper'⟩ := h.proper (hproper e rfl)
  refine ⟨hn, fun hn' e₀ he₀ => ?_⟩
  cases he₀
  exact hproper' hn'

theorem WPart.Renumbers.proper {p p' : WPart} (h : p.Renumbers n n' p') (hproper : p.Proper) :
    n < 0x8000000000000000 ∧ (n' < 0x8000000000000000 → p'.Proper) := by
  cases h with
  | value h =>
    obtain ⟨hn, hvalue⟩ := h.proper hproper.1
    exact ⟨hn, fun hn' => ⟨hvalue hn', hproper.2⟩⟩
  | field _ h =>
    obtain ⟨hn, hfield⟩ := h.proper_some hproper.2
    exact ⟨hn, fun hn' => ⟨hproper.1, hfield hn'⟩⟩

theorem WValue.Renumbers.proper {w w' : WValue} (h : w.Renumbers n n' w')
    (hproper : ∀ p ∈ w, p.Proper) :
    n < 0x8000000000000000 ∧ (n' < 0x8000000000000000 → ∀ p ∈ w', p.Proper) := by
  induction h with
  | here h w =>
    obtain ⟨hp, hrest⟩ := List.forall_mem_cons.mp hproper
    obtain ⟨hn, hp'⟩ := h.proper hp
    exact ⟨hn, fun hn' => List.forall_mem_cons.mpr ⟨hp' hn', hrest⟩⟩
  | later p _ ih =>
    obtain ⟨hp, hrest⟩ := List.forall_mem_cons.mp hproper
    obtain ⟨hn, hrest'⟩ := ih hrest
    exact ⟨hn, fun hn' => List.forall_mem_cons.mpr ⟨hp, hrest' hn'⟩⟩

theorem WValue.Renumbers.ne_nil {w w' : WValue} (h : w.Renumbers n n' w') : w' ≠ [] := by
  cases h <;> exact List.cons_ne_nil _ _

theorem AddressPart.Renumbers.proper {address address' : AddressPart}
    (h : address.Renumbers n n' address') (hproper : address.Proper) :
    n < 0x8000000000000000 ∧ (n' < 0x8000000000000000 → address'.Proper) := by
  cases h with
  | expression h => exact h.proper hproper
  | literal h =>
    obtain ⟨hn, hparts⟩ := h.proper hproper.2
    exact ⟨hn, fun hn' => ⟨h.ne_nil, hparts hn'⟩⟩

theorem Operand.Renumbers.proper {o o' : Operand} (h : o.Renumbers n n' o')
    (hproper : o.Proper) :
    n < 0x8000000000000000 ∧ (n' < 0x8000000000000000 → o'.Proper) := by
  obtain ⟨haddress, hindex, hfield⟩ := hproper
  cases h with
  | address h =>
    obtain ⟨hn, haddress'⟩ := h.proper haddress
    exact ⟨hn, fun hn' => ⟨haddress' hn', hindex, hfield⟩⟩
  | index _ h =>
    obtain ⟨hn, hindex'⟩ := h.proper_some hindex
    exact ⟨hn, fun hn' => ⟨haddress, hindex' hn', hfield⟩⟩
  | field _ _ h =>
    obtain ⟨hn, hfield'⟩ := h.proper_some hfield
    exact ⟨hn, fun hn' => ⟨haddress, hindex, hfield' hn'⟩⟩

end Proper

section Written

variable {digits digits' cs es : List Char}

/-- A number is all that a run of digits can stand for in an atom. -/
theorem Atom.WrittenAs.exchange {a : Atom} (h : a.WrittenAs cs)
    (hx : Exchanges digits digits' cs es) :
    a = .number (Text.numeral digits) ∧ (Atom.number (Text.numeral digits')).WrittenAs es := by
  obtain ⟨hrun, hdigits, hne, hdigits'⟩ := hx
  cases h with
  | number _ hcs =>
    obtain ⟨rfl, rfl, rfl⟩ :=
      hrun.eq_of_letters fun c hc => Text.isAlphanum_of_isDigit (hcs c hc)
    rw [List.nil_append, List.append_nil]
    exact ⟨rfl, .number hne hdigits'⟩
  | symbol hname =>
    obtain ⟨hletters, c, hc, halpha⟩ := hname
    obtain ⟨-, rfl, -⟩ := hrun.eq_of_letters hletters
    exact absurd ((hdigits c hc).symm.trans (Text.isDigit_of_isAlpha halpha)) (by decide)
  | here => exact absurd (List.forall_mem_singleton.mpr (by decide)) hrun.not_marks

theorem Operator.marks_text (op : Operator) : ∀ c ∈ op.text.toList, c.isAlphanum = false :=
  marks_of_all (by cases op <;> decide)

namespace Expression

theorem OperationsWrittenAs.endsRun {operations : List (Operator × Atom)}
    (h : OperationsWrittenAs operations cs) : EndsRun cs := by
  cases h with
  | none => exact endsRun_nil
  | @more op => cases op <;> exact endsRun_cons rfl _

theorem OperationsWrittenAs.exchange {operations : List (Operator × Atom)}
    (h : OperationsWrittenAs operations cs) (hx : Exchanges digits digits' cs es) :
    ∃ operations',
      OperationsRenumber (Text.numeral digits) (Text.numeral digits') operations operations' ∧
        OperationsWrittenAs operations' es := by
  induction h generalizing es with
  | none => exact hx.not_nil.elim
  | @more op a operations cs ds ha hmore ih =>
    obtain ⟨_, rfl, hx'⟩ := hx.of_marks_append op.marks_text
    obtain ⟨cs', rfl, hatom⟩ | ⟨ds', rfl, hrest⟩ := hx'.of_append hmore.endsRun
    · obtain ⟨rfl, ha'⟩ := ha.exchange hatom
      exact ⟨_, .here op operations, .more ha' hmore⟩
    · obtain ⟨operations', hnumber, hmore'⟩ := ih hrest
      exact ⟨_, .later (op, a) hnumber, .more ha hmore'⟩

theorem WrittenAs.exchange {e : Expression} (h : e.WrittenAs cs)
    (hx : Exchanges digits digits' cs es) :
    ∃ e', e.Renumbers (Text.numeral digits) (Text.numeral digits') e' ∧ e'.WrittenAs es := by
  obtain ⟨hsign, hfirst, hrest⟩ := h
  have hmarks {negative : Bool} {sign : List Char} (hsign : SignWrittenAs negative sign) :
      ∀ c ∈ sign, c.isAlphanum = false := marks_of_all (by cases hsign <;> decide)
  obtain ⟨_, rfl, hx'⟩ := hx.of_marks_append (hmarks hsign)
  obtain ⟨cs', rfl, hatom⟩ | ⟨ds', rfl, hmore⟩ := hx'.of_append hrest.endsRun
  · obtain ⟨rfl, hfirst'⟩ := hfirst.exchange hatom
    exact ⟨_, .first _ _, .mk hsign hfirst' hrest⟩
  · obtain ⟨operations', hnumber, hrest'⟩ := hrest.exchange hmore
    exact ⟨_, .rest _ _ hnumber, .mk hsign hfirst hrest'⟩

end Expression

theorem FieldWrittenAs.endsRun {field : Option Expression} (h : FieldWrittenAs field cs) :
    EndsRun cs := by
  cases h with
  | missing => exact endsRun_nil
  | given => exact endsRun_cons rfl _

/-- Digits in a field mean that there is one. -/
theorem FieldWrittenAs.exchange {field : Option Expression} (h : FieldWrittenAs field cs)
    (hx : Exchanges digits digits' cs es) :
    ∃ e e', field = some e ∧ e.Renumbers (Text.numeral digits) (Text.numeral digits') e' ∧
      FieldWrittenAs (some e') es := by
  cases h with
  | missing => exact hx.not_nil.elim
  | @given e cs he =>
    obtain ⟨_, rfl, hx'⟩ := hx.of_mark_cons (by decide)
    obtain ⟨cs', rfl, hinside⟩ := hx'.of_append_mark (by decide)
    obtain ⟨e', hnumber, he'⟩ := he.exchange hinside
    exact ⟨e, e', rfl, hnumber, .given he'⟩

theorem IndexWrittenAs.exchange {index : Option Expression} (h : IndexWrittenAs index cs)
    (hx : Exchanges digits digits' cs es) :
    ∃ e e', index = some e ∧ e.Renumbers (Text.numeral digits) (Text.numeral digits') e' ∧
      IndexWrittenAs (some e') es := by
  cases h with
  | missing => exact hx.not_nil.elim
  | @given e cs he =>
    obtain ⟨_, rfl, hx'⟩ := hx.of_mark_cons (by decide)
    obtain ⟨e', hnumber, he'⟩ := he.exchange hx'
    exact ⟨e, e', rfl, hnumber, .given he'⟩

theorem IndexWrittenAs.endsRun {index field : Option Expression} {ds : List Char}
    (h : IndexWrittenAs index cs) (hfield : FieldWrittenAs field ds) : EndsRun (cs ++ ds) := by
  cases h with
  | missing => exact hfield.endsRun
  | given => exact endsRun_cons rfl _

theorem WPart.WrittenAs.exchange {p : WPart} (h : p.WrittenAs cs)
    (hx : Exchanges digits digits' cs es) :
    ∃ p', p.Renumbers (Text.numeral digits) (Text.numeral digits') p' ∧ p'.WrittenAs es := by
  obtain ⟨hvalue, hfield⟩ := h
  obtain ⟨cs', rfl, hx'⟩ | ⟨ds', rfl, hx'⟩ := hx.of_append hfield.endsRun
  · obtain ⟨value', hnumber, hvalue'⟩ := hvalue.exchange hx'
    exact ⟨_, .value hnumber _, .mk hvalue' hfield⟩
  · obtain ⟨e, e', rfl, hnumber, hfield'⟩ := hfield.exchange hx'
    exact ⟨_, .field _ hnumber, .mk hvalue hfield'⟩

theorem WValue.WrittenAs.exchange {w : WValue} (h : w.WrittenAs cs)
    (hx : Exchanges digits digits' cs es) :
    ∃ w', w.Renumbers (Text.numeral digits) (Text.numeral digits') w' ∧ w'.WrittenAs es := by
  induction h generalizing es with
  | one hp =>
    obtain ⟨p', hnumber, hp'⟩ := hp.exchange hx
    exact ⟨_, .here hnumber _, .one hp'⟩
  | @more p w cs ds hp hw ih =>
    obtain ⟨cs', rfl, hpart⟩ | ⟨_, rfl, hrest⟩ := hx.of_append (endsRun_cons rfl ds)
    · obtain ⟨p', hnumber, hp'⟩ := hp.exchange hpart
      exact ⟨_, .here hnumber _, .more hp' hw⟩
    · obtain ⟨ds', rfl, hparts⟩ := hrest.of_mark_cons (by decide)
      obtain ⟨w', hnumber, hw'⟩ := ih hparts
      exact ⟨_, .later _ hnumber, .more hp hw'⟩

theorem WValue.StandsAlone.exchange {w : WValue} (h : w.StandsAlone cs)
    (hx : Exchanges digits digits' cs es) :
    ∃ w', w.Renumbers (Text.numeral digits) (Text.numeral digits') w' ∧ w'.StandsAlone es := by
  obtain ⟨-, rfl⟩ | hw := h
  · exact hx.not_nil.elim
  · obtain ⟨w', hnumber, hw'⟩ := hw.exchange hx
    exact ⟨w', hnumber, .inr hw'⟩

theorem AddressPart.WrittenAs.exchange {address : AddressPart} (h : address.WrittenAs cs)
    (hx : Exchanges digits digits' cs es) :
    ∃ address', address.Renumbers (Text.numeral digits) (Text.numeral digits') address' ∧
      address'.WrittenAs es := by
  cases h with
  | empty => exact hx.not_nil.elim
  | expression he =>
    obtain ⟨e', hnumber, he'⟩ := he.exchange hx
    exact ⟨_, .expression hnumber, .expression he'⟩
  | literal hw =>
    obtain ⟨_, rfl, hx'⟩ := hx.of_mark_cons (by decide)
    obtain ⟨cs', rfl, hinside⟩ := hx'.of_append_mark (by decide)
    obtain ⟨w', hnumber, hw'⟩ := hw.exchange hinside
    exact ⟨_, .literal hnumber, .literal hw'⟩

theorem Operand.WrittenAs.exchange {o : Operand} (h : o.WrittenAs cs)
    (hx : Exchanges digits digits' cs es) :
    ∃ o', o.Renumbers (Text.numeral digits) (Text.numeral digits') o' ∧ o'.WrittenAs es := by
  obtain ⟨haddress, hindex, hfield⟩ := h
  obtain ⟨cs', rfl, hx'⟩ | ⟨_, rfl, htail⟩ := hx.of_append (hindex.endsRun hfield)
  · obtain ⟨address', hnumber, haddress'⟩ := haddress.exchange hx'
    exact ⟨_, .address hnumber _ _, .mk haddress' hindex hfield⟩
  · obtain ⟨ds', rfl, hx'⟩ | ⟨es', rfl, hx'⟩ := htail.of_append hfield.endsRun
    · obtain ⟨e, e', rfl, hnumber, hindex'⟩ := hindex.exchange hx'
      exact ⟨_, .index _ hnumber _, .mk haddress hindex' hfield⟩
    · obtain ⟨e, e', rfl, hnumber, hfield'⟩ := hfield.exchange hx'
      exact ⟨_, .field _ _ hnumber, .mk haddress hindex hfield'⟩

end Written

section Reading

variable {digits digits' cs cs' : List Char}

/-- With another number, what is read is read again if and only if the number has 63 bits. This
holds of every reader that reads what is written and proper. -/
theorem read_exchange {α : Type} {read : List Char → Option α} {written : α → List Char → Prop}
    {proper : α → Prop} {renumbers : Nat → Nat → α → α → Prop}
    (hread : ∀ cs a, read cs = some a ↔ written a cs ∧ proper a)
    (hwritten : ∀ {digits digits' cs cs' a}, written a cs → Exchanges digits digits' cs cs' →
      ∃ a', renumbers (Text.numeral digits) (Text.numeral digits') a a' ∧ written a' cs')
    (hproper : ∀ {n n' a a'}, renumbers n n' a a' → proper a →
      n < 0x8000000000000000 ∧ (n' < 0x8000000000000000 → proper a'))
    (hx : Exchanges digits digits' cs cs') {a : α} (h : read cs = some a) :
    (0x8000000000000000 ≤ Text.numeral digits' → read cs' = none) ∧
      (Text.numeral digits' < 0x8000000000000000 →
        ∃ a', renumbers (Text.numeral digits) (Text.numeral digits') a a' ∧
          read cs' = some a') := by
  obtain ⟨hcs, ha⟩ := (hread cs a).mp h
  constructor
  · -- Whatever is read with the large number would have the large number in it.
    intro hlarge
    refine Option.eq_none_iff_forall_ne_some.mpr fun b hb => ?_
    obtain ⟨hcs', hb'⟩ := (hread cs' b).mp hb
    obtain ⟨_, hnumber, -⟩ := hwritten hcs' hx.symm
    exact absurd (hproper hnumber hb').1 (Nat.not_lt.mpr hlarge)
  · intro hsmall
    obtain ⟨a', hnumber, hcs'⟩ := hwritten hcs hx
    exact ⟨a', hnumber, (hread cs' a').mpr ⟨hcs', (hproper hnumber ha).2 hsmall⟩⟩

theorem Operand.ofChars?_exchange (hx : Exchanges digits digits' cs cs') {o : Operand}
    (h : Operand.ofChars? cs = some o) :
    (0x8000000000000000 ≤ Text.numeral digits' → Operand.ofChars? cs' = none) ∧
      (Text.numeral digits' < 0x8000000000000000 →
        ∃ o', o.Renumbers (Text.numeral digits) (Text.numeral digits') o' ∧
          Operand.ofChars? cs' = some o') :=
  read_exchange ofChars?_eq_some_iff WrittenAs.exchange Renumbers.proper hx h

theorem WValue.ofChars?_exchange (hx : Exchanges digits digits' cs cs') {w : WValue}
    (h : WValue.ofChars? cs = some w) :
    (0x8000000000000000 ≤ Text.numeral digits' → WValue.ofChars? cs' = none) ∧
      (Text.numeral digits' < 0x8000000000000000 →
        ∃ w', w.Renumbers (Text.numeral digits) (Text.numeral digits') w' ∧
          WValue.ofChars? cs' = some w') :=
  read_exchange ofChars?_eq_some_iff StandsAlone.exchange Renumbers.proper hx h

end Reading

end MixComputer.Source
