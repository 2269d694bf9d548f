import MixComputer.Proofs.Source.Grammar

/-!
What is written can be read. The readers take as much as they can and never go back, and yet they
miss nothing that the grammar allows: what may come after an atom does not continue it, what may
come after an expression begins with no operator, and a value has no comma and no equals sign
inside its parts. So each reader stops where a part ends.
-/
namespace MixComputer.Source

open Token (ofChars NoWord)

def Token.Small : Token → Prop
  | word letters =>
    (∀ c ∈ letters, c.isDigit = true) → Text.numeral letters < 0x8000000000000000
  | _ => True

/-- What is known of something that is written: it is proper if the numbers among its tokens are
small, and it is read if it is proper. -/
structure Legible (ts : List Token) (isProper isRead : Prop) : Prop where
  proper : (∀ t ∈ ts, t.Small) → isProper
  read : isProper → isRead

variable {cs ds : List Char}

theorem Atom.legible {a : Atom} (h : a.WrittenAs cs) (hnext : NoWord (ofChars ds)) :
    ∃ t, ofChars (cs ++ ds) = t :: ofChars ds ∧
      Legible [t] a.Proper (Atom.ofToken? t = some a) := by
  cases h with
  | number hne hdigits =>
    have hall : cs.all Char.isDigit = true := List.all_eq_true.mpr hdigits
    refine ⟨.word cs, ?_, fun hsmall => ?_, fun hproper => ?_⟩
    · exact Token.ofChars_word hne (fun c hc => Text.isAlphanum_of_isDigit (hdigits c hc)) hnext
    · exact hsmall _ List.mem_cons_self hdigits
    · have hlt : Text.numeral cs < 0x8000000000000000 := hproper
      rw [ofToken?, ofWord?, if_pos hall, if_pos hlt]
  | @symbol name hname =>
    obtain ⟨hletters, c, hc, halpha⟩ := hname
    have hdigit : ¬ c.isDigit = true := Bool.eq_false_iff.mp (Text.isDigit_of_isAlpha halpha)
    have hproper : (Atom.symbol name).Proper :=
      ⟨hletters, List.all_eq_false.mpr ⟨c, hc, hdigit⟩⟩
    exact ⟨.word name.toList, Token.ofChars_word (List.ne_nil_of_mem hc) hletters hnext,
      fun _ => hproper, ofToken?_token⟩
  | here =>
    exact ⟨.mark '*', Token.ofChars_mark_of_ne rfl (by decide) ds, fun _ => True.intro,
      fun _ => rfl⟩

/-- An operator before an atom is read as the longest one. -/
theorem Operator.ofChars_text (op : Operator) (hnext : ds.head? ≠ some '/') :
    ofChars (op.text.toList ++ ds) = op.token :: ofChars ds := by
  rw [← op.chars_token]
  cases op with
  | divideFraction => exact Token.ofChars_slashes ds
  | divide => exact Token.ofChars_mark rfl fun _ => hnext
  | add | subtract | multiply | field =>
    exact Token.ofChars_mark_of_ne rfl (by decide) ds

namespace Expression

/-- Operators with their atoms are read up to the first token that is no operator. -/
theorem legible_operations {operations : List (Operator × Atom)}
    (h : OperationsWrittenAs operations cs) (hnext : NoWord (ofChars ds)) :
    NoWord (ofChars (cs ++ ds)) ∧ ∃ ts, ofChars (cs ++ ds) = ts ++ ofChars ds ∧
      Legible ts (∀ o ∈ operations, o.2.Proper)
        (∀ us, Ends us → readOperations (ts ++ us) = (operations, us)) := by
  induction h with
  | none =>
    refine ⟨hnext, [], rfl, fun _ o ho => absurd ho List.not_mem_nil, fun _ us hends => ?_⟩
    exact readOperations_of_ends hends
  | @more op a operations cs es ha hmore ih =>
    obtain ⟨hword, ts, htokens, hrest⟩ := ih
    -- Each operation is an operator token and an atom token. An asterisk is the one or the other by
    -- its place alone.
    obtain ⟨t, hatom, hfirst⟩ := Atom.legible ha hword
    have heq : ofChars (op.text.toList ++ (cs ++ es) ++ ds) =
        (op.token :: t :: ts) ++ ofChars ds := by
      rw [List.append_assoc, List.append_assoc, op.ofChars_text (Atom.head?_ne_slash ha _), hatom,
        htokens]
      rfl
    refine ⟨heq ▸ op.noWord_token _, _, heq, fun hsmall => ?_, fun hproper us hends => ?_⟩
    · have ha' := hfirst.proper fun t' ht' =>
        hsmall t' (List.mem_cons_of_mem _ (List.mem_singleton.mp ht' ▸ List.mem_cons_self))
      have hmore' := hrest.proper fun t' ht' =>
        hsmall t' (List.mem_cons_of_mem _ (List.mem_cons_of_mem _ ht'))
      exact List.forall_mem_cons.mpr ⟨ha', hmore'⟩
    · obtain ⟨ha', hmore'⟩ := List.forall_mem_cons.mp hproper
      have hread := hrest.read hmore' us hends
      rw [List.cons_append, List.cons_append, readOperations]
      simp only [Operator.ofToken?_token, hfirst.read ha', hread]

/-- A sign is no atom. -/
theorem read?_of_atom {t : Token} {a : Atom} (h : Atom.ofToken? t = some a) (ts : List Token) :
    read? (t :: ts) = readUnsigned? false (t :: ts) := by
  unfold read?
  split
  · rename_i heq
    cases heq
    cases h
  · rename_i heq
    cases heq
    cases h
  · rfl

/-- An expression is read up to its end, whatever tokens come after it. -/
theorem legible {e : Expression} (h : e.WrittenAs cs) (hnext : NoWord (ofChars ds)) :
    ∃ ts, ofChars (cs ++ ds) = ts ++ ofChars ds ∧
      Legible ts e.Proper (∀ us, Ends us → read? (ts ++ us) = some (e, us)) := by
  obtain @⟨negative, first, operations, sign, cs, es, hsign, hfirst, hrest⟩ := h
  obtain ⟨hword, ts, htokens, hoperations⟩ := legible_operations hrest hnext
  obtain ⟨t, hatom, hfirst'⟩ := Atom.legible hfirst hword
  have heq : ofChars (cs ++ (es ++ ds)) = (t :: ts) ++ ofChars ds := by
    rw [hatom, htokens]
    rfl
  have hproper (hsmall : ∀ t' ∈ t :: ts, t'.Small) :
      Proper ⟨negative, first, operations⟩ := by
    obtain ⟨ht, hts⟩ := List.forall_mem_cons.mp hsmall
    exact ⟨hfirst'.proper (List.forall_mem_singleton.mpr ht), hoperations.proper hts⟩
  have hread (hproper : Proper ⟨negative, first, operations⟩) (us : List Token) (hends : Ends us) :
      readUnsigned? negative (t :: ts ++ us) = some (⟨negative, first, operations⟩, us) := by
    simp only [readUnsigned?, List.cons_append, hfirst'.read hproper.1,
      hoperations.read hproper.2 us hends, Option.map_some]
  have hafterSign {c : Char} (hc : c.isAlphanum = false) (hslash : c ≠ '/') :
      ofChars ([c] ++ (cs ++ es) ++ ds) = (.mark c :: t :: ts) ++ ofChars ds := by
    rw [List.append_assoc, List.append_assoc]
    exact (Token.ofChars_mark_of_ne hc hslash _).trans (congrArg (Token.mark c :: ·) heq)
  cases hsign with
  | missing =>
    refine ⟨t :: ts, ?_, hproper, fun hproper us hends => ?_⟩
    · rw [List.nil_append, List.append_assoc, heq]
    · rw [List.cons_append, read?_of_atom (hfirst'.read hproper.1)]
      exact hread hproper us hends
  | plus =>
    exact ⟨_, hafterSign rfl (by decide),
      fun hsmall => hproper fun t' ht' => hsmall t' (List.mem_cons_of_mem _ ht'), hread⟩
  | minus =>
    exact ⟨_, hafterSign rfl (by decide),
      fun hsmall => hproper fun t' ht' => hsmall t' (List.mem_cons_of_mem _ ht'), hread⟩

end Expression

inductive Follows : List Token → Prop
  | nothing : Follows []
  | field (ts : List Token) : Follows (.mark '(' :: ts)
  | index (ts : List Token) : Follows (.mark ',' :: ts)

theorem Follows.noWord {ts : List Token} (h : Follows ts) : NoWord ts := by
  cases h <;> exact True.intro

theorem Follows.ends {ts : List Token} (h : Follows ts) : Expression.Ends ts := by
  cases h <;> rfl

theorem legible_field {field : Option Expression} (h : FieldWrittenAs field cs) :
    Follows (ofChars cs) ∧
      Legible (ofChars cs) (∀ e ∈ field, e.Proper) (closeField? (ofChars cs) = some field) := by
  cases h with
  | missing => exact ⟨.nothing, fun _ e he => absurd he (Option.not_mem_none e), fun _ => rfl⟩
  | @given e cs he =>
    have hclose : ofChars [')'] = [.mark ')'] := Token.ofChars_mark_of_ne rfl (by decide) []
    have hnext : NoWord (ofChars [')']) := hclose ▸ True.intro
    obtain ⟨ts, htokens, hlegible⟩ := Expression.legible he hnext
    have heq : ofChars ('(' :: (cs ++ [')'])) = .mark '(' :: (ts ++ [.mark ')']) := by
      rw [Token.ofChars_mark_of_ne rfl (by decide), htokens, hclose]
    rw [heq]
    refine ⟨.field _, fun hsmall e' he' => ?_, fun hproper => ?_⟩
    · cases he'
      exact hlegible.proper fun t ht =>
        hsmall t (List.mem_cons_of_mem _ (List.mem_append_left _ ht))
    · have hread := hlegible.read (hproper e rfl) [.mark ')'] rfl
      simp only [closeField?, hread]

theorem WPart.legible {p : WPart} (h : p.WrittenAs cs) :
    Legible (ofChars cs) p.Proper (WPart.ofTokens? (ofChars cs) = some p) := by
  obtain ⟨hvalue, hfield⟩ := h
  obtain ⟨hfollows, hclose⟩ := legible_field hfield
  obtain ⟨ts, htokens, hlegible⟩ := Expression.legible hvalue hfollows.noWord
  rw [htokens]
  refine ⟨fun hsmall => ⟨?_, ?_⟩, fun hproper => ?_⟩
  · exact hlegible.proper fun t ht => hsmall t (List.mem_append_left _ ht)
  · exact hclose.proper fun t ht => hsmall t (List.mem_append_right _ ht)
  · have hread := hlegible.read hproper.1 _ hfollows.ends
    have hrest := hclose.read hproper.2
    simp only [WPart.ofTokens?, hread, hrest, Option.map_some]

theorem commaSeparated_of_not_mem {ts : List Token} (h : .mark ',' ∉ ts) :
    commaSeparated ts = [ts] := by
  induction ts with
  | nil => rfl
  | cons t ts ih =>
    have ht : t ≠ .mark ',' := (List.ne_of_not_mem_cons h).symm
    rw [commaSeparated, if_neg ht, ih (List.not_mem_of_not_mem_cons h)]

theorem commaSeparated_append {ts : List Token} (h : .mark ',' ∉ ts) (us : List Token) :
    commaSeparated (ts ++ .mark ',' :: us) = ts :: commaSeparated us := by
  induction ts with
  | nil => rw [List.nil_append, commaSeparated, if_pos rfl]
  | cons t ts ih =>
    have ht : t ≠ .mark ',' := (List.ne_of_not_mem_cons h).symm
    rw [List.cons_append, commaSeparated, if_neg ht, ih (List.not_mem_of_not_mem_cons h)]

theorem WValue.legible {w : WValue} (h : w.WrittenAs cs) :
    Legible (ofChars cs) (∀ p ∈ w, p.Proper) (WValue.ofTokens? (ofChars cs) = some w) := by
  have hcomma {p : WPart} {cs : List Char} (hp : p.WrittenAs cs) : .mark ',' ∉ ofChars cs :=
    fun hmem => (WPart.inner_of_writtenAs hp ',' (Token.mem_of_mark_mem hmem)).1 rfl
  induction h with
  | one hp =>
    have hlegible := WPart.legible hp
    refine ⟨fun hsmall => List.forall_mem_singleton.mpr (hlegible.proper hsmall), fun hproper => ?_⟩
    have hread := hlegible.read (List.forall_mem_singleton.mp hproper)
    rw [WValue.ofTokens?, commaSeparated_of_not_mem (hcomma hp), List.mapM_cons, hread]
    rfl
  | @more p w cs ds hp hw ih =>
    have hlegible := WPart.legible hp
    rw [Token.ofChars_append_mark rfl (by decide)]
    refine ⟨fun hsmall => List.forall_mem_cons.mpr ⟨?_, ?_⟩, fun hproper => ?_⟩
    · exact hlegible.proper fun t ht => hsmall t (List.mem_append_left _ ht)
    · exact ih.proper fun t ht => hsmall t (List.mem_append_right _ (List.mem_cons_of_mem _ ht))
    · obtain ⟨hp', hw'⟩ := List.forall_mem_cons.mp hproper
      have hrest : (commaSeparated (ofChars ds)).mapM WPart.ofTokens? = some w := ih.read hw'
      rw [WValue.ofTokens?, commaSeparated_append (hcomma hp), List.mapM_cons,
        hlegible.read hp', hrest]
      rfl

namespace Operand

theorem legible_tail {index field : Option Expression} (hindex : IndexWrittenAs index cs)
    (hfield : FieldWrittenAs field ds) :
    Follows (ofChars (cs ++ ds)) ∧
      Legible (ofChars (cs ++ ds)) ((∀ e ∈ index, e.Proper) ∧ ∀ e ∈ field, e.Proper)
        (∀ address, readTail? address (ofChars (cs ++ ds)) = some ⟨address, index, field⟩) := by
  obtain ⟨hfollows, hclose⟩ := legible_field hfield
  cases hindex with
  | missing =>
    have htail (address : AddressPart) : readTail? address (ofChars ds) =
        (closeField? (ofChars ds)).map fun field => ⟨address, none, field⟩ := by
      cases hfield with
      | missing => rfl
      | given he =>
        rw [Token.ofChars_mark_of_ne rfl (by decide)]
        rfl
    refine ⟨hfollows, fun hsmall => ⟨fun e he => absurd he (Option.not_mem_none e), ?_⟩, ?_⟩
    · exact hclose.proper hsmall
    · intro hproper address
      rw [List.nil_append, htail, hclose.read hproper.2]
      rfl
  | @given e cs he =>
    obtain ⟨ts, htokens, hlegible⟩ := Expression.legible he hfollows.noWord
    have heq : ofChars (',' :: cs ++ ds) = .mark ',' :: (ts ++ ofChars ds) := by
      rw [List.cons_append, Token.ofChars_mark_of_ne rfl (by decide), htokens]
    rw [heq]
    refine ⟨.index _, fun hsmall => ⟨fun e' he' => ?_, ?_⟩, fun hproper address => ?_⟩
    · cases he'
      exact hlegible.proper fun t ht =>
        hsmall t (List.mem_cons_of_mem _ (List.mem_append_left _ ht))
    · exact hclose.proper fun t ht =>
        hsmall t (List.mem_cons_of_mem _ (List.mem_append_right _ ht))
    · have hread := hlegible.read (hproper.1 e rfl) _ hfollows.ends
      simp only [readTail?, hread, hclose.read hproper.2, Option.map_some]

/-- An equals sign begins a literal. -/
theorem ofTokens?_of_read? {ts us : List Token} {e : Expression}
    (h : Expression.read? ts = some (e, us)) : ofTokens? ts = readTail? (.expression e) us := by
  unfold ofTokens?
  split
  · cases h
  · simp only [h]

theorem ofTokens?_of_follows {ts : List Token} (h : Follows ts) :
    ofTokens? ts = readTail? .empty ts := by
  cases h <;> rfl

theorem readLiteral?_append {ts us : List Token} (h : .mark '=' ∉ ts) {w : WValue}
    (hw : WValue.ofTokens? ts = some w) :
    readLiteral? (ts ++ .mark '=' :: us) = readTail? (.literal w) us := by
  have hbefore : ∀ t ∈ ts, (t != .mark '=') = true := fun t ht =>
    bne_iff_ne.mpr fun heq => h (heq ▸ ht)
  have hdrop : (ts ++ .mark '=' :: us).dropWhile (· != .mark '=') = .mark '=' :: us := by
    rw [List.dropWhile_append_of_pos hbefore]
    rfl
  have htake : (ts ++ .mark '=' :: us).takeWhile (· != .mark '=') = ts := by
    rw [List.takeWhile_append_of_pos hbefore]
    exact List.append_nil ts
  simp only [readLiteral?, hdrop, htake, hw]

theorem legible {o : Operand} (h : o.WrittenAs cs) :
    Legible (ofChars cs) o.Proper (ofTokens? (ofChars cs) = some o) := by
  obtain ⟨haddress, hindex, hfield⟩ := h
  obtain ⟨hfollows, htail⟩ := legible_tail hindex hfield
  cases haddress with
  | empty =>
    refine ⟨fun hsmall => ⟨True.intro, htail.proper hsmall⟩, fun hproper => ?_⟩
    exact (ofTokens?_of_follows hfollows).trans (htail.read hproper.2 .empty)
  | @expression e cs he =>
    obtain ⟨ts, htokens, hlegible⟩ := Expression.legible he hfollows.noWord
    rw [htokens]
    refine ⟨fun hsmall => ⟨?_, ?_⟩, fun hproper => ?_⟩
    · exact hlegible.proper fun t ht => hsmall t (List.mem_append_left _ ht)
    · exact htail.proper fun t ht => hsmall t (List.mem_append_right _ ht)
    · have hread := hlegible.read hproper.1 _ hfollows.ends
      exact (ofTokens?_of_read? hread).trans (htail.read hproper.2 (.expression e))
  | @literal w cs hw =>
    have hlegible := WValue.legible hw
    have hequals : .mark '=' ∉ ofChars cs := fun hmem =>
      WValue.ne_equals_of_writtenAs hw (Token.mem_of_mark_mem hmem)
    have hne : w ≠ [] := by cases hw <;> exact List.cons_ne_nil _ _
    have heq (ds : List Char) : ofChars ('=' :: (cs ++ ['=']) ++ ds) =
        .mark '=' :: (ofChars cs ++ .mark '=' :: ofChars ds) := by
      rw [List.cons_append, List.append_assoc, Token.ofChars_mark_of_ne rfl (by decide)]
      exact congrArg (Token.mark '=' :: ·) (Token.ofChars_append_mark rfl (by decide) cs ds)
    rw [heq]
    refine ⟨fun hsmall => ⟨⟨hne, ?_⟩, ?_⟩, fun hproper => ?_⟩
    · exact hlegible.proper fun t ht =>
        hsmall t (List.mem_cons_of_mem _ (List.mem_append_left _ ht))
    · exact htail.proper fun t ht => hsmall t
        (List.mem_cons_of_mem _ (List.mem_append_right _ (List.mem_cons_of_mem _ ht)))
    · have hread := hlegible.read hproper.1.2
      exact (readLiteral?_append hequals hread).trans (htail.read hproper.2 (.literal w))

end Operand

end MixComputer.Source
