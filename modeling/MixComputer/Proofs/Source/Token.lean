import MixComputer.Proofs.Text
import MixComputer.Source.Token
import Mathlib.Data.List.Basic

/-!
Text and tokens. The tokens of a text concatenate to the text; and tokens that could not be read
in another way, when they are written without a gap, are the tokens of what is written.
-/
namespace MixComputer.Source.Token

def NoWord : List Token → Prop
  | word _ :: _ => False
  | _ => True

/-- Each token ends where the next one begins: words are as long as possible, and no two slashes
stand for themselves side by side. -/
def Apart : List Token → Prop
  | [] => True
  | word letters :: ts =>
    letters ≠ [] ∧ (∀ c ∈ letters, c.isAlphanum = true) ∧ NoWord ts ∧ Apart ts
  | doubleSlash :: ts => Apart ts
  | mark c :: ts =>
    c.isAlphanum = false ∧ (c = '/' → (ts.flatMap chars).head? ≠ some '/') ∧ Apart ts

theorem apart_mark {c : Char} (hc : c.isAlphanum = false) (hslash : c ≠ '/') {ts : List Token}
    (h : Apart ts) : Apart (mark c :: ts) :=
  ⟨hc, fun heq => absurd heq hslash, h⟩

theorem ofChars_slashes (cs : List Char) :
    ofChars ('/' :: '/' :: cs) = doubleSlash :: ofChars cs := by
  rw [ofChars]

theorem ofChars_letter {c : Char} (hc : c.isAlphanum = true) (cs : List Char) :
    ofChars (c :: cs) = consLetter c (ofChars cs) := by
  have hslash : c ≠ '/' := by
    rintro rfl
    revert hc
    decide
  rw [ofChars]
  · rw [if_pos hc]
  · intro cs' h
    exact absurd h hslash

theorem ofChars_mark {c : Char} (hc : c.isAlphanum = false) {cs : List Char}
    (hslash : c = '/' → cs.head? ≠ some '/') : ofChars (c :: cs) = mark c :: ofChars cs := by
  rw [ofChars]
  · rw [hc]
    rfl
  · rintro cs' rfl rfl
    exact hslash rfl rfl

theorem ofChars_mark_of_ne {c : Char} (hc : c.isAlphanum = false) (hslash : c ≠ '/')
    (cs : List Char) : ofChars (c :: cs) = mark c :: ofChars cs :=
  ofChars_mark hc fun h => absurd h hslash

theorem consLetter_noWord {ts : List Token} (h : NoWord ts) (c : Char) :
    consLetter c ts = word [c] :: ts := by
  cases ts with
  | nil => rfl
  | cons t ts =>
    cases t with
    | word letters => exact absurd h (by simp [NoWord])
    | doubleSlash => rfl
    | mark c' => rfl

/-- A run of letters and digits before something else is one token. -/
theorem ofChars_word {letters : List Char} (hne : letters ≠ [])
    (hletters : ∀ c ∈ letters, c.isAlphanum = true) {cs : List Char} (h : NoWord (ofChars cs)) :
    ofChars (letters ++ cs) = word letters :: ofChars cs := by
  induction letters with
  | nil => exact absurd rfl hne
  | cons c letters ih =>
    have hc := hletters c List.mem_cons_self
    rw [List.cons_append, ofChars_letter hc]
    cases letters with
    | nil => exact consLetter_noWord h c
    | cons c' letters =>
      rw [ih (List.cons_ne_nil c' letters) fun x hx => hletters x (List.mem_cons_of_mem c hx)]
      rfl

/-- Tokens that are apart are read back from their text. -/
theorem ofChars_flatMap_chars {ts : List Token} (h : Apart ts) :
    ofChars (ts.flatMap chars) = ts := by
  induction ts with
  | nil => rw [List.flatMap_nil, ofChars]
  | cons t ts ih =>
    rw [List.flatMap_cons]
    cases t with
    | word letters =>
      obtain ⟨hne, hletters, hnext, hrest⟩ := h
      have hnext' : NoWord (ofChars (ts.flatMap chars)) := by rwa [ih hrest]
      rw [chars, ofChars_word hne hletters hnext', ih hrest]
    | doubleSlash => rw [chars, List.cons_append, List.cons_append, List.nil_append,
        ofChars_slashes, ih h]
    | mark c =>
      obtain ⟨hc, hslash, hrest⟩ := h
      rw [chars, List.cons_append, List.nil_append, ofChars_mark hc hslash, ih hrest]

def Visible (t : Token) : Prop := ∀ c ∈ t.chars, Text.isBlank c = false

theorem visible_word {letters : List Char} (h : ∀ c ∈ letters, c.isAlphanum = true) :
    (word letters).Visible :=
  fun c hc => Text.isBlank_of_isAlphanum (h c hc)

theorem visible_mark {c : Char} (h : Text.isBlank c = false) : (mark c).Visible := by
  intro x hx
  rw [List.mem_singleton.mp hx]
  exact h

/-- The text of the tokens of a text is the text itself. -/
theorem flatMap_chars_ofChars (cs : List Char) : (ofChars cs).flatMap chars = cs := by
  fun_induction ofChars cs with
  | case1 => rfl
  | case2 cs ih => rw [List.flatMap_cons, ih]; rfl
  | case3 c cs hnot hc ih =>
    have hcons : ∀ ts : List Token, (consLetter c ts).flatMap chars = c :: ts.flatMap chars := by
      intro ts
      unfold consLetter
      split <;> rfl
    rw [hcons, ih]
  | case4 c cs hnot hc ih => rw [List.flatMap_cons, ih]; rfl

theorem mem_of_mark_mem {c : Char} {cs : List Char} (h : mark c ∈ ofChars cs) : c ∈ cs := by
  have hmem : c ∈ (ofChars cs).flatMap chars :=
    List.mem_flatMap.mpr ⟨_, h, List.mem_singleton_self c⟩
  rwa [flatMap_chars_ofChars] at hmem

theorem apart_consLetter {c : Char} (hc : c.isAlphanum = true) {ts : List Token} (h : Apart ts) :
    Apart (consLetter c ts) := by
  have hone : ∀ c' ∈ [c], c'.isAlphanum = true := fun c' hc' => List.mem_singleton.mp hc' ▸ hc
  match ts with
  | word letters :: ts =>
    obtain ⟨-, hletters, hnext, hrest⟩ := h
    refine ⟨List.cons_ne_nil c letters, fun c' hc' => ?_, hnext, hrest⟩
    obtain rfl | hc' := List.mem_cons.mp hc'
    · exact hc
    · exact hletters c' hc'
  | [] | doubleSlash :: _ | mark _ :: _ => exact ⟨List.cons_ne_nil c [], hone, True.intro, h⟩

/-- The tokens of a text are apart. -/
theorem apart_ofChars (cs : List Char) : Apart (ofChars cs) := by
  fun_induction ofChars cs with
  | case1 => exact True.intro
  | case2 cs ih => exact ih
  | case3 c cs hnot hc ih => exact apart_consLetter hc ih
  | case4 c cs hnot hc ih =>
    refine ⟨Bool.eq_false_iff.mpr hc, fun hslash hhead => ?_, ih⟩
    rw [flatMap_chars_ofChars] at hhead
    obtain ⟨cs', rfl⟩ := List.head?_eq_some_iff.mp hhead
    exact hnot cs' hslash rfl

theorem Apart.of_append {ts us : List Token} (h : Apart (ts ++ us)) : Apart us := by
  induction ts with
  | nil => exact h
  | cons t ts ih =>
    cases t with
    | word _ => exact ih h.2.2.2
    | doubleSlash => exact ih h
    | mark _ => exact ih h.2.2

/-- A word is a run of letters and digits. -/
theorem Apart.word_mem {ts : List Token} (h : Apart ts) {letters : List Char}
    (hmem : word letters ∈ ts) : letters ≠ [] ∧ ∀ c ∈ letters, c.isAlphanum = true := by
  obtain ⟨us, vs, rfl⟩ := List.append_of_mem hmem
  obtain ⟨hne, hletters, -⟩ := h.of_append
  exact ⟨hne, hletters⟩

theorem Apart.append_mark {ts us : List Token} {c : Char} (hts : Apart ts)
    (hus : Apart (mark c :: us)) (hslash : c ≠ '/') : Apart (ts ++ mark c :: us) := by
  induction ts with
  | nil => exact hus
  | cons t ts ih =>
    cases t with
    | word letters =>
      obtain ⟨hne, hletters, hnext, hrest⟩ := hts
      refine ⟨hne, hletters, ?_, ih hrest⟩
      cases ts with
      | nil => exact True.intro
      | cons t ts => cases t <;> exact hnext
    | doubleSlash => exact ih hts
    | mark c' =>
      obtain ⟨hc', hslash', hrest⟩ := hts
      refine ⟨hc', fun heq => ?_, ih hrest⟩
      have hfirst := hslash' heq
      change ((ts ++ mark c :: us).flatMap chars).head? ≠ some '/'
      rw [List.flatMap_append, List.head?_append]
      cases hhead : (ts.flatMap chars).head? with
      | none => exact fun h => hslash (Option.some.inj h)
      | some x => rwa [hhead] at hfirst

/-- A text can be cut at a character that is a token of its own. -/
theorem ofChars_append_mark {c : Char} (hc : c.isAlphanum = false) (hslash : c ≠ '/')
    (cs ds : List Char) : ofChars (cs ++ c :: ds) = ofChars cs ++ mark c :: ofChars ds := by
  have hapart : Apart (ofChars cs ++ mark c :: ofChars ds) :=
    (apart_ofChars cs).append_mark (apart_mark hc hslash (apart_ofChars ds)) hslash
  have hread := ofChars_flatMap_chars hapart
  rw [List.flatMap_append, List.flatMap_cons, flatMap_chars_ofChars, flatMap_chars_ofChars] at hread
  exact hread

end MixComputer.Source.Token
