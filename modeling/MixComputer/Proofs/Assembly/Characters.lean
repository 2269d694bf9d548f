import MixComputer.Proofs.Assembly.Diagnostics
import MixComputer.Proofs.Bytes
import MixComputer.Proofs.Source.Line

/-!
Lines of characters. The five characters of an `ALF` become the five bytes of a word, and these are
the same characters again when they are looked up. If one of them is not in the alphabet, the first
such character is reported and nothing is put into memory.
-/
namespace MixComputer

namespace Alphabet

theorem char?_of_code? {c : Char} {code : Byte} (h : code? c = some code) :
    char? code.val = some c := by
  obtain ⟨i, hi, rfl⟩ := Option.map_eq_some_iff.mp h
  obtain ⟨hlt, hget, -⟩ := List.idxOf?_eq_some_iff.mp hi
  have hsmall : i % 64 = i := Nat.mod_eq_of_lt (Nat.lt_trans hlt (by decide))
  rw [Byte.val_ofNat, hsmall, char?, List.getElem?_eq_getElem hlt, hget]

theorem exists_code?_iff {c : Char} : (∃ code, code? c = some code) ↔ c ∈ characters := by
  rw [← Option.isSome_iff_exists, code?, Option.isSome_map, List.isSome_idxOf?]

end Alphabet

namespace Source

/-- What keeps characters apart from their operation: two spaces, or one blank if no other blank
follows. -/
inductive SetsOff (cs : List Char) : List Char → Prop
  | spaces : SetsOff cs (' ' :: ' ' :: cs)
  | blank {c : Char} (hblank : Text.isBlank c = true)
      (hcs : ∀ c ∈ cs.head?, Text.isBlank c = false) : SetsOff cs (c :: cs)

def padded (cs : List Char) : List Char := cs.take 5 ++ List.replicate (5 - cs.length) ' '

@[simp]
theorem length_padded (cs : List Char) : (padded cs).length = 5 := by
  rw [padded, List.length_append, List.length_take, List.length_replicate]
  omega

variable {cs rest : List Char}

theorem SetsOff.endsField (h : SetsOff cs rest) : EndsField rest := by
  cases h with
  | spaces => exact endsField_cons Text.isBlank_space
  | blank hblank hcs => exact endsField_cons hblank

theorem SetsOff.fiveCharacters_eq (h : SetsOff cs rest) :
    fiveCharacters (String.ofList rest) = padded cs := by
  have hpadded : (cs ++ List.replicate 5 ' ').take 5 = padded cs := by
    rw [List.take_append, List.take_replicate, Nat.min_eq_left (Nat.sub_le 5 cs.length), padded]
  cases h with
  | spaces =>
    rw [fiveCharacters, String.toList_ofList]
    exact hpadded
  | @blank c hblank hcs =>
    rw [fiveCharacters, String.toList_ofList]
    split
    · -- Two spaces would make the second one the first of the characters.
      rename_i heq
      obtain ⟨-, rfl⟩ := List.cons.inj heq
      have hspace := hcs ' ' rfl
      rw [Text.isBlank_space] at hspace
      cases hspace
    · rename_i heq
      obtain ⟨rfl, rfl⟩ := List.cons.inj heq
      rw [if_pos hblank]
      exact hpadded
    · rename_i heq
      cases heq

end Source

namespace Assembly

open Source

section Words

variable {cs : List Char}

def codeOf (c : Char) : Byte := (Alphabet.code? c).getD (Byte.ofNat 0)

theorem code?_eq_codeOf {c : Char} (h : c ∈ Alphabet.characters) :
    Alphabet.code? c = some (codeOf c) := by
  obtain ⟨code, hcode⟩ := Alphabet.exists_code?_iff.mpr h
  rw [codeOf, hcode, Option.getD_some]

/-- Characters of the alphabet make a word, and its bytes are their codes. -/
theorem characterWord_of_mem (h : ∀ c ∈ cs, c ∈ Alphabet.characters) :
    characterWord cs = .ok (Word.ofBytes false (cs.map codeOf)) := by
  unfold characterWord
  rw [mapM_eq_ok (g := codeOf) fun c hc => by rw [code?_eq_codeOf (h c hc)]]
  rfl

theorem characterWord_of_not_mem {before after : List Char} {c : Char}
    (hbefore : ∀ b ∈ before, b ∈ Alphabet.characters) (hc : c ∉ Alphabet.characters) :
    characterWord (before ++ c :: after) = .error (.badCharacter c) := by
  have hnone : Alphabet.code? c = none := by
    cases hcode : Alphabet.code? c with
    | none => rfl
    | some code => exact absurd (Alphabet.exists_code?_iff.mp ⟨code, hcode⟩) hc
  unfold characterWord
  rw [mapM_eq_error (g := codeOf) (fun b hb => by rw [code?_eq_codeOf (hbefore b hb)])
    (by rw [hnone])]
  rfl

theorem mem_padded (h : ∀ c ∈ cs.take 5, c ∈ Alphabet.characters) :
    ∀ c ∈ padded cs, c ∈ Alphabet.characters := by
  intro c hc
  rcases List.mem_append.mp hc with htaken | hspace
  · exact h c htaken
  · rw [List.eq_of_mem_replicate hspace]
    decide

/-- If there is a character outside the alphabet, there is a first one. -/
theorem exists_first_bad (h : ¬ ∀ c ∈ cs, c ∈ Alphabet.characters) :
    ∃ before c after, cs = before ++ c :: after ∧
      (∀ b ∈ before, b ∈ Alphabet.characters) ∧ c ∉ Alphabet.characters := by
  have hsome : (cs.find? fun c => decide (c ∉ Alphabet.characters)).isSome := by
    simpa using h
  obtain ⟨c, hc⟩ := Option.isSome_iff_exists.mp hsome
  obtain ⟨hbad, before, after, hsplit, hbefore⟩ := List.find?_eq_some_iff_append.mp hc
  exact ⟨before, c, after, hsplit, fun b hb => by simpa using hbefore b hb,
    of_decide_eq_true hbad⟩

/-- The bytes of such a word are looked up as the characters. -/
theorem map_char?_bytes (h : ∀ c ∈ cs, c ∈ Alphabet.characters) (hlength : cs.length = 5) :
    (Word.ofBytes false (cs.map codeOf)).bytes.map (fun b => Alphabet.char? b.val) =
      cs.map some := by
  rw [Word.bytes_ofBytes false (by rw [List.length_map, hlength]), List.map_map]
  exact List.map_congr_left fun c hc => Alphabet.char?_of_code? (code?_eq_codeOf (h c hc))

end Words

namespace Draft

section Line

variable {text : String} {cs rest : List Char}

theorem parseLine_characters (htext : text.toList = " ALF".toList ++ rest)
    (hrest : EndsField rest) :
    isComment text = false ∧
      ∃ operand, parseLine text =
        .ok (⟨none, "ALF", operand, String.ofList rest⟩, .directive .characters) := by
  have hfields : text.toList =
      ((none : Option String).getD "").toList ++ [' '] ++ "ALF".toList ++ rest := htext
  have hoperation : IsField "ALF".toList :=
    ⟨by decide, fun c hc => Text.isBlank_of_isAlphanum (List.all_eq_true.mp (by decide) c hc)⟩
  refine ⟨isComment_of_fields hfields nofun isGap_space hoperation,
    String.ofList (nextField rest).1, ?_⟩
  unfold parseLine
  rw [ofText?_of_fields hfields nofun isGap_space hoperation hrest]
  rfl

variable (htext : text.toList = " ALF".toList ++ rest) (hrest : SetsOff cs rest)
  (d : Draft) (line : Nat)

include htext hrest

theorem readLine_of_characterWord_error {error : Error}
    (h : characterWord (padded cs) = .error error) :
    d.readLine text line = (d, .error error) := by
  obtain ⟨-, operand, hparse⟩ := parseLine_characters htext hrest.endsField
  unfold readLine
  simp only [hparse, obey, defineLabel, attemptBoth, charactersWord, hrest.fiveCharacters_eq, h]
  rfl

theorem readLine_of_characterWord_ok {w : Word} (h : characterWord (padded cs) = .ok w)
    (hroom : d.location < d.memory.size) :
    d.readLine text line =
      ({ d with memory := d.memory.write d.location w, location := d.location + 1 },
        .ok false) := by
  obtain ⟨-, operand, hparse⟩ := parseLine_characters htext hrest.endsField
  have hput : d.put (w, .nothing) = .ok
      { d with memory := d.memory.write d.location w, location := d.location + 1 } :=
    put_eq_ok_iff.mpr ⟨hroom, rfl⟩
  have hword : (charactersWord (String.ofList rest) >>= d.put) = .ok
      { d with memory := d.memory.write d.location w, location := d.location + 1 } := by
    unfold charactersWord
    rw [hrest.fiveCharacters_eq, h]
    exact hput
  unfold readLine
  simp only [hparse, obey, defineLabel, attemptBoth, hword, attempt]
  rfl

theorem readLine_of_mem (h : ∀ c ∈ cs.take 5, c ∈ Alphabet.characters)
    (hroom : d.location < d.memory.size) :
    ∃ w, w.negative = false ∧
      w.bytes.map (fun b => Alphabet.char? b.val) = (padded cs).map some ∧
      d.readLine text line =
        ({ d with memory := d.memory.write d.location w, location := d.location + 1 },
          .ok false) := by
  have hpadded := mem_padded h
  refine ⟨_, rfl, map_char?_bytes hpadded (length_padded cs), ?_⟩
  exact readLine_of_characterWord_ok htext hrest d line (characterWord_of_mem hpadded) hroom

theorem readLine_of_not_mem (h : ¬ ∀ c ∈ cs.take 5, c ∈ Alphabet.characters) :
    ∃ before c after, cs.take 5 = before ++ c :: after ∧
      (∀ b ∈ before, b ∈ Alphabet.characters) ∧ c ∉ Alphabet.characters ∧
      d.readLine text line = (d, .error (.badCharacter c)) := by
  obtain ⟨before, c, after, hsplit, hbefore, hc⟩ := exists_first_bad h
  refine ⟨before, c, after, hsplit, hbefore, hc, ?_⟩
  refine readLine_of_characterWord_error htext hrest d line ?_
  rw [padded, hsplit, List.append_assoc, List.cons_append]
  exact characterWord_of_not_mem hbefore hc

end Line

/-- An `ALF` for which there is room is obeyed if and only if its five characters are in the
alphabet. The word is positive then, and its bytes are looked up as the characters, with spaces for
those that are missing. Otherwise the first character that is not in the alphabet is reported, and
the draft is as it was but for the report; in a program it is in the diagnostics of the line. -/
theorem takeLine_characters {d : Draft} {text : String} {cs rest : List Char}
    (htext : text.toList = " ALF".toList ++ rest) (hrest : SetsOff cs rest)
    (hroom : d.location < d.memory.size) (line : Nat) :
    ((∃ d' last, d.readLine text line = (d', .ok last)) ↔
        ∀ c ∈ cs.take 5, c ∈ Alphabet.characters) ∧
      ((∀ c ∈ cs.take 5, c ∈ Alphabet.characters) →
        ∃ w, w.negative = false ∧
          w.bytes.map (fun b => Alphabet.char? b.val) = (padded cs).map some ∧
          d.takeLine text line =
            ({ d with memory := d.memory.write d.location w, location := d.location + 1 },
              false)) ∧
      (¬ (∀ c ∈ cs.take 5, c ∈ Alphabet.characters) →
        ∃ before c after, cs.take 5 = before ++ c :: after ∧
          (∀ b ∈ before, b ∈ Alphabet.characters) ∧ c ∉ Alphabet.characters ∧
          d.takeLine text line = (d.report line .error (.badCharacter c), false) ∧
          ∀ size program k, (start size).draftAt? 1 (Text.lines program) k = some d →
            (Text.lines program)[k]? = some text → line = 1 + k →
            ⟨line, text, .error, .badCharacter c⟩ ∈ (assemble size program).diagnostics) := by
  obtain ⟨hcomment, -⟩ := parseLine_characters htext hrest.endsField
  refine ⟨⟨fun hread => ?_, fun h => ?_⟩, fun h => ?_, fun h => ?_⟩
  · by_contra h
    obtain ⟨d', last, hok⟩ := hread
    obtain ⟨before, c, after, -, -, -, herror⟩ := readLine_of_not_mem htext hrest d line h
    rw [hok] at herror
    cases herror
  · obtain ⟨w, -, -, hread⟩ := readLine_of_mem htext hrest d line h hroom
    exact ⟨_, false, hread⟩
  · obtain ⟨w, hpositive, hbytes, hread⟩ := readLine_of_mem htext hrest d line h hroom
    refine ⟨w, hpositive, hbytes, ?_⟩
    simp only [takeLine, hcomment, Bool.false_eq_true, if_false, hread]
  · obtain ⟨before, c, after, hsplit, hbefore, hc, hread⟩ :=
      readLine_of_not_mem htext hrest d line h
    refine ⟨before, c, after, hsplit, hbefore, hc, takeLine_of_readLine_error hcomment hread, ?_⟩
    rintro size program k hdraft hline rfl
    have houtcome : lineOutcome? size program k = some (.error (.badCharacter c)) :=
      outcomeAt?_eq_some_iff.mpr ⟨d, text, hdraft, hline, hcomment, congrArg Prod.snd hread⟩
    rw [diagnostics_eq_append, Nat.add_comm 1 k]
    refine List.mem_append_left _ (mem_readingDiagnostics.mpr ?_)
    exact ⟨k, text, .badCharacter c, hline, houtcome, rfl⟩

/-- Two characters after a wide blank, and characters that are not all in the alphabet. -/
theorem takeLine_characters_wide :
    (∃ w, w.negative = false ∧
      w.bytes.map (fun b => Alphabet.char? b.val) = "AB   ".toList.map some ∧
      (start 4).takeLine " ALF\u3000AB" 1 =
        ({ start 4 with memory := (start 4).memory.write 0 w, location := 1 }, false)) ∧
    ∃ c ∉ Alphabet.characters,
      ⟨1, " ALF  A#B?", .error, .badCharacter c⟩ ∈ (assemble 4 " ALF  A#B?").diagnostics := by
  have hwide : " ALF\u3000AB".toList = " ALF".toList ++ '\u3000' :: ['A', 'B'] := by decide +kernel
  have hset : SetsOff ['A', 'B'] ('\u3000' :: ['A', 'B']) :=
    .blank (by decide +kernel) fun c hc => by cases hc; decide +kernel
  have hspaces : " ALF  A#B?".toList = " ALF".toList ++ ' ' :: ' ' :: "A#B?".toList := by
    decide +kernel
  have hbad : ¬ ∀ c ∈ "A#B?".toList.take 5, c ∈ Alphabet.characters :=
    fun h => absurd (h '#' (by decide)) (by decide)
  have hlines : Text.lines " ALF  A#B?" = [" ALF  A#B?"] := by decide +kernel
  refine ⟨(takeLine_characters (d := start 4) hwide hset (by decide) 1).2.1 ?_, ?_⟩
  · exact fun c hc => by
      rcases List.mem_cons.mp hc with rfl | hc
      · decide
      · rw [List.mem_singleton.mp hc]
        decide
  · obtain ⟨-, c, -, -, -, hc, -, hreported⟩ :=
      (takeLine_characters (d := start 4) hspaces .spaces (by decide) 1).2.2 hbad
    exact ⟨c, hc, hreported 4 _ 0 rfl (by rw [hlines]; rfl) rfl⟩

end Draft

end Assembly

end MixComputer
