import Modula.Proofs.Scan.Delimited
import Modula.Symbol.Scan

/-!
# What spells a symbol

A symbol is recognized by its first characters (`Recognized`). The characters that it takes are the next characters of
the text, and there is at least one of them: `Spells` says so of a scanned symbol, and `symbolAt_spells` shows it of
every symbol that the scanner finds. No such symbol is the end of the input, which alone has no characters.
-/

set_option autoImplicit false

namespace Modula.Scan

/-- A text starts with the characters of a spelling, of which there is at least one. -/
def Spells (spelling cs : List Char) : Prop := spelling ≠ [] ∧ spelling <+: cs

/-! ## Words, numbers and special symbols -/

/-- A word is an identifier or a reserved word. -/
theorem word_token (rules : ScanRules) (cs : List Char) :
    (word rules cs).1 = .ident ∨ (word rules cs).1.reservedWord?.isSome = true := by
  simp only [word]
  cases h : Token.ofReservedWord? (String.ofList (cs.takeWhile (isWordChar rules))) with
  | none => exact .inl rfl
  | some t =>
    have hfound : t.reservedWord? = some (String.ofList (cs.takeWhile (isWordChar rules))) := by
      simpa using List.find?_some h
    exact .inr (by simp [hfound])

/-- A word is an identifier or reserved, and nothing else. -/
theorem word_ne (rules : ScanRules) (cs : List Char) {t : Token} (hident : t ≠ .ident)
    (hreserved : t.reservedWord? = none) : (word rules cs).1 ≠ t := by
  rintro rfl
  obtain htoken | htoken := word_token rules cs
  · exact hident htoken
  · rw [hreserved] at htoken
    cases htoken

/-- A number is a literal, perhaps a malformed one. -/
theorem number_ne (rules : ScanRules) (cs : List Char) {t : Token}
    (ht : t ∉ [.integer, .real, .char, .malformedInteger, .malformedReal]) : (number rules cs).1 ≠ t := by
  have htoken : (number rules cs).1 ∈ [.integer, .real, .char, .malformedInteger, .malformedReal] := by
    unfold number suffixed fraction exponent
    grind
  rintro rfl
  exact ht htoken

/-- A special symbol is no identifier, no character code, no string and no pragma. -/
theorem special_ne (rules : ScanRules) (cs : List Char) {t : Token} (ht : t ∈ [.ident, .char, .malformedString, .pragma]) :
    (special rules cs).1 ≠ t := by
  have htoken : (special rules cs).1 ∉ [.ident, .char, .malformedString, .pragma] := by
    unfold special
    split <;> first | (split <;> simp) | simp
  rintro rfl
  exact htoken ht

/-- A character that starts no symbol starts none whatever comes after it, and is taken alone. -/
theorem special_unknown {rules : ScanRules} {c : Char} {rest : List Char}
    (h : (special rules (c :: rest)).1 = .unknown) (rest' : List Char) :
    special rules (c :: rest') = (.unknown, [c]) := by
  generalize hcs : c :: rest = cs at h
  unfold special at h
  split at h
  case h_5 => split at h <;> cases h
  case h_6 | h_7 =>
    obtain ⟨rfl, rfl⟩ := List.cons.inj hcs
    have hsynonyms : rules.synonyms = false := by
      cases hsynonyms : rules.synonyms with
      | false => rfl
      | true => simp [hsynonyms] at h
    simp [special, hsynonyms]
  case h_28 =>
    subst hcs
    apply special.eq_28
    -- a character that starts some symbol is known after every text
    all_goals
      intro tail heq
      obtain ⟨rfl, -⟩ := List.cons.inj heq
      solve_by_elim
  all_goals cases h

/-- A word is spelled by the characters that come next, and there is at least one. -/
theorem word_spells (rules : ScanRules) (c : Char) (rest : List Char) (hc : c.isAlpha = true) :
    (word rules (c :: rest)).1 ≠ .eof ∧ Spells (word rules (c :: rest)).2 (c :: rest) := by
  refine ⟨word_ne rules _ (by simp) rfl, ?_, List.takeWhile_prefix _⟩
  simp [word, isWordChar, Char.isAlphanum, hc]

/-- Two runs of characters, each the start of what is left, make up a start of the text. -/
theorem append_prefix {a b cs : List Char} (ha : a <+: cs) (hb : b <+: cs.drop a.length) : a ++ b <+: cs := by
  obtain ⟨tail, rfl⟩ := ha
  rw [List.drop_left] at hb
  exact List.prefix_append_right_inj a |>.mpr hb

/-- An exponent is spelled by what comes next. -/
theorem exponent_spelling (cs : List Char) : (exponent cs).1 ≠ .eof ∧ (exponent cs).2 <+: cs := by
  refine ⟨?_, append_prefix (List.take_prefix _ cs) (List.takeWhile_prefix _)⟩
  simp only [exponent]
  generalize List.isEmpty _ = none
  cases none <;> simp

/-- So is a fraction. -/
theorem fraction_spelling (cs : List Char) : (fraction cs).1 ≠ .eof ∧ (fraction cs).2 <+: cs := by
  have hdigits : cs.takeWhile Char.isDigit <+: cs := List.takeWhile_prefix _
  unfold fraction
  dsimp only
  split
  · next rest hrest =>
    have hexp := exponent_spelling rest
    refine ⟨hexp.1, append_prefix hdigits ?_⟩
    rw [hrest]
    exact (List.prefix_cons_inj 'E').mpr hexp.2
  · exact ⟨by simp, hdigits⟩

/-- A suffix never stands for the end of the input. -/
theorem suffixed_ne_eof (rules : ScanRules) (digits : List Char) : suffixed rules digits ≠ .eof := by
  simp only [suffixed]
  split
  · split <;> simp
  · simp

/-- A number is spelled by the characters that come next, and there is at least one. -/
theorem number_spells (rules : ScanRules) (c : Char) (rest : List Char) (hc : c.isDigit = true) :
    (number rules (c :: rest)).1 ≠ .eof ∧ Spells (number rules (c :: rest)).2 (c :: rest) := by
  have hdigits : (c :: rest).takeWhile isHexDigit <+: c :: rest := List.takeWhile_prefix _
  have hne : (c :: rest).takeWhile isHexDigit ≠ [] := by simp [isHexDigit, hc]
  unfold number
  generalize (c :: rest).takeWhile isHexDigit = digits at hdigits hne
  dsimp only
  split
  · next tail htail =>
    refine ⟨by simp, by simp, append_prefix hdigits ?_⟩
    rw [htail]
    exact (List.prefix_cons_inj 'H').mpr (List.nil_prefix)
  · split
    · split
      · exact ⟨by simp, hne, hdigits⟩
      · next tail _ htail =>
        have hfraction := fraction_spelling tail
        refine ⟨hfraction.1, by simp, append_prefix hdigits ?_⟩
        rw [htail]
        exact (List.prefix_cons_inj '.').mpr hfraction.2
      · exact ⟨by simp, hne, hdigits⟩
    · exact ⟨suffixed_ne_eof rules digits, hne, hdigits⟩

/-- So is a special symbol. -/
theorem special_spells (rules : ScanRules) (c : Char) (rest : List Char) :
    (special rules (c :: rest)).1 ≠ .eof ∧ Spells (special rules (c :: rest)).2 (c :: rest) := by
  generalize hcs : c :: rest = cs
  have hne : cs ≠ [] := by simp [← hcs]
  unfold special Spells
  -- one case for each spelling; under the synonyms `<>`, `&` and `~` a second one for the option
  split
  case h_5 | h_6 | h_7 => cases rules.synonyms <;> simp
  case h_28 => exact ⟨by simp, by simpa using hne, List.take_prefix 1 _⟩
  all_goals simp

/-! ## Symbols -/

/-- How the symbol at the next characters is recognized: as a string or a pragma by what opens it, as a word by a letter,
as a number by a digit, and otherwise as a special symbol. -/
inductive Recognized (rules : ScanRules) (p : Position) : Char → List Char → Delimited → Prop
  | string {quote : Char} {rest : List Char} (hquote : quote = '\'' ∨ quote = '"') :
      Recognized rules p quote rest (string rules p quote rest)
  | pragma {rest : List Char} : Recognized rules p '<' ('*' :: rest) (pragma p rest)
  | word {c : Char} {rest : List Char} (hc : c.isAlpha = true) :
      Recognized rules p c rest
        ⟨(word rules (c :: rest)).1, (word rules (c :: rest)).2, faults p (word rules (c :: rest))⟩
  | number {c : Char} {rest : List Char} (hc : c.isDigit = true) :
      Recognized rules p c rest
        ⟨(number rules (c :: rest)).1, (number rules (c :: rest)).2, faults p (number rules (c :: rest))⟩
  | special {c : Char} {rest : List Char} :
      Recognized rules p c rest
        ⟨(special rules (c :: rest)).1, (special rules (c :: rest)).2, faults p (special rules (c :: rest))⟩

/-- What is read at a character is recognized in one of five ways. -/
theorem recognized_symbolAt (rules : ScanRules) (p : Position) (c : Char) (rest : List Char) :
    Recognized rules p c rest (symbolAt rules p c rest) := by
  unfold symbolAt
  split
  · next hquote => exact .string hquote
  · split
    · next hpragma =>
      obtain ⟨rfl, hstar⟩ := hpragma
      obtain ⟨tail, rfl⟩ : ∃ tail, rest = '*' :: tail := List.head?_eq_some_iff.mp hstar
      exact .pragma
    · dsimp only
      split
      · next hc => exact .word hc
      · split
        · next hc => exact .number hc
        · exact .special

/-- Every symbol but the end of the input is spelled by one character or more, the next ones of the text. -/
theorem symbolAt_spells (rules : ScanRules) (p : Position) (c : Char) (rest : List Char) :
    (symbolAt rules p c rest).token ≠ .eof ∧ Spells (symbolAt rules p c rest).spelling (c :: rest) := by
  have hsymbol := recognized_symbolAt rules p c rest
  generalize symbolAt rules p c rest = found at hsymbol ⊢
  cases hsymbol with
  | string hquote =>
    obtain ⟨body, closing, after, stray, ending, rfl, hstring, -⟩ := string_parts rules p c rest
    rw [hstring]
    refine ⟨?_, by simp, after, by simp⟩
    dsimp only
    split <;> simp
  | @pragma rest =>
    obtain ⟨content, after, rfl, -, hpragma⟩ | hpragma := pragma_parts p rest
    · rw [hpragma]
      exact ⟨by simp, by simp, after, by simp⟩
    · rw [hpragma]
      exact ⟨by simp, by simp, List.prefix_refl _⟩
  | word hc => exact word_spells rules c rest hc
  | number hc => exact number_spells rules c rest hc
  | special => exact special_spells rules c rest

end Modula.Scan
