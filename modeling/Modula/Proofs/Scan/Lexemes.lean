import Modula.Proofs.Scan.Insertion

/-!
# The lexemes of tokens

The texts that spell each token, written down as a grammar (`Lexeme`): words, numbers, strings, pragmas and special
symbols, with what each option adds. Every symbol that is found without errors is spelled by one of these texts
(`Recognized.lexeme`), and each of these texts is taken for the symbol that it spells (`Lexeme.symbolAt_eq`).
-/

set_option autoImplicit false

namespace Modula.Scan

/-! ## The grammar -/

/-- At least one character, all of a kind. -/
def IsRun (kind : Char → Prop) (cs : List Char) : Prop := cs ≠ [] ∧ ∀ c ∈ cs, kind c

/-- A digit in base ten. -/
def IsDecimal (c : Char) : Prop := '0' ≤ c ∧ c ≤ '9'

/-- A digit in base eight. -/
def IsOctal (c : Char) : Prop := '0' ≤ c ∧ c ≤ '7'

/-- A digit in base sixteen, with letters in upper case. -/
def IsHexadecimal (c : Char) : Prop := IsDecimal c ∨ 'A' ≤ c ∧ c ≤ 'F'

/-- The exponent of a real number, if it has one. -/
inductive Scale : List Char → Prop
  | none : Scale []
  | exponent {sign digits : List Char} (hsign : sign = [] ∨ sign = ['+'] ∨ sign = ['-'])
      (hdigits : IsRun IsDecimal digits) : Scale ('E' :: (sign ++ digits))

/-- What may stand between the quotes of a string in a dialect. Only the extended one knows escape sequences. -/
inductive StringBody (dialect : Dialect) (quote : Char) : List Char → Prop
  | nil : StringBody dialect quote []
  | plain {c : Char} {body : List Char} (hquote : c ≠ quote) (hline : c ≠ '\n') (hescape : dialect = .ext → c ≠ '\\')
      (h : StringBody dialect quote body) : StringBody dialect quote (c :: body)
  | escape {e : Char} {body : List Char} (hdialect : dialect = .ext) (he : e ∈ ['n', 't', '\\', '\'', '"', '0'])
      (h : StringBody dialect quote body) : StringBody dialect quote ('\\' :: e :: body)

/-- The texts that spell a token under some options. -/
inductive Lexeme (o : Options) : Token → List Char → Prop
  /-- A letter and up to 31 letters, digits and lowlines after it that make up no reserved word. -/
  | ident {c : Char} {rest : List Char} (hc : c.isAlpha = true)
      (hrest : ∀ d ∈ rest, d.isAlphanum = true ∨ d = '_' ∧ o.capabilities.lowlineIdentifiers = true)
      (hlength : rest.length ≤ 31) (hword : ∀ t : Token, t.reservedWord? ≠ some (String.ofList (c :: rest))) :
      Lexeme o .ident (c :: rest)
  | reserved {t : Token} {cs : List Char} (h : t.reservedWord? = some (String.ofList cs)) : Lexeme o t cs
  | special {t : Token} {cs : List Char} (h : t.specialSymbol? = some (String.ofList cs)) : Lexeme o t cs
  | ampersand (h : o.capabilities.synonyms = true) : Lexeme o .kwAnd ['&']
  | tilde (h : o.capabilities.synonyms = true) : Lexeme o .kwNot ['~']
  | unequal (h : o.capabilities.synonyms = true) : Lexeme o .notEqual ['<', '>']
  | decimal {digits : List Char} (h : IsRun IsDecimal digits) : Lexeme o .integer digits
  | hexadecimal {c : Char} {digits : List Char} (hc : IsDecimal c) (h : ∀ d ∈ digits, IsHexadecimal d) :
      Lexeme o .integer (c :: (digits ++ ['H']))
  | octal {digits : List Char} (hoctal : o.capabilities.octalLiterals = true) (h : IsRun IsOctal digits) :
      Lexeme o .integer (digits ++ ['B'])
  | charCode {digits : List Char} (hoctal : o.capabilities.octalLiterals = true) (h : IsRun IsOctal digits) :
      Lexeme o .char (digits ++ ['C'])
  | real {whole fraction scale : List Char} (hwhole : IsRun IsDecimal whole)
      (hfraction : ∀ d ∈ fraction, IsDecimal d) (hscale : Scale scale) :
      Lexeme o .real (whole ++ '.' :: (fraction ++ scale))
  | string {quote : Char} {body : List Char} (hquote : quote = '\'' ∨ quote = '"')
      (h : StringBody o.dialect quote body) : Lexeme o .string (quote :: (body ++ [quote]))
  /-- A pragma ends with the first closing after its opening. -/
  | pragma {content : List Char} (h : ¬['*', '>'] <:+: content ++ ['*']) :
      Lexeme o .pragma ('<' :: '*' :: (content ++ ['*', '>']))

variable {rules : ScanRules} {o : Options} {p : Position}

/-! ## Classes of characters -/

/-- Decimal digits are those of the specification. -/
theorem isDigit_iff {c : Char} : c.isDigit = true ↔ IsDecimal c := by
  simp only [Char.isDigit, Bool.and_eq_true, decide_eq_true_eq]
  rfl

/-- So are octal digits. -/
theorem isOctalDigit_iff {c : Char} : isOctalDigit c = true ↔ IsOctal c := by simp [isOctalDigit, IsOctal]

/-- So are hexadecimal digits. -/
theorem isHexDigit_iff {c : Char} : isHexDigit c = true ↔ IsHexadecimal c := by
  simp [isHexDigit, IsHexadecimal, isDigit_iff]

/-- Lowlines are characters of words if the capability says so. -/
theorem isWordChar_iff {c : Char} : isWordChar o.scanRules c = true ↔
    c.isAlphanum = true ∨ c = '_' ∧ o.capabilities.lowlineIdentifiers = true := by
  simp [isWordChar, Options.scanRules]

/-- Only the extended dialect has escapes in strings. -/
theorem escapes_scanRules : o.scanRules.escapes = true ↔ o.dialect = .ext := by simp [Options.scanRules]

/-- A decimal digit is a hexadecimal one. -/
theorem isHexDigit_of_isDigit {c : Char} (h : c.isDigit = true) : isHexDigit c = true := by simp [isHexDigit, h]

/-- An octal digit is a decimal one. -/
theorem IsOctal.isDecimal {c : Char} (h : IsOctal c) : IsDecimal c := ⟨h.1, Char.le_trans h.2 (by decide)⟩

/-- A run of decimal digits has nothing else. -/
theorem IsRun.isDigit {cs : List Char} (h : IsRun IsDecimal cs) : ∀ c ∈ cs, c.isDigit = true :=
  fun c hc => isDigit_iff.mpr (h.2 c hc)

/-- A digit is no letter. -/
theorem not_isAlpha_of_isDigit {c : Char} (h : c.isDigit = true) : c.isAlpha = false := by
  simp only [Char.isDigit, Bool.and_eq_true, decide_eq_true_eq, UInt32.le_iff_toNat_le, ge_iff_le] at h
  change (decide ('A'.val ≤ c.val ∧ c.val ≤ 'Z'.val) || decide ('a'.val ≤ c.val) && decide (c.val ≤ 'z'.val)) = false
  simp [UInt32.le_iff_toNat_le] at h ⊢
  omega

/-! ## Every symbol without errors is spelled by a lexeme -/

/-- A word that is not too long is a lexeme. -/
theorem lexeme_word {c : Char} {rest : List Char} (hc : c.isAlpha = true)
    (h : Faultless (faults p (word o.scanRules (c :: rest)))) :
    Lexeme o (word o.scanRules (c :: rest)).1 (word o.scanRules (c :: rest)).2 := by
  generalize hrules : o.scanRules = rules at h ⊢
  have hwordChar : isWordChar rules c = true := by simp [isWordChar, Char.isAlphanum, hc]
  have hspelling : (word rules (c :: rest)).2 = c :: rest.takeWhile (isWordChar rules) := by
    simp [word, hwordChar]
  have htoken : (word rules (c :: rest)).1 =
      (Token.ofReservedWord? (String.ofList (c :: rest.takeWhile (isWordChar rules)))).getD .ident := by
    simp [word, hwordChar]
  cases hfound : Token.ofReservedWord? (String.ofList (c :: rest.takeWhile (isWordChar rules))) with
  | none =>
    rw [hfound, Option.getD_none] at htoken
    have hlength : (c :: rest.takeWhile (isWordChar rules)).length ≤ maxIdentLength := by
      by_contra hlong
      have hspelled : word rules (c :: rest) = (.ident, c :: rest.takeWhile (isWordChar rules)) :=
        Prod.ext htoken hspelling
      rw [hspelled, faults, if_pos (by omega)] at h
      cases h _ (List.mem_singleton_self _)
    rw [htoken, hspelling]
    have hwordChars : ∀ d ∈ rest.takeWhile (isWordChar rules), isWordChar o.scanRules d = true := fun d hd => by
      rw [hrules]
      exact List.mem_takeWhile_imp hd
    refine .ident hc (fun d hd => isWordChar_iff.mp (hwordChars d hd)) (Nat.le_of_lt_succ hlength) fun t ht => ?_
    have hnone := List.find?_eq_none.mp hfound t (Token.mem_all t)
    simp [ht] at hnone
  | some t =>
    rw [hfound, Option.getD_some] at htoken
    have ht : t.reservedWord? = some (String.ofList (c :: rest.takeWhile (isWordChar rules))) := by
      simpa using List.find?_some hfound
    rw [htoken, hspelling]
    exact .reserved ht

/-- An exponent is well-formed if it has digits. -/
theorem exponent_scale (cs : List Char) :
    (exponent cs).1 = .malformedReal ∨ (exponent cs).1 = .real ∧ Scale ('E' :: (exponent cs).2) := by
  have hrun : ∀ ds : List Char, (ds.takeWhile Char.isDigit).isEmpty = false →
      IsRun IsDecimal (ds.takeWhile Char.isDigit) := by
    intro ds hne
    exact ⟨by simpa using hne, fun c hc => isDigit_iff.mp (List.mem_takeWhile_imp hc)⟩
  by_cases hsign : cs.head? = some '+' ∨ cs.head? = some '-'
  · obtain ⟨c, tail, rfl, hc⟩ : ∃ c tail, cs = c :: tail ∧ (c = '+' ∨ c = '-') := by
      cases cs with
      | nil => simp at hsign
      | cons c tail => exact ⟨c, tail, rfl, by simpa using hsign⟩
    rw [exponent_signed hc]
    cases hdigits : (tail.takeWhile Char.isDigit).isEmpty with
    | true => exact .inl rfl
    | false =>
      refine .inr ⟨rfl, ?_⟩
      have hone : [c] = [] ∨ [c] = ['+'] ∨ [c] = ['-'] := by simpa using hc
      exact .exponent hone (hrun tail hdigits)
  · rw [exponent_unsigned hsign]
    cases hdigits : (cs.takeWhile Char.isDigit).isEmpty with
    | true => exact .inl rfl
    | false => exact .inr ⟨rfl, .exponent (.inl rfl) (hrun cs hdigits)⟩

/-- A fraction is well-formed if it has no exponent or a well-formed one. -/
theorem fraction_scale (cs : List Char) :
    (fraction cs).1 = .malformedReal ∨ (fraction cs).1 = .real ∧
      ∃ digits scale : List Char, (fraction cs).2 = digits ++ scale ∧ (∀ d ∈ digits, IsDecimal d) ∧ Scale scale := by
  obtain ⟨rest, hcs, hrun, hrest⟩ := takeWhile_after Char.isDigit cs
  generalize cs.takeWhile Char.isDigit = run at hcs hrun
  subst hcs
  rw [fraction_append hrun hrest]
  have hdecimal : ∀ d ∈ run, IsDecimal d := fun d hd => isDigit_iff.mp (hrun d hd)
  unfold fractionAfter
  split
  · next tail =>
    obtain hbad | ⟨htoken, hscale⟩ := exponent_scale tail
    · exact .inl hbad
    · exact .inr ⟨htoken, run, _, rfl, hdecimal, hscale⟩
  · exact .inr ⟨rfl, run, [], by simp, hdecimal, .none⟩

/-- Octal digits with a suffix; all else that is neither decimal nor followed by the suffix of base sixteen is
malformed. -/
theorem lexeme_suffixed (o : Options) (digits : List Char) :
    suffixed o.scanRules digits = .malformedInteger ∨ Lexeme o (suffixed o.scanRules digits) digits := by
  unfold suffixed
  dsimp only
  split
  · next hoctal =>
    simp only [Bool.and_eq_true, Bool.not_eq_true', List.all_eq_true, List.isEmpty_eq_false_iff] at hoctal
    obtain ⟨⟨hliterals, hne⟩, hall⟩ := hoctal
    have hrun : IsRun IsOctal digits.dropLast := ⟨hne, fun d hd => isOctalDigit_iff.mp (hall d hd)⟩
    have hsplit : ∀ c, digits.getLast? = some c → digits.dropLast ++ [c] = digits := by
      intro c hc
      exact List.dropLast_append_getLast? c hc
    split
    · next hlast =>
      refine .inr ?_
      have hlexeme : Lexeme o .integer (digits.dropLast ++ ['B']) := .octal hliterals hrun
      rwa [hsplit _ hlast] at hlexeme
    · next hlast =>
      refine .inr ?_
      have hlexeme : Lexeme o .char (digits.dropLast ++ ['C']) := .charCode hliterals hrun
      rwa [hsplit _ hlast] at hlexeme
    · exact .inl rfl
  · exact .inl rfl

/-- A number that is not malformed is a lexeme. -/
theorem lexeme_number {c : Char} {rest : List Char} (hc : c.isDigit = true)
    (h : Faultless (faults p (number o.scanRules (c :: rest)))) :
    Lexeme o (number o.scanRules (c :: rest)).1 (number o.scanRules (c :: rest)).2 := by
  have hinteger : ∀ digits, ¬Faultless (faults p (.malformedInteger, digits)) := by
    intro digits hfaultless
    cases hfaultless _ (List.mem_singleton_self _)
  have hreal : ∀ digits, ¬Faultless (faults p (.malformedReal, digits)) := by
    intro digits hfaultless
    cases hfaultless _ (List.mem_singleton_self _)
  obtain ⟨after, hsplit, hall, hafter⟩ := takeWhile_after isHexDigit (c :: rest)
  have hfirst : (c :: rest).takeWhile isHexDigit = c :: rest.takeWhile isHexDigit := by
    simp [isHexDigit_of_isDigit hc]
  rw [hfirst] at hsplit hall
  generalize rest.takeWhile isHexDigit = run at hsplit hall
  rw [hsplit, number_append o.scanRules hall hafter] at h ⊢
  by_cases hH : after.head? = some 'H'
  · obtain ⟨tail, rfl⟩ := List.head?_eq_some_iff.mp hH
    exact .hexadecimal (isDigit_iff.mp hc) fun d hd => isHexDigit_iff.mp (hall d (by simp [hd]))
  by_cases hpoint : (c :: run).all Char.isDigit = true → after.head? = some '.' → ['.', '.'] <+: after
  · rw [numberAfter_stops o.scanRules hH hpoint] at h ⊢
    cases hdecimal : (c :: run).all Char.isDigit with
    | true => exact .decimal ⟨by simp, fun d hd => isDigit_iff.mp (List.all_eq_true.mp hdecimal d hd)⟩
    | false =>
      rw [hdecimal, if_neg (by simp)] at h
      obtain hbad | hlexeme := lexeme_suffixed o (c :: run)
      · rw [hbad] at h
        exact (hinteger _ h).elim
      · exact hlexeme
  · push Not at hpoint
    obtain ⟨hdigits, hhead, hpoints⟩ := hpoint
    obtain ⟨tail, rfl⟩ := List.head?_eq_some_iff.mp hhead
    have htail : tail.head? ≠ some '.' := by
      intro hsecond
      obtain ⟨others, rfl⟩ := List.head?_eq_some_iff.mp hsecond
      exact hpoints ⟨others, rfl⟩
    rw [numberAfter_point o.scanRules hdigits htail] at h ⊢
    obtain hbad | ⟨htoken, digits, scale, hspelling, hfraction, hscale⟩ := fraction_scale tail
    · rw [hbad] at h
      exact (hreal _ h).elim
    · rw [htoken, hspelling]
      have hwhole : ∀ d ∈ c :: run, IsDecimal d := fun d hd => isDigit_iff.mp (List.all_eq_true.mp hdigits d hd)
      exact .real ⟨by simp, hwhole⟩ hfraction hscale

/-- A special symbol that is known is a lexeme. -/
theorem lexeme_special {cs : List Char} (h : (special o.scanRules cs).1 ≠ .unknown) :
    Lexeme o (special o.scanRules cs).1 (special o.scanRules cs).2 := by
  generalize hspelled : special o.scanRules cs = spelled at h ⊢
  unfold special at hspelled
  -- one case for each spelling; the synonyms have a second one for the option
  split at hspelled
  case h_5 =>
    subst hspelled
    split
    · next hsynonyms => exact .unequal hsynonyms
    · exact .special rfl
  case h_6 =>
    subst hspelled
    by_cases hsynonyms : o.scanRules.synonyms = true
    · rw [if_pos hsynonyms]
      exact .ampersand hsynonyms
    · simp [hsynonyms] at h
  case h_7 =>
    subst hspelled
    by_cases hsynonyms : o.scanRules.synonyms = true
    · rw [if_pos hsynonyms]
      exact .tilde hsynonyms
    · simp [hsynonyms] at h
  case h_28 =>
    subst hspelled
    exact (h rfl).elim
  all_goals
    subst hspelled
    exact .special rfl

/-- What stands between the quotes of a string, where nothing is reported of it, is what may stand there. -/
theorem StringContent.body {quote : Char} {after body : List Char} {stray : List Diagnostic} (hquote : quote ≠ '\n')
    (h : StringContent quote o.scanRules.escapes (quote :: after) p body stray) (hstray : stray = []) :
    StringBody o.dialect quote body := by
  induction h with
  | nil => exact .nil
  | plain hother hline hescape next ih =>
    exact .plain hother hline (fun hdialect => hescape (escapes_scanRules.mpr hdialect)) (ih hstray)
  | escape hescapes hknown next ih =>
    exact .escape (escapes_scanRules.mp hescapes) (by simpa [isEscapable] using hknown) (ih hstray)
  | stray => cases hstray
  | last hescapes hafter => simp [hquote] at hafter

/-- What may stand between the quotes of a string is its content, of which nothing is reported. -/
theorem StringBody.content {quote : Char} {body : List Char} (h : StringBody o.dialect quote body)
    (after : List Char) (p : Position) : StringContent quote o.scanRules.escapes after p body [] := by
  induction h generalizing p with
  | nil => exact .nil
  | plain hother hline hescape h ih =>
    exact .plain hother hline (fun hescapes => hescape (escapes_scanRules.mp hescapes)) (ih _)
  | escape hdialect he h ih =>
    exact .escape (escapes_scanRules.mpr hdialect) (by simpa [isEscapable] using he) (ih _)

/-- A character that starts no symbol is an error. -/
theorem known_of_faultless {p : Position} {spelled : Spelled} (h : Faultless (faults p spelled))
    (hne : spelled.2 ≠ []) : spelled.1 ≠ .unknown := by
  obtain ⟨token, spelling⟩ := spelled
  rintro rfl
  obtain ⟨c, others, rfl⟩ := List.exists_cons_of_ne_nil hne
  have hfault := h (.ofCharacter .invalidCharacter p c) (by simp [faults])
  cases hfault

/-- A symbol without errors is spelled by a lexeme of its token. -/
theorem Recognized.lexeme {c : Char} {rest : List Char} {found : Delimited}
    (h : Recognized o.scanRules p c rest found) (hfaults : Faultless found.faults) :
    Lexeme o found.token found.spelling := by
  cases h with
  | string hquote =>
    obtain ⟨body, closing, after, stray, ending, -, hstring, hbody, hend⟩ := string_parts o.scanRules p c rest
    rw [hstring] at hfaults ⊢
    have hnone := hbody.eq_nil_of_faultless hend hfaults
    dsimp only
    rw [if_pos hnone]
    obtain ⟨hstray, rfl⟩ := List.append_eq_nil_iff.mp hnone
    have hline : c ≠ '\n' := by obtain rfl | rfl := hquote <;> decide
    cases hend with
    | quote => exact .string hquote (hbody.body hline hstray)
  | @pragma rest =>
    obtain ⟨content, after, -, hcontent, hpragma⟩ | hpragma := pragma_parts p rest
    · rw [hpragma]
      exact .pragma hcontent
    · cases hfaults (.atPosition .unclosedPragma p) (by simp [hpragma])
  | word hc => exact lexeme_word hc hfaults
  | number hc => exact lexeme_number hc hfaults
  | special => exact lexeme_special (known_of_faultless hfaults (special_spells o.scanRules c rest).2.1)

/-- A symbol without faults that is found in a text is spelled as its token says. -/
theorem Finds.lexeme {s s' : Source} {before : List Diagnostic} {u : Scanned} (h : Finds o.scanRules s before u s')
    (heof : u.symbol.token ≠ .eof) (hfaults : Faultless u.faults) :
    Lexeme o u.symbol.token u.symbol.lexeme.toList := by
  obtain ⟨c, rest, own, hown, hsymbol⟩ := h.recognized heof
  exact hsymbol.lexeme fun d hd => hfaults d (hown hd)

/-! ## Every lexeme is taken for what it spells -/

/-- A letter with characters of words after it is a word, reserved or not. -/
theorem word_lexeme {c : Char} {rest : List Char} (hc : c.isAlpha = true)
    (hrest : ∀ d ∈ rest, isWordChar rules d = true) :
    word rules (c :: rest) = ((Token.ofReservedWord? (String.ofList (c :: rest))).getD .ident, c :: rest) := by
  have hall : ∀ d ∈ c :: rest, isWordChar rules d = true := by
    intro d hd
    obtain rfl | hd := List.mem_cons.mp hd
    · simp [isWordChar, Char.isAlphanum, hc]
    · exact hrest d hd
  have htake : (c :: rest).takeWhile (isWordChar rules) = c :: rest := List.takeWhile_eq_self_iff.mpr hall
  simp only [word, htake]

/-- The words that are reserved consist of letters, and no two of them are the same. -/
theorem reservedWord_letters : ∀ t ∈ Token.all, ∀ w ∈ t.reservedWord?,
    Token.ofReservedWord? w = some t ∧ w.toList.all Char.isAlpha = true ∧ w.toList.isEmpty = false := by
  decide

/-- What starts with a letter or a digit is a word or a number. -/
theorem symbolAt_alphanum {spelled : Spelled} {c : Char} {rest : List Char} (hc : c.isAlphanum = true)
    (hspelled : spelledAt rules c rest = spelled) (hfaults : faults p spelled = []) :
    symbolAt rules p c rest = ⟨spelled.1, spelled.2, []⟩ := by
  have hquote : ¬(c = '\'' ∨ c = '"') := by rintro (rfl | rfl) <;> cases hc
  have hpragma : ¬(c = '<' ∧ rest.head? = some '*') := by
    rintro ⟨rfl, -⟩
    cases hc
  subst hspelled
  rw [symbolAt, if_neg hquote, if_neg hpragma, ← hfaults]
  rfl

/-- A letter starts a word. -/
theorem symbolAt_alpha {t : Token} {c : Char} {rest : List Char} (hc : c.isAlpha = true)
    (hword : word rules (c :: rest) = (t, c :: rest)) (hfaults : faults p (t, c :: rest) = []) :
    symbolAt rules p c rest = ⟨t, c :: rest, []⟩ :=
  symbolAt_alphanum (by simp [Char.isAlphanum, hc]) (by rw [spelledAt, if_pos hc, hword]) hfaults

/-- A digit starts a number. -/
theorem symbolAt_digit {t : Token} {c : Char} {rest : List Char} (hc : c.isDigit = true)
    (hnumber : number rules (c :: rest) = (t, c :: rest)) (hfaults : faults p (t, c :: rest) = []) :
    symbolAt rules p c rest = ⟨t, c :: rest, []⟩ := by
  have halpha : ¬c.isAlpha = true := by simp [not_isAlpha_of_isDigit hc]
  exact symbolAt_alphanum (by simp [Char.isAlphanum, hc]) (by rw [spelledAt, if_neg halpha, if_pos hc, hnumber]) hfaults

/-- A run of digits in base sixteen at the end of the text is decimal or has a suffix. -/
theorem number_run (rules : ScanRules) {digits : List Char} (h : ∀ d ∈ digits, isHexDigit d = true) :
    number rules digits = (if digits.all Char.isDigit then .integer else suffixed rules digits, digits) := by
  have happend : number rules (digits ++ []) = numberAfter rules digits [] := number_append rules h rfl
  rw [List.append_nil] at happend
  rw [happend, numberAfter_stops rules (by simp) (by simp)]

/-- Hexadecimal digits with their suffix are an integer. -/
theorem number_hexadecimal {digits : List Char} (h : ∀ d ∈ digits, isHexDigit d = true) :
    number rules (digits ++ ['H']) = (.integer, digits ++ ['H']) := by
  have hstop : ['H'].takeWhile isHexDigit = [] := by decide
  rw [number_append rules h hstop]
  rfl

/-- Octal digits with a suffix are what the suffix says. -/
theorem number_suffixed {digits : List Char} (suffix : Char) (hrules : rules.octalLiterals = true)
    (h : IsRun IsOctal digits) (hsuffix : suffix = 'B' ∨ suffix = 'C') :
    number rules (digits ++ [suffix]) = (if suffix = 'B' then .integer else .char, digits ++ [suffix]) := by
  have hall : ∀ d ∈ digits ++ [suffix], isHexDigit d = true := by
    intro d hd
    obtain hd | hd := List.mem_append.mp hd
    · exact isHexDigit_of_isDigit (isDigit_iff.mpr (h.2 d hd).isDecimal)
    · obtain rfl := List.mem_singleton.mp hd
      obtain rfl | rfl := hsuffix <;> decide
  have hletter : (digits ++ [suffix]).all Char.isDigit = false := by
    rw [List.all_append]
    obtain rfl | rfl := hsuffix <;> simp
  have hoctal : digits.all isOctalDigit = true := List.all_eq_true.mpr fun d hd => isOctalDigit_iff.mpr (h.2 d hd)
  rw [number_run rules hall, hletter, if_neg (by simp)]
  simp only [suffixed, List.dropLast_concat, List.getLast?_concat, hrules, hoctal]
  obtain rfl | rfl := hsuffix <;> simp [h.1]

/-- An exponent is read with its sign. -/
theorem exponent_lexeme {sign digits : List Char} (hsign : sign = [] ∨ sign = ['+'] ∨ sign = ['-'])
    (hdigits : IsRun IsDecimal digits) : exponent (sign ++ digits) = (.real, sign ++ digits) := by
  have htake : digits.takeWhile Char.isDigit = digits := List.takeWhile_eq_self_iff.mpr hdigits.isDigit
  have hsome : (digits.takeWhile Char.isDigit).isEmpty = false := by
    rw [htake]
    simpa using hdigits.1
  obtain rfl | rfl | rfl := hsign
  · have hunsigned : ¬(digits.head? = some '+' ∨ digits.head? = some '-') := by
      rintro (hhead | hhead)
      · cases hdigits.isDigit '+' (List.mem_of_mem_head? hhead)
      · cases hdigits.isDigit '-' (List.mem_of_mem_head? hhead)
    rw [List.nil_append, exponent_unsigned hunsigned, hsome, htake]
    rfl
  · rw [List.singleton_append, exponent_signed (.inl rfl), hsome, htake]
    rfl
  · rw [List.singleton_append, exponent_signed (.inr rfl), hsome, htake]
    rfl

/-- A fraction is read with its exponent, if it has one. -/
theorem fraction_lexeme {digits scale : List Char} (hdecimal : ∀ d ∈ digits, IsDecimal d) (hscale : Scale scale) :
    fraction (digits ++ scale) = (.real, digits ++ scale) := by
  have hdigits : ∀ d ∈ digits, d.isDigit = true := fun d hd => isDigit_iff.mpr (hdecimal d hd)
  cases hscale with
  | none =>
    rw [fraction_append hdigits rfl]
    simp [fractionAfter]
  | @exponent sign run hsign hrun =>
    have hstop : ('E' :: (sign ++ run)).takeWhile Char.isDigit = [] := by simp
    rw [fraction_append hdigits hstop, fractionAfter, exponent_lexeme hsign hrun]

/-- A point with digits or nothing after it makes a number real. -/
theorem number_real (rules : ScanRules) {whole digits scale : List Char} (hwhole : IsRun IsDecimal whole)
    (hdigits : ∀ d ∈ digits, IsDecimal d) (hscale : Scale scale) :
    number rules (whole ++ '.' :: (digits ++ scale)) = (.real, whole ++ '.' :: (digits ++ scale)) := by
  have hhex : ∀ d ∈ whole, isHexDigit d = true := fun d hd => isHexDigit_of_isDigit (hwhole.isDigit d hd)
  have hstop : ('.' :: (digits ++ scale)).takeWhile isHexDigit = [] := by simp [isHexDigit]
  have hpoint : (digits ++ scale).head? ≠ some '.' := by
    intro hhead
    cases digits with
    | nil =>
      rw [List.nil_append] at hhead
      cases hscale <;> cases hhead
    | cons d digits =>
      obtain rfl := Option.some.inj hhead
      cases isDigit_iff.mpr (hdigits '.' (by simp))
  rw [number_append rules hhex hstop, numberAfter_point rules (List.all_eq_true.mpr hwhole.isDigit) hpoint,
    fraction_lexeme hdigits hscale]

/-- Every special symbol is read as it is spelled. -/
theorem special_lexeme (rules : ScanRules) (p : Position) {t : Token} {w : String}
    (h : t.specialSymbol? = some w) :
    ∃ c rest, w.toList = c :: rest ∧ symbolAt rules p c rest = ⟨t, c :: rest, []⟩ := by
  cases t <;> cases h
  all_goals exact ⟨_, _, rfl, rfl⟩

/-- A lexeme is taken for the token that it spells, without faults. -/
theorem Lexeme.symbolAt_eq {t : Token} {c : Char} {rest : List Char} (h : Lexeme o t (c :: rest)) (p : Position) :
    symbolAt o.scanRules p c rest = ⟨t, c :: rest, []⟩ := by
  generalize hcs : c :: rest = cs at h
  cases h with
  | @ident c' rest' hc hrest hlength hword =>
    obtain ⟨rfl, rfl⟩ := List.cons.inj hcs
    have hnone : Token.ofReservedWord? (String.ofList (c :: rest)) = none := by
      refine List.find?_eq_none.mpr fun t _ ht => hword t ?_
      simpa using ht
    have hspelled := word_lexeme hc fun d hd => isWordChar_iff.mpr (hrest d hd)
    rw [hnone, Option.getD_none] at hspelled
    have hshort : ¬maxIdentLength < (c :: rest).length := by
      rw [List.length_cons, maxIdentLength]
      omega
    exact symbolAt_alpha hc hspelled (by rw [faults, if_neg hshort])
  | @reserved t' cs' hword =>
    subst hcs
    obtain ⟨hfound, hletters, -⟩ := reservedWord_letters t (Token.mem_all t) _ hword
    simp only [String.toList_ofList, List.all_cons, Bool.and_eq_true, List.all_eq_true] at hletters
    have hrest : ∀ d ∈ rest, isWordChar o.scanRules d = true := fun d hd => by
      simp [isWordChar, Char.isAlphanum, hletters.2 d hd]
    have hspelled := word_lexeme hletters.1 hrest
    rw [hfound, Option.getD_some] at hspelled
    refine symbolAt_alpha hletters.1 hspelled ?_
    cases t <;> first | rfl | cases hword
  | @special t' cs' hspecial =>
    subst hcs
    obtain ⟨c', rest', hcs, hsymbol⟩ := special_lexeme o.scanRules p hspecial
    rw [String.toList_ofList] at hcs
    obtain ⟨rfl, rfl⟩ := List.cons.inj hcs
    exact hsymbol
  | ampersand hsynonyms | tilde hsynonyms | unequal hsynonyms =>
    cases hcs
    have hrules : o.scanRules.synonyms = true := hsynonyms
    simp [symbolAt, Scan.special, hrules, faults]
  | @decimal digits hdigits =>
    subst hcs
    have hall : (c :: rest).all Char.isDigit = true := List.all_eq_true.mpr hdigits.isDigit
    have hnumber := number_run o.scanRules fun d hd => isHexDigit_of_isDigit (hdigits.isDigit d hd)
    rw [hall, if_pos rfl] at hnumber
    exact symbolAt_digit (hdigits.isDigit c (by simp)) hnumber rfl
  | @hexadecimal c' digits hc hdigits =>
    obtain ⟨rfl, rfl⟩ := List.cons.inj hcs
    have hall : ∀ d ∈ c :: digits, isHexDigit d = true := by
      intro d hd
      obtain rfl | hd := List.mem_cons.mp hd
      · exact isHexDigit_of_isDigit (isDigit_iff.mpr hc)
      · exact isHexDigit_iff.mpr (hdigits d hd)
    exact symbolAt_digit (isDigit_iff.mpr hc) (number_hexadecimal hall) rfl
  | @octal digits hliterals hdigits =>
    have hrules : o.scanRules.octalLiterals = true := hliterals
    have hnumber := number_suffixed 'B' hrules hdigits (.inl rfl)
    obtain ⟨d, others, rfl⟩ := List.exists_cons_of_ne_nil hdigits.1
    obtain ⟨rfl, rfl⟩ := List.cons.inj hcs
    exact symbolAt_digit (isDigit_iff.mpr (hdigits.2 c (by simp)).isDecimal) hnumber rfl
  | @charCode digits hliterals hdigits =>
    have hrules : o.scanRules.octalLiterals = true := hliterals
    have hnumber := number_suffixed 'C' hrules hdigits (.inr rfl)
    obtain ⟨d, others, rfl⟩ := List.exists_cons_of_ne_nil hdigits.1
    obtain ⟨rfl, rfl⟩ := List.cons.inj hcs
    exact symbolAt_digit (isDigit_iff.mpr (hdigits.2 c (by simp)).isDecimal) hnumber rfl
  | @real whole digits scale hwhole hdigits hscale =>
    have hnumber := number_real o.scanRules hwhole hdigits hscale
    obtain ⟨d, others, rfl⟩ := List.exists_cons_of_ne_nil hwhole.1
    obtain ⟨rfl, rfl⟩ := List.cons.inj hcs
    exact symbolAt_digit (hwhole.isDigit c (by simp)) hnumber rfl
  | @string quote body hquote hbody =>
    obtain ⟨rfl, rfl⟩ := List.cons.inj hcs
    rw [symbolAt, if_pos hquote]
    exact string_of_parts hquote (hbody.content _ _) .quote
  | @pragma content hcontent =>
    obtain ⟨rfl, rfl⟩ := List.cons.inj hcs
    rw [symbolAt, if_neg (by simp), if_pos ⟨rfl, rfl⟩]
    exact pragma_closed p [] hcontent

end Modula.Scan
