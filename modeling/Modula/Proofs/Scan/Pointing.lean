import Modula.Proofs.Scan.Complaints
import Modula.Proofs.Scan.Lossless

/-!
# Where diagnostics point

A diagnostic points at what it names: at its position the text begins with the offending lexeme, or with what opened
the comment, pragma or string that went wrong (`Diagnostic.PointsIn`). Every symbol stands where it says, and so does
every lexical fault (`Scan.Reads.points`). What is listed with a symbol is told by the symbol and the text around it
(`Scan.Reads.told`).
-/

set_option autoImplicit false

namespace Modula

/-- A part of a text stands at a position: the text begins with it there. -/
def StandsAt (text : List Char) (p : Position) (part : List Char) : Prop :=
  ∃ before after, text = before ++ part ++ after ∧ p = placeAfter before

/-- What a diagnostic names in the text. A diagnostic about a missing part names nothing. -/
def Diagnostic.Names (d : Diagnostic) (part : List Char) : Prop :=
  match d.code with
  | .unexpectedToken | .missingSuffix | .missingExponent | .identTooLong | .closingIdentMismatch =>
    d.lexeme = some (String.ofList part)
  | .invalidCharacter => ∃ c, d.character = some c ∧ part = [c]
  | .invalidEscape => ∃ c, d.character = some c ∧ part = ['\\', c]
  | .unclosedComment | .commentTooDeep => part = ['(', '*']
  | .unclosedPragma => part = ['<', '*']
  | .newlineInString | .unclosedString => part = ['\''] ∨ part = ['"']
  | .semicolonAfterFields | .semicolonAfterParameters | .semicolonAfterStatements => part = [';']
  | _ => part = []

/-- At the position of a diagnostic stands what it names; if that is the end of the input, the position is the end of the
text. Only the diagnostic about a disabled section has no position. -/
def Diagnostic.PointsIn (text : List Char) (d : Diagnostic) : Prop :=
  d.code = .disabledSection ∧ d.position = none ∨
    ∃ p part, d.position = some p ∧ d.Names part ∧ StandsAt text p part ∧
      (d.token = some .eof → part = [] ∧ p = placeAfter text)

/-- A symbol stands where it says. -/
structure Symbol.StandsIn (text : List Char) (s : Symbol) : Prop where
  stands : StandsAt text s.position s.lexeme.toList
  eof : s.token = .eof → s.lexeme = "" ∧ s.position = placeAfter text
  semicolon : s.token = .semicolon → s.lexeme = ";"

/-- A symbol stands where it says, and its faults point at what they name. -/
structure Scanned.PointsIn (text : List Char) (u : Scanned) : Prop where
  symbol : u.symbol.StandsIn text
  faults : ∀ d ∈ u.faults, d.PointsIn text

/-- From a position on, a text goes on with these characters. -/
def TextFrom (text : List Char) (p : Position) (rest : List Char) : Prop :=
  ∃ before, text = before ++ rest ∧ p = placeAfter before

variable {text rest part : List Char} {p : Position}

/-- Behind a run the rest of the text goes on. -/
theorem TextFrom.afterAll {run : List Char} (h : TextFrom text p (run ++ rest)) :
    TextFrom text (p.afterAll run) rest := by
  obtain ⟨before, rfl, rfl⟩ := h
  exact ⟨before ++ run, by simp, afterAll_placeAfter before run⟩

/-- So it does behind a character. -/
theorem TextFrom.after {c : Char} (h : TextFrom text p (c :: rest)) : TextFrom text (p.after c) rest := by
  have hrun : TextFrom text p ([c] ++ rest) := h
  exact hrun.afterAll

/-- What comes first in the rest of a text stands at its position. -/
theorem TextFrom.stands (h : TextFrom text p rest) (hpart : part <+: rest) : StandsAt text p part := by
  obtain ⟨before, rfl, rfl⟩ := h
  obtain ⟨after, rfl⟩ := hpart
  exact ⟨before, after, by simp, rfl⟩

/-- Where nothing is left, the text ends. -/
theorem TextFrom.at_end (h : TextFrom text p []) : p = placeAfter text := by
  obtain ⟨before, rfl, rfl⟩ := h
  simp

/-- A diagnostic that is not about a token points at what it names. -/
theorem Diagnostic.pointsIn {d : Diagnostic} (hp : d.position = some p) (htoken : d.token = none) (hnames : d.Names part)
    (hstands : StandsAt text p part) : d.PointsIn text :=
  .inr ⟨p, part, hp, hnames, hstands, by simp [htoken]⟩

/-- That a source line is shown does not matter. -/
theorem Diagnostic.pointsIn_sourceLine {d : Diagnostic} {line : Option String} :
    Diagnostic.PointsIn text { d with sourceLine := line } ↔ d.PointsIn text := Iff.rfl

namespace Scan

variable {rules : ScanRules} {s s' : Source} {before : List Diagnostic} {found : Scanned} {d : Diagnostic}

/-! ## Faults -/

/-- A fault in a gap points at what it is about. -/
theorem GapFault.pointsIn (h : GapFault p rest d) (hp : TextFrom text p rest) : d.PointsIn text := by
  cases h with
  | disabled => exact .inl ⟨rfl, rfl⟩
  | comment h =>
    obtain ⟨code, front, hcode, ⟨tail, rfl⟩, rfl⟩ := h
    rw [List.append_assoc] at hp
    refine Diagnostic.pointsIn rfl rfl ?_ (hp.afterAll.stands (List.prefix_append ['(', '*'] tail))
    obtain rfl | rfl := hcode <;> rfl

/-- So does a fault in a string. -/
theorem StringContent.pointsIn {quote : Char} {escapes : Bool} {after body : List Char} {stray : List Diagnostic}
    (h : StringContent quote escapes after p body stray) (hp : TextFrom text p (body ++ after)) :
    ∀ d ∈ stray, d.PointsIn text := by
  induction h with
  | nil | last => simp
  | plain _ _ _ next ih => exact ih hp.after
  | escape _ _ next ih => exact ih hp.after.after
  | @stray p e body stray hescapes hnext hknown hline next ih =>
    intro d hd
    obtain rfl | hd := List.mem_cons.mp hd
    · obtain ⟨others, hothers⟩ := List.head?_eq_some_iff.mp hnext
      rw [List.cons_append, hothers] at hp
      exact Diagnostic.pointsIn rfl rfl ⟨e, rfl, rfl⟩ (hp.stands ⟨others, rfl⟩)
    · exact ih hp.after d hd

/-- What is reported of a symbol points at the symbol, at what opens it, or at a place in it. -/
theorem Complaints.pointsIn {u : Symbol} {after : List Char} {own : List Diagnostic} (h : Complaints rules u after own)
    (hp : TextFrom text u.position (u.lexeme.toList ++ after))
    (hpragma : u.token = .pragma → ['<', '*'] <+: u.lexeme.toList) : ∀ d ∈ own, d.PointsIn text := by
  have hstands : StandsAt text u.position u.lexeme.toList := hp.stands (List.prefix_append _ _)
  cases h with
  | @character c htoken hlexeme =>
    rw [hlexeme] at hstands
    exact List.forall_mem_singleton.mpr (Diagnostic.pointsIn rfl rfl ⟨c, rfl, rfl⟩ hstands)
  | integer | real | ident =>
    exact List.forall_mem_singleton.mpr (Diagnostic.pointsIn rfl rfl (by simp [Diagnostic.Names, Diagnostic.ofLexeme]) hstands)
  | @string quote body closing stray ending htoken hquote hlexeme hbody hend hsome =>
    rw [hlexeme, List.cons_append, List.append_assoc] at hp
    refine List.forall_mem_append.mpr ⟨hbody.pointsIn hp.after, ?_⟩
    have hopens : StandsAt text u.position [quote] := hp.stands ⟨_, rfl⟩
    cases hend with
    | quote => simp
    | line | text =>
      refine List.forall_mem_singleton.mpr (Diagnostic.pointsIn rfl rfl ?_ hopens)
      obtain rfl | rfl := hquote <;> simp [Diagnostic.Names, Diagnostic.atPosition]
  | pragma htoken hafter =>
    exact List.forall_mem_singleton.mpr
      (Diagnostic.pointsIn rfl rfl rfl (hp.stands ((hpragma htoken).trans (List.prefix_append _ _))))
  | none => simp

/-! ## Semicolons and pragmas -/

/-- Only one character makes a semicolon. -/
theorem special_semicolon (rules : ScanRules) (cs : List Char) (h : (special rules cs).1 = .semicolon) :
    (special rules cs).2 = [';'] := by
  unfold special at h ⊢
  split at h <;> first | rfl | (split at h <;> cases h) | cases h

/-- A semicolon is spelled in one way. -/
theorem Recognized.semicolon {c : Char} {found : Delimited} (h : Recognized rules p c rest found)
    (hfound : found.token = .semicolon) : found.spelling = [';'] := by
  cases h with
  | string hquote => exact (string_ne rules p c rest (by simp) (by simp) hfound).elim
  | pragma => simp [pragma_token] at hfound
  | word hc => exact (word_ne rules _ (by simp) rfl hfound).elim
  | number hc => exact (number_ne rules _ (by simp) hfound).elim
  | special => exact special_semicolon rules _ hfound

/-- A pragma starts with its opening. -/
theorem Recognized.pragma_opens {c : Char} {found : Delimited} (h : Recognized rules p c rest found)
    (hfound : found.token = .pragma) : ['<', '*'] <+: found.spelling := by
  cases h with
  | string hquote => exact (string_ne rules p c rest (by simp) (by simp) hfound).elim
  | @pragma rest =>
    obtain ⟨content, after, -, -, hpragma⟩ | hpragma := pragma_parts p rest
    all_goals
      rw [hpragma]
      exact ⟨_, rfl⟩
  | word hc => exact (word_ne rules _ (by simp) rfl hfound).elim
  | number hc => exact (number_ne rules _ (by simp) hfound).elim
  | special => exact (special_ne rules _ (by simp) hfound).elim

/-! ## Texts -/

/-- So a semicolon that is found is spelled like one. -/
theorem Finds.semicolon (h : Finds rules s before found s') (hfound : found.symbol.token = .semicolon) :
    found.symbol.lexeme = ";" := by
  obtain ⟨c, rest, own, -, hsymbol⟩ := h.recognized (by simp [hfound])
  exact String.toList_inj.mp (hsymbol.semicolon hfound)

/-- A pragma that is found starts with its opening mark. -/
theorem Finds.pragma_opens (h : Finds rules s before found s') (hfound : found.symbol.token = .pragma) :
    ['<', '*'] <+: found.symbol.lexeme.toList := by
  obtain ⟨c, rest, own, -, hsymbol⟩ := h.recognized (by simp [hfound])
  exact hsymbol.pragma_opens hfound

/-- The text from a symbol on, where it is given from the place on at which the symbol was looked for. -/
theorem Splits.textFrom {u : Symbol} (h : Splits s u s') (heof : u.token ≠ .eof)
    (hs : TextFrom text s.position s.rest) : TextFrom text u.position (u.lexeme.toList ++ s'.rest) := by
  obtain ⟨gap, spelling, hsplit, -, -, hposition, hlexeme, -⟩ := h.of_ne_eof heof
  rw [hsplit, List.append_assoc] at hs
  rw [hposition, hlexeme, String.toList_ofList]
  exact hs.afterAll

/-- All faults of a symbol point at what they name, those in the gap before it too. -/
theorem Finds.faults_point (h : Finds rules s [] found s') (hs : TextFrom text s.position s.rest) :
    ∀ d ∈ found.faults, d.PointsIn text := by
  obtain ⟨gap, own, hfaults, hgap, hown⟩ := h.complaints
  rw [hfaults, List.reverse_nil, List.nil_append]
  refine List.forall_mem_append.mpr ⟨fun d hd => (hgap d hd).pointsIn hs, ?_⟩
  by_cases heof : found.symbol.token = .eof
  · simp [hown.eq_nil (by simp [heof])]
  · exact hown.pointsIn (h.splits.textFrom heof hs) h.pragma_opens

/-- A symbol that is found stands where it says. -/
theorem Finds.standsIn (h : Finds rules s before found s') (hs : TextFrom text s.position s.rest) :
    found.symbol.StandsIn text := by
  by_cases heof : found.symbol.token = .eof
  · obtain ⟨hfound, -⟩ := h.splits.of_eof heof
    have hend : TextFrom text (s.position.afterAll s.rest) [] := TextFrom.afterAll (by simpa using hs)
    rw [hfound]
    exact ⟨hend.stands (List.prefix_refl _), fun _ => ⟨rfl, hend.at_end⟩, nofun⟩
  · refine ⟨?_, fun hfound => (heof hfound).elim, h.semicolon⟩
    exact (h.splits.textFrom heof hs).stands (List.prefix_append _ _)

/-- What holds of each symbol that is found in a text holds of all symbols that are read from a place in it on. -/
theorem Reads.forall_found {found : List Scanned} {P : Scanned → Prop} (h : Reads rules s found)
    (hs : TextFrom text s.position s.rest)
    (hP : ∀ {s s' : Source} {u : Scanned}, Finds rules s [] u s' → TextFrom text s.position s.rest → P u) :
    ∀ u ∈ found, P u := by
  induction h with
  | last hfinds heof => simpa using hP hfinds hs
  | @more s s' found others hfinds heof less next ih =>
    obtain ⟨gap, spelling, hsplit, -, -, -, -, hposition', -⟩ := hfinds.splits.of_ne_eof heof
    have hrest : TextFrom text s'.position s'.rest := by
      rw [hposition']
      rw [hsplit] at hs
      exact hs.afterAll
    exact List.forall_mem_cons.mpr ⟨hP hfinds hs, ih hrest⟩

/-- All symbols of a text are where they say, and so is what their faults are about. -/
theorem Reads.points {found : List Scanned} (h : Reads rules s found) (hs : TextFrom text s.position s.rest) :
    ∀ u ∈ found, u.PointsIn text :=
  h.forall_found hs fun hfinds hs => ⟨hfinds.standsIn hs, hfinds.faults_point hs⟩

/-! ## What is told of a symbol -/

/-- A symbol stands in a text, and listed with it are faults of the gap before it and then its own, which the text after
it tells. -/
structure Told (rules : ScanRules) (text : List Char) (u : Scanned) (own : List Diagnostic) : Prop where
  faults : ∃ gap, u.faults = gap ++ own ∧ ∀ d ∈ gap, d.code.ofGap = true
  complaints : ∃ before after, text = before ++ u.symbol.lexeme.toList ++ after ∧
    u.symbol.position = placeAfter before ∧ Complaints rules u.symbol after own

/-- What is found has faults of its gap and faults of its own. -/
theorem Finds.told (h : Finds rules s [] found s') (hs : TextFrom text s.position s.rest) :
    ∃ own, Told rules text found own := by
  obtain ⟨gap, own, hfaults, hgap, hown⟩ := h.complaints
  refine ⟨own, ⟨gap, hfaults, fun d hd => (hgap d hd).ofGap⟩, ?_⟩
  by_cases heof : found.symbol.token = .eof
  · obtain rfl := hown.eq_nil (by simp [heof])
    obtain ⟨hlexeme, hposition⟩ := (h.standsIn hs).eof heof
    exact ⟨text, [], by simp [hlexeme], hposition, .none (by simp [heof]) (by simp [heof])⟩
  · obtain ⟨before, htext, hposition⟩ := h.splits.textFrom heof hs
    exact ⟨before, s'.rest, by rw [htext, List.append_assoc], hposition, hown⟩

/-- What is listed with the symbols of a text is told by them and by the text. -/
theorem Reads.told {found : List Scanned} (h : Reads rules s found) (hs : TextFrom text s.position s.rest) :
    ∀ u ∈ found, ∃ own, Told rules text u own :=
  h.forall_found hs fun hfinds hs => hfinds.told hs

end Scan

end Modula
