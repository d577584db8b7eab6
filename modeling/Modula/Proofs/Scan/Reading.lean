import Mathlib.Data.List.TakeWhile
import Modula.Proofs.Scan.Gap
import Modula.Proofs.Scan.Spelling

/-!
# Scanning without bounds

The scanner counts its steps so that it is seen to end. Here scanning is a relation that counts nothing: `Finds` skips
gaps and then takes a symbol, `Reads` takes symbols up to the end of the input, and each round of either has to bring
the reading point forward. The scanner does what the relations say from every reading point, so its bounds are never
reached: `finds_symbol` and `reads_symbols`.
-/

set_option autoImplicit false

namespace Modula

namespace Source

/-- An accepted source starts at its text with the line ends normalized. -/
theorem eq_ofNormalized {filename text : String} {s : Source} (h : ofText filename text = .ok s) :
    s = ofNormalized filename (LineEnds.normalize text.toList) := by
  unfold ofText at h
  dsimp only at h
  split at h
  · cases h
  · split at h
    · cases h
    · exact (Except.ok.inj h).symm

/-- At its start a source has no more characters left than it has at all. -/
theorem length_rest_le {filename text : String} {s : Source} (h : ofText filename text = .ok s) :
    s.rest.length ≤ s.length := by
  rw [eq_ofNormalized h]
  exact Nat.le_refl _

/-! ## Moving the reading point -/

/-- Advancing drops as many characters. -/
theorem rest_advance (s : Source) (n : Nat) : (s.advance n).rest = s.rest.drop n := by
  induction n generalizing s with
  | zero => rfl
  | succ n ih =>
    rw [advance, ih]
    cases h : s.rest <;> simp [read, h]

/-- The position moves over the characters that are dropped. -/
theorem position_advance (s : Source) (n : Nat) : (s.advance n).position = s.position.afterAll (s.rest.take n) := by
  induction n generalizing s with
  | zero => rfl
  | succ n ih =>
    rw [advance, ih]
    cases h : s.rest <;> simp [read, h, Position.afterAll]

/-- Moving past a run of characters leaves what comes after it. -/
theorem rest_advance_append {s : Source} {run rest : List Char} (h : s.rest = run ++ rest) :
    (s.advance run.length).rest = rest := by
  rw [rest_advance, h, List.drop_left]

/-- So it moves over a run of characters that comes next. -/
theorem position_advance_append {s : Source} {run rest : List Char} (h : s.rest = run ++ rest) :
    (s.advance run.length).position = s.position.afterAll run := by
  rw [position_advance, h, List.take_left]

/-- Advancing does not change how many characters there are at all. -/
theorem length_advance (s : Source) (n : Nat) : (s.advance n).length = s.length := by
  induction n generalizing s with
  | zero => rfl
  | succ n ih =>
    rw [advance, ih]
    cases h : s.rest <;> simp [read, h]

end Source

/-- A position moves over one run after the other. -/
theorem Position.afterAll_append (p : Position) (cs ds : List Char) :
    p.afterAll (cs ++ ds) = (p.afterAll cs).afterAll ds := List.foldl_append

namespace Scan

/-- The source after the layout at its reading point. -/
def skipLayout (s : Source) : Source := s.advance (s.rest.takeWhile isLayout).length

/-- Layout is what is skipped, and nothing else. -/
theorem skipLayout_rest (s : Source) : s.rest = s.rest.takeWhile isLayout ++ (skipLayout s).rest := by
  rw [skipLayout, Source.rest_advance]
  exact (List.prefix_iff_eq_append.mp (List.takeWhile_prefix _)).symm

/-- One symbol is found, after some diagnostics of the gap before it, last one first. Layout is skipped, then the end
of the text, a comment, a disabled section or a symbol comes next; a comment or a section leaves less text than there
was. -/
inductive Finds (rules : ScanRules) : Source → List Diagnostic → Scanned → Source → Prop
  | finish {s : Source} {before : List Diagnostic} (h : (skipLayout s).rest = []) :
      Finds rules s before ⟨.endOfInput (skipLayout s).position, before.reverse⟩ (skipLayout s)
  | comment {s s' : Source} {before : List Diagnostic} {rest : List Char} {found : Scanned}
      (h : (skipLayout s).rest = '(' :: '*' :: rest)
      (less : ((skipLayout s).advance (comment (skipLayout s).position rest).length).rest.length < s.rest.length)
      (next : Finds rules ((skipLayout s).advance (comment (skipLayout s).position rest).length)
        ((comment (skipLayout s).position rest).faults.reverse ++ before) found s') :
      Finds rules s before found s'
  | disabled {s s' : Source} {before : List Diagnostic} {rest : List Char} {found : Scanned}
      (h : (skipLayout s).rest = '?' :: '<' :: rest) (hcolumn : (skipLayout s).position.column = 1)
      (less : ((skipLayout s).advance
        (disabledSection (skipLayout s).position.line ('?' :: '<' :: rest)).length).rest.length < s.rest.length)
      (next : Finds rules
        ((skipLayout s).advance (disabledSection (skipLayout s).position.line ('?' :: '<' :: rest)).length)
        ((disabledSection (skipLayout s).position.line ('?' :: '<' :: rest)).faults.reverse ++ before) found s') :
      Finds rules s before found s'
  | symbol {s : Source} {before : List Diagnostic} {c : Char} {rest : List Char} (h : (skipLayout s).rest = c :: rest)
      (hcomment : ¬ (c = '(' ∧ rest.head? = some '*'))
      (hsection : ¬ (c = '?' ∧ rest.head? = some '<' ∧ (skipLayout s).position.column = 1)) :
      Finds rules s before
        ⟨⟨(symbolAt rules (skipLayout s).position c rest).token,
          String.ofList (symbolAt rules (skipLayout s).position c rest).spelling, (skipLayout s).position⟩,
          before.reverse ++ (symbolAt rules (skipLayout s).position c rest).faults⟩
        ((skipLayout s).advance (symbolAt rules (skipLayout s).position c rest).spelling.length)

/-- The symbols of a text are read one after the other, the end of the input last. Every symbol but that leaves less
text than there was. -/
inductive Reads (rules : ScanRules) : Source → List Scanned → Prop
  | last {s s' : Source} {found : Scanned} (h : Finds rules s [] found s') (heof : found.symbol.token = .eof) :
      Reads rules s [found]
  | more {s s' : Source} {found : Scanned} {others : List Scanned} (h : Finds rules s [] found s')
      (heof : found.symbol.token ≠ .eof) (less : s'.rest.length < s.rest.length) (next : Reads rules s' others) :
      Reads rules s (found :: others)

/-! ## The scanner does what the relations say -/

/-- Skipping layout leaves no more characters. -/
theorem length_skipLayout_le (s : Source) : (skipLayout s).rest.length ≤ s.rest.length := by
  have h := congrArg List.length (skipLayout_rest s)
  rw [List.length_append] at h
  omega

/-- Reading on past a run of the next characters leaves less text, if there is one in the run. -/
theorem length_advance_lt {s t : Source} {skipped rest : List Char} (hs : t.rest = skipped ++ rest)
    (hskipped : skipped ≠ []) (ht : t.rest.length ≤ s.rest.length) :
    (t.advance skipped.length).rest.length < s.rest.length := by
  have hpos : 0 < skipped.length := List.length_pos_iff.mpr hskipped
  rw [Source.rest_advance_append hs]
  rw [hs, List.length_append] at ht
  omega

/-- Skipping a comment leaves less text. -/
theorem length_after_comment_lt {s : Source} {rest : List Char} (h : (skipLayout s).rest = '(' :: '*' :: rest) :
    ((skipLayout s).advance (comment (skipLayout s).position rest).length).rest.length < s.rest.length := by
  obtain ⟨skipped, after, hsplit, hlen, hne, -⟩ := comment_skips (skipLayout s).position rest
  rw [hlen]
  exact length_advance_lt (h.trans hsplit) hne (length_skipLayout_le s)

/-- Skipping a disabled section leaves less text. -/
theorem length_after_disabled_lt {s : Source} {rest : List Char} (h : (skipLayout s).rest = '?' :: '<' :: rest)
    (hcolumn : (skipLayout s).position.column = 1) :
    ((skipLayout s).advance
      (disabledSection (skipLayout s).position.line ('?' :: '<' :: rest)).length).rest.length < s.rest.length := by
  obtain ⟨skipped, after, hsplit, hlen, hne, -⟩ := disabledSection_skips (skipLayout s).position hcolumn rest
  rw [hlen]
  exact length_advance_lt (h.trans hsplit) hne (length_skipLayout_le s)

/-- With steps enough a scan finds a symbol by the rules. -/
theorem finds_symbolWithin (rules : ScanRules) (steps : Nat) (s : Source) (before : List Diagnostic)
    (h : s.rest.length < steps) :
    Finds rules s before (symbolWithin rules steps s before).1 (symbolWithin rules steps s before).2 := by
  induction steps generalizing s before with
  | zero => omega
  | succ steps ih =>
    unfold symbolWithin
    rw [← skipLayout]
    dsimp only
    split
    · next hrest => exact .finish hrest
    · next c rest hrest =>
      split
      · next hcomment =>
        obtain ⟨rfl, hstar⟩ := hcomment
        obtain ⟨tail, rfl⟩ : ∃ tail, rest = '*' :: tail := List.head?_eq_some_iff.mp hstar
        have less := length_after_comment_lt hrest
        exact .comment hrest less (ih _ _ (less.trans_le (Nat.le_of_lt_succ h)))
      · next hcomment =>
        split
        · next hsection =>
          obtain ⟨rfl, hless, hcolumn⟩ := hsection
          obtain ⟨tail, rfl⟩ : ∃ tail, rest = '<' :: tail := List.head?_eq_some_iff.mp hless
          have less := length_after_disabled_lt hrest hcolumn
          exact .disabled hrest hcolumn less (ih _ _ (by omega))
        · next hsection => exact .symbol hrest hcomment hsection

/-- One scan does what the relation says, so its count of steps never runs out. -/
theorem finds_symbol (rules : ScanRules) (s : Source) (h : s.rest.length ≤ s.length) :
    Finds rules s [] (symbol rules s).1 (symbol rules s).2 :=
  finds_symbolWithin rules (s.length + 1) s [] (by omega)

/-! ## What a scan takes -/

/-- What a scan finds: at the end of the text the end of the input, otherwise a gap and then the characters of a
symbol. -/
def Splits (s : Source) (found : Symbol) (s' : Source) : Prop :=
  found = .endOfInput (s.position.afterAll s.rest) ∧ Gap true s.position s.rest ∨
    found.token ≠ .eof ∧ ∃ gap spelling : List Char, s.rest = gap ++ spelling ++ s'.rest ∧ spelling ≠ [] ∧
      Gap false s.position gap ∧ found.position = s.position.afterAll gap ∧ found.lexeme = String.ofList spelling ∧
      s'.position = s.position.afterAll (gap ++ spelling) ∧ s'.length = s.length

/-- A text that can stand at the start of a gap, or is the last thing in the text. -/
def LeadsGap (p : Position) (skipped rest : List Char) : Prop :=
  (∀ (final : Bool) (g : List Char), Gap final (p.afterAll skipped) g → Gap final p (skipped ++ g)) ∨
    rest = [] ∧ Gap true p skipped

/-- Layout leads up to what comes after it. -/
theorem leadsGap_layout (s : Source) : LeadsGap s.position (s.rest.takeWhile isLayout) (skipLayout s).rest :=
  .inl fun _ _ hg => Gap.layout_append (fun _ hc => List.mem_takeWhile_imp hc) hg

/-- What is found after the start of a gap is found with that start included. -/
theorem Splits.of_leadsGap {s s' : Source} {found : Symbol} {skipped rest : List Char} (hs : s.rest = skipped ++ rest)
    (hlead : LeadsGap s.position skipped rest) (h : Splits (s.advance skipped.length) found s') :
    Splits s found s' := by
  unfold Splits at h
  rw [Source.rest_advance_append hs, Source.position_advance_append hs, Source.length_advance] at h
  obtain ⟨hfound, hgap⟩ | ⟨htoken, gap, spelling, hsplit, hne, hgap, hpos, hlexeme, hpos', hlen⟩ := h
  · refine .inl ⟨by rw [hfound, hs, Position.afterAll_append], ?_⟩
    rw [hs]
    obtain hlead | ⟨rfl, hlead⟩ := hlead
    · exact hlead true rest hgap
    · simpa using hlead
  · refine .inr ⟨htoken, skipped ++ gap, spelling, by rw [hs, hsplit]; simp, hne, ?_, ?_, hlexeme, ?_, hlen⟩
    · obtain hlead | ⟨rfl, -⟩ := hlead
      · exact hlead false gap hgap
      · simp [hne] at hsplit
    · rw [hpos, Position.afterAll_append]
    · rw [hpos', ← Position.afterAll_append, List.append_assoc]

/-- What a scan finds splits off a gap and a symbol. -/
theorem Finds.splits {rules : ScanRules} {s s' : Source} {before : List Diagnostic} {found : Scanned}
    (h : Finds rules s before found s') : Splits s found.symbol s' := by
  induction h with
  | @finish s before hrest =>
    refine .of_leadsGap (skipLayout_rest s) (leadsGap_layout s) (.inl ?_)
    rw [← skipLayout, hrest]
    exact ⟨rfl, .nil⟩
  | @comment s s' before rest found hrest less next ih =>
    refine .of_leadsGap (skipLayout_rest s) (leadsGap_layout s) ?_
    obtain ⟨skipped, after, hsplit, hlen, -, hlead⟩ := comment_skips (skipLayout s).position rest
    rw [hlen] at ih
    exact .of_leadsGap (hrest.trans hsplit) hlead ih
  | @disabled s s' before rest found hrest hcolumn less next ih =>
    refine .of_leadsGap (skipLayout_rest s) (leadsGap_layout s) ?_
    obtain ⟨skipped, after, hsplit, hlen, -, hlead⟩ := disabledSection_skips (skipLayout s).position hcolumn rest
    rw [hlen] at ih
    exact .of_leadsGap (hrest.trans hsplit) hlead ih
  | @symbol s before c rest hrest hcomment hsection =>
    refine .of_leadsGap (skipLayout_rest s) (leadsGap_layout s) ?_
    rw [← skipLayout]
    obtain ⟨htoken, hne, after, hafter⟩ := symbolAt_spells rules (skipLayout s).position c rest
    refine .inr ⟨htoken, [], _, ?_, hne, .nil, rfl, rfl, ?_, Source.length_advance _ _⟩
    · rw [Source.rest_advance, hrest, ← hafter, List.drop_left, List.nil_append]
    · rw [Source.position_advance, hrest, ← hafter, List.take_left, List.nil_append]

/-- At the end of the input all that is left is a gap. -/
theorem Splits.of_eof {s s' : Source} {found : Symbol} (h : Splits s found s') (heof : found.token = .eof) :
    found = .endOfInput (s.position.afterAll s.rest) ∧ Gap true s.position s.rest :=
  h.resolve_right fun hsymbol => hsymbol.1 heof

/-- Any other symbol has characters, which come right after the gap. -/
theorem Splits.of_ne_eof {s s' : Source} {found : Symbol} (h : Splits s found s') (heof : found.token ≠ .eof) :
    ∃ gap spelling : List Char, s.rest = gap ++ spelling ++ s'.rest ∧ spelling ≠ [] ∧ Gap false s.position gap ∧
      found.position = s.position.afterAll gap ∧ found.lexeme = String.ofList spelling ∧
      s'.position = s.position.afterAll (gap ++ spelling) ∧ s'.length = s.length :=
  (h.resolve_left fun hend => heof (congrArg Symbol.token hend.1)).2

/-- A scan that does not find the end of the input leaves less text than there was. -/
theorem Splits.length_lt {s s' : Source} {found : Symbol} (h : Splits s found s') (heof : found.token ≠ .eof) :
    s'.rest.length < s.rest.length := by
  obtain ⟨gap, spelling, hs, hne, -⟩ := h.of_ne_eof heof
  have hpos : 0 < spelling.length := List.length_pos_iff.mpr hne
  rw [hs, List.length_append, List.length_append]
  omega

/-- What is found before the end of the text is recognized as a symbol where it stands. -/
theorem Finds.recognized {rules : ScanRules} {s s' : Source} {before : List Diagnostic} {found : Scanned}
    (h : Finds rules s before found s') (heof : found.symbol.token ≠ .eof) :
    ∃ c rest own, own ⊆ found.faults ∧
      Recognized rules found.symbol.position c rest ⟨found.symbol.token, found.symbol.lexeme.toList, own⟩ := by
  induction h with
  | finish hrest => exact (heof rfl).elim
  | comment hrest less next ih => exact ih heof
  | disabled hrest hcolumn less next ih => exact ih heof
  | @symbol s before c rest hrest hcomment hsection =>
    refine ⟨c, rest, _, List.subset_append_right _ _, ?_⟩
    rw [String.toList_ofList]
    exact recognized_symbolAt rules (skipLayout s).position c rest

/-- With steps enough all symbols are read by the rules, after those read before. -/
theorem reads_symbolsWithin (rules : ScanRules) (steps : Nat) (s : Source) (before : List Scanned)
    (hsteps : s.rest.length < steps) (hs : s.rest.length ≤ s.length) :
    ∃ found, symbolsWithin rules steps s before = before.reverse ++ found ∧ Reads rules s found := by
  induction steps generalizing s before with
  | zero => omega
  | succ steps ih =>
    have hfinds := finds_symbol rules s hs
    have hsplits := hfinds.splits
    unfold symbolsWithin
    dsimp only
    split
    · next heof => exact ⟨[(symbol rules s).1], by simp, .last hfinds heof⟩
    · next heof =>
      have less := hsplits.length_lt heof
      obtain ⟨-, -, -, -, -, -, -, -, hlength⟩ := hsplits.of_ne_eof heof
      obtain ⟨found, heq, hreads⟩ := ih (symbol rules s).2 ((symbol rules s).1 :: before) (by omega) (by omega)
      exact ⟨(symbol rules s).1 :: found, by simp [heq], .more hfinds heof less hreads⟩

/-- Reading all symbols does what the relation says, so the count of symbols never runs out. -/
theorem reads_symbols (rules : ScanRules) (s : Source) (hs : s.rest.length ≤ s.length) :
    Reads rules s (symbols rules s) := by
  obtain ⟨found, heq, hreads⟩ := reads_symbolsWithin rules (s.length + 1) s [] (by omega) hs
  rw [symbols, heq]
  exact hreads

end Scan

end Modula
