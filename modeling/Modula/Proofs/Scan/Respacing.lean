import Mathlib.Algebra.GroupWithZero.Nat
import Modula.Proofs.Reader.Stream
import Modula.Proofs.Scan.TokenLanguages
import Modula.Proofs.Source.LineTable

/-!
# Symbols with blanks between them

The lexemes of a text without lexical errors, put one after the other with single blanks between them, are a text with
the same symbols (`respacing_same_symbols`). Each lexeme is found before a blank as it was found where it stood, and the
gaps of the new text have nothing to report. The new text is no longer in lines than the old one, because no lexeme ends
with a line end.
-/

set_option autoImplicit false

namespace Modula

/-! ## Lines -/

namespace Lines

/-- A character that ends no line opens a line if there is none. -/
theorem length_split_other {c : Char} (hc : c ≠ '\n') (cs : List Char) :
    (split (c :: cs)).length = max 1 (split cs).length := by
  rw [split_cons_other hc, List.length_cons, List.length_tail]
  omega

/-- Every line end closes a line. -/
theorem split_append_le (cs ds : List Char) : cs.count '\n' + (split ds).length ≤ (split (cs ++ ds)).length := by
  induction cs with
  | nil => simp
  | cons c cs ih =>
    by_cases hc : c = '\n'
    · subst hc
      rw [List.cons_append, split_cons_line, List.length_cons, List.count_cons_self]
      omega
    · rw [List.cons_append, length_split_other hc, List.count_cons_of_ne hc]
      omega

/-- There is at most one line more than line ends. -/
theorem split_le (cs : List Char) : (split cs).length ≤ cs.count '\n' + 1 := by
  induction cs with
  | nil => simp [split]
  | cons c cs ih =>
    by_cases hc : c = '\n'
    · subst hc
      rw [split_cons_line, List.length_cons, List.count_cons_self]
      omega
    · rw [length_split_other hc, List.count_cons_of_ne hc]
      omega

/-- A text without characters has a line, too. -/
theorem length_texts (cs : List Char) : (texts cs).length = max 1 (split cs).length := by
  unfold texts
  split
  · next hnil => simp [hnil]
  · next hne =>
    have hpos := List.length_pos_iff.mpr (mt split_eq_nil_iff.mp hne)
    omega

end Lines

namespace Scan

variable {o : Options} {s : Source} {found : List Scanned}

/-! ## The ends of lexemes -/

/-- A line end is no digit. -/
theorem not_isDecimal_line : ¬IsDecimal '\n' := by simp [IsDecimal]

/-- The scale of a real number is on one line. -/
theorem Scale.line_not_mem {scale : List Char} (h : Scale scale) : '\n' ∉ scale := by
  cases h with
  | none => simp
  | @exponent sign digits hsign hdigits =>
    intro hmem
    obtain hmem | hmem := List.mem_append.mp ((List.mem_cons.mp hmem).resolve_left (by decide))
    · obtain rfl | rfl | rfl := hsign <;> simp at hmem
    · exact not_isDecimal_line (hdigits.2 _ hmem)

/-- Only a pragma runs over line ends. -/
theorem Lexeme.line_not_mem {t : Token} {cs : List Char} (h : Lexeme o t cs) (ht : t ≠ .pragma) : '\n' ∉ cs := by
  intro hmem
  have hrun : ∀ (kind : Char → Prop) (run : List Char), ¬kind '\n' → (∀ c ∈ run, kind c) → '\n' ∉ run :=
    fun kind run hline hall hmem => hline (hall _ hmem)
  have hoctal : ¬IsOctal '\n' := fun h => not_isDecimal_line h.isDecimal
  cases h with
  | @ident c rest hc hrest =>
    obtain rfl | hmem := List.mem_cons.mp hmem
    · cases hc
    · exact hrun _ _ (by simp) hrest hmem
  | reserved hreserved =>
    have hletters := (reservedWord_letters t (Token.mem_all t) _ hreserved).2.1
    rw [String.toList_ofList] at hletters
    exact hrun (fun c => c.isAlpha = true) _ (by decide) (List.all_eq_true.mp hletters) hmem
  | special hspecial =>
    have hnone : ∀ t ∈ Token.all, ∀ w ∈ t.specialSymbol?, '\n' ∉ w.toList := by decide
    have hline := hnone t (Token.mem_all t) _ hspecial
    rw [String.toList_ofList] at hline
    exact hline hmem
  | ampersand | tilde | unequal => simp at hmem
  | decimal hdigits => exact hrun _ _ not_isDecimal_line hdigits.2 hmem
  | hexadecimal hc hdigits =>
    obtain rfl | hmem := List.mem_cons.mp hmem
    · exact not_isDecimal_line hc
    obtain hmem | hmem := List.mem_append.mp hmem
    · exact hrun _ _ (by simp [IsHexadecimal, IsDecimal]) hdigits hmem
    · simp at hmem
  | octal hliterals hdigits | charCode hliterals hdigits =>
    obtain hmem | hmem := List.mem_append.mp hmem
    · exact hrun _ _ hoctal hdigits.2 hmem
    · simp at hmem
  | real hwhole hdigits hscale =>
    obtain hmem | hmem := List.mem_append.mp hmem
    · exact hrun _ _ not_isDecimal_line hwhole.2 hmem
    obtain hmem | hmem := List.mem_append.mp ((List.mem_cons.mp hmem).resolve_left (by decide))
    · exact hrun _ _ not_isDecimal_line hdigits hmem
    · exact hscale.line_not_mem hmem
  | string hquote hbody =>
    obtain rfl | hmem := List.mem_cons.mp hmem
    · simp at hquote
    obtain hmem | hmem := List.mem_append.mp hmem
    · exact (hbody.content [] .start).line_not_mem hmem
    · obtain rfl := List.mem_singleton.mp hmem
      simp at hquote
  | pragma => exact ht rfl

/-- The last character of a lexeme is no line end. -/
theorem Lexeme.last {t : Token} {cs : List Char} (h : Lexeme o t cs) :
    ∃ front c, cs = front ++ [c] ∧ c ≠ '\n' := by
  obtain ⟨front, c, rfl⟩ := List.eq_nil_or_concat' cs |>.resolve_left h.ne_nil
  refine ⟨front, c, rfl, ?_⟩
  by_cases ht : t = .pragma
  · subst ht
    generalize hcs : front ++ [c] = cs at h
    cases h with
    | @pragma content hcontent =>
      have hsplit : front ++ [c] = '<' :: '*' :: (content ++ ['*']) ++ ['>'] := by simpa using hcs
      obtain ⟨-, hc⟩ := List.append_inj' hsplit rfl
      cases hc
      decide
    | reserved hreserved => cases hreserved
    | special hspecial => cases hspecial
  · rintro rfl
    exact h.line_not_mem ht (by simp)

/-! ## The symbols of a text without errors -/

/-- Each symbol but the end of the input has a lexeme of its token, with characters of the text. -/
theorem Reads.lexemes (h : Reads o.scanRules s found) (hfaults : ∀ u ∈ found, Faultless u.faults) :
    ∀ u ∈ found, u.symbol.token ≠ .eof →
      Lexeme o u.symbol.token u.symbol.lexeme.toList ∧ ∀ c ∈ u.symbol.lexeme.toList, c ∈ s.rest := by
  induction h with
  | @last s s' found hfinds heof =>
    intro u hu hsymbol
    obtain rfl := List.mem_singleton.mp hu
    exact (hsymbol heof).elim
  | @more s s' found others hfinds heof less next ih =>
    obtain ⟨gap, spelling, hsplit, -, -, -, hlexeme, -⟩ := hfinds.splits.of_ne_eof heof
    intro u hu hsymbol
    obtain rfl | hu := List.mem_cons.mp hu
    · refine ⟨hfinds.lexeme heof (hfaults _ (by simp)), fun c hc => ?_⟩
      rw [hlexeme, String.toList_ofList] at hc
      rw [hsplit]
      simp [hc]
    · obtain ⟨hspelled, hchars⟩ := ih (fun v hv => hfaults v (by simp [hv])) u hu hsymbol
      refine ⟨hspelled, fun c hc => ?_⟩
      rw [hsplit]
      simp [hchars c hc]

/-- The end of the input has no characters. -/
theorem Reads.lexeme_eof (h : Reads o.scanRules s found) : ∀ u ∈ found, u.symbol.token = .eof → u.symbol.lexeme = "" := by
  induction h with
  | last hfinds heof =>
    intro u hu htoken
    obtain rfl := List.mem_singleton.mp hu
    rw [(hfinds.splits.of_eof heof).1]
    rfl
  | more hfinds heof less next ih =>
    intro u hu htoken
    obtain rfl | hu := List.mem_cons.mp hu
    · exact (heof htoken).elim
    · exact ih u hu htoken

/-- The number of line ends in the lexemes of symbols. -/
def lineEnds (found : List Scanned) : Nat := (found.map fun u => u.symbol.lexeme.toList.count '\n').sum

/-- There are more lines in a text than line ends in its lexemes. -/
theorem Reads.lineEnds_lt (h : Reads o.scanRules s found) (hfaults : ∀ u ∈ found, Faultless u.faults) :
    lineEnds found < max 1 (Lines.split s.rest).length := by
  induction h with
  | @last s s' found hfinds heof =>
    obtain ⟨hend, -⟩ := hfinds.splits.of_eof heof
    have hzero : lineEnds [found] = 0 := by simp [lineEnds, hend, Symbol.endOfInput]
    omega
  | @more s s' found others hfinds heof less next ih =>
    obtain ⟨gap, spelling, hsplit, -, -, -, hlexeme, -⟩ := hfinds.splits.of_ne_eof heof
    have hspelled := hfinds.lexeme heof (hfaults _ (by simp))
    rw [hlexeme, String.toList_ofList] at hspelled
    obtain ⟨front, c, rfl, hc⟩ := hspelled.last
    have hothers := ih fun u hu => hfaults u (by simp [hu])
    have hcount : (front ++ [c]).count '\n' = front.count '\n' := by
      rw [List.count_append, List.count_singleton, beq_eq_false_iff_ne.mpr hc]
      simp
    have hlines : lineEnds (found :: others) = front.count '\n' + lineEnds others := by
      rw [lineEnds, List.map_cons, List.sum_cons, hlexeme, String.toList_ofList, hcount]
      rfl
    -- the last character of the lexeme opens the line that the next symbol may stand on
    have hgap := Lines.split_append_le gap (front ++ c :: s'.rest)
    have hfront := Lines.split_append_le front (c :: s'.rest)
    rw [Lines.length_split_other hc] at hfront
    have hrest : s.rest = gap ++ (front ++ c :: s'.rest) := by simpa using hsplit
    rw [hrest, hlines]
    omega

/-! ## Blanks between the symbols -/

/-- Lexemes, each with a blank before it. -/
def spaced (found : List Scanned) : List Char := found.flatMap fun u => ' ' :: u.symbol.lexeme.toList

/-- The lexemes of the symbols before the end of the input, with a blank between each two. -/
def respaced (found : List Scanned) : String :=
  " ".intercalate ((found.filter (·.symbol.token ≠ .eof)).map (·.symbol.lexeme))

/-- Symbols with blanks between them start with the first symbol. -/
theorem toList_intercalate_blank (u : Scanned) (others : List Scanned) :
    (" ".intercalate ((u :: others).map (·.symbol.lexeme))).toList = u.symbol.lexeme.toList ++ spaced others := by
  induction others generalizing u with
  | nil => simp [spaced]
  | cons v others ih =>
    have hrest := ih v
    rw [List.map_cons] at hrest
    rw [List.map_cons, List.map_cons, String.intercalate_cons_cons, String.toList_append, String.toList_append, hrest]
    simp [spaced]

/-- All other symbols have a blank before them. -/
theorem spaced_after (found : List Scanned) : spaced found = [] ∨ (spaced found).head? = some ' ' := by
  cases found with
  | nil => exact .inl rfl
  | cons u others => exact .inr rfl

/-- At the end of a text nothing but the end of the input is read. -/
theorem reads_end (rules : ScanRules) (h : s.rest = []) :
    ∃ u, Reads rules s [u] ∧ u.symbol.token = .eof ∧ u.symbol.lexeme = "" ∧ u.faults = [] := by
  have hskip : (skipLayout s).rest = [] := by
    have hlength := length_skipLayout_le s
    rw [h] at hlength
    exact List.length_eq_zero_iff.mp (by simpa using hlength)
  exact ⟨_, .last (.finish hskip) rfl, rfl, rfl, rfl⟩

/-- A reading with the same symbols, and with nothing to report. -/
def ReadsAgain (o : Options) (s : Source) (body : List Scanned) : Prop :=
  ∃ found, Reads o.scanRules s found ∧ (∀ u ∈ found, u.faults = []) ∧
    found.map (fun u => (u.symbol.token, u.symbol.lexeme)) =
      body.map (fun u => (u.symbol.token, u.symbol.lexeme)) ++ [(.eof, "")]

/-- A lexeme comes first, perhaps after a blank, and the others are read after it. -/
theorem ReadsAgain.cons {t : Source} {u : Scanned} {others : List Scanned} (hst : skipLayout s = skipLayout t)
    (heof : u.symbol.token ≠ .eof) (hspelled : Lexeme o u.symbol.token u.symbol.lexeme.toList)
    (ht : t.rest = u.symbol.lexeme.toList ++ spaced others)
    (hothers : ReadsAgain o (t.advance u.symbol.lexeme.toList.length) others) : ReadsAgain o s (u :: others) := by
  obtain ⟨found, hreads, hfaults, hsymbols⟩ := hothers
  have hfinds := hspelled.finds [] ht (spaced_after others)
  refine ⟨_, reads_cons_iff.mpr ⟨_, hfinds.of_skipLayout hst.symm, .inr ⟨heof, hreads⟩⟩, ?_, ?_⟩
  · intro v hv
    obtain rfl | hv := List.mem_cons.mp hv
    · rfl
    · exact hfaults v hv
  · simp only [List.map_cons, List.cons_append, hsymbols, String.ofList_toList]

/-- Lexemes with a blank before each are read one after the other. -/
theorem reads_spaced {body : List Scanned} (hbody : ∀ u ∈ body, u.symbol.token ≠ .eof ∧
    Lexeme o u.symbol.token u.symbol.lexeme.toList) (hs : s.rest = spaced body) : ReadsAgain o s body := by
  induction body generalizing s with
  | nil =>
    obtain ⟨u, hreads, htoken, hlexeme, hfaults⟩ := reads_end o.scanRules hs
    exact ⟨[u], hreads, by simpa using hfaults, by simp [htoken, hlexeme]⟩
  | cons u others ih =>
    obtain ⟨heof, hspelled⟩ := hbody u (by simp)
    have hblank : s.rest = ' ' :: (u.symbol.lexeme.toList ++ spaced others) := hs
    have hread : s.read.rest = u.symbol.lexeme.toList ++ spaced others := by simp [Source.read, hblank]
    refine .cons (skipLayout_layout hblank rfl) heof hspelled hread ?_
    exact ih (fun v hv => hbody v (by simp [hv])) (Source.rest_advance_append hread)

/-- A text of lexemes with single blanks between them is read as these lexemes. -/
theorem reads_respaced {body : List Scanned} (hbody : ∀ u ∈ body, u.symbol.token ≠ .eof ∧
    Lexeme o u.symbol.token u.symbol.lexeme.toList)
    (hs : s.rest = (" ".intercalate (body.map (·.symbol.lexeme))).toList) : ReadsAgain o s body := by
  cases body with
  | nil => exact reads_spaced hbody (by simpa [spaced] using hs)
  | cons u others =>
    obtain ⟨heof, hspelled⟩ := hbody u (by simp)
    rw [toList_intercalate_blank] at hs
    refine .cons rfl heof hspelled hs ?_
    exact reads_spaced (fun v hv => hbody v (by simp [hv])) (Source.rest_advance_append hs)

/-- The lines of the new text are those of its symbols. -/
theorem count_spaced (body : List Scanned) : (spaced body).count '\n' = lineEnds body := by
  induction body with
  | nil => rfl
  | cons u others ih =>
    have hsplit : spaced (u :: others) = ' ' :: (u.symbol.lexeme.toList ++ spaced others) := rfl
    have hblank : (' ' : Char) ≠ '\n' := by decide
    rw [hsplit, List.count_cons_of_ne hblank, List.count_append, ih]
    rfl

/-- Blanks add no line ends. -/
theorem count_respaced (body : List Scanned) :
    (" ".intercalate (body.map (·.symbol.lexeme))).toList.count '\n' = lineEnds body := by
  cases body with
  | nil => rfl
  | cons u others =>
    rw [toList_intercalate_blank, List.count_append, count_spaced]
    rfl

/-- Every character of the new text is a blank or one of a symbol. -/
theorem mem_respaced {body : List Scanned} {c : Char}
    (hc : c ∈ (" ".intercalate (body.map (·.symbol.lexeme))).toList) :
    c = ' ' ∨ ∃ u ∈ body, c ∈ u.symbol.lexeme.toList := by
  have hspaced : ∀ others : List Scanned, c ∈ spaced others → c = ' ' ∨ ∃ u ∈ others, c ∈ u.symbol.lexeme.toList := by
    intro others hmem
    obtain ⟨u, hu, hmem⟩ := List.mem_flatMap.mp hmem
    exact (List.mem_cons.mp hmem).imp_right fun hmem => ⟨u, hu, hmem⟩
  cases body with
  | nil => simp at hc
  | cons u others =>
    rw [toList_intercalate_blank] at hc
    obtain hc | hc := List.mem_append.mp hc
    · exact .inr ⟨u, by simp, hc⟩
    · exact (hspaced others hc).imp_right fun ⟨v, hv, hcv⟩ => ⟨v, by simp [hv], hcv⟩

end Scan

open Scan

/-- A text without carriage returns is accepted if it has neither too many bytes nor too many lines. -/
theorem Source.ofText_of_small {filename text : String} (hreturn : '\r' ∉ text.toList)
    (hsize : text.utf8ByteSize ≤ SourceError.maxSize) (hlines : (Lines.ofText text.toList).count ≤ SourceError.maxLines) :
    ofText filename text = .ok (ofNormalized filename text.toList) := by
  unfold ofText
  rw [if_neg (by omega), LineEnds.normalize_of_no_return hreturn]
  exact if_neg (Nat.not_lt.mpr hlines)

/-- An accepted text has not too many lines. -/
theorem Source.count_lines_le {filename text : String} {s : Source} (h : ofText filename text = .ok s) :
    (Lines.ofText (LineEnds.normalize text.toList)).count ≤ SourceError.maxLines := by
  unfold ofText at h
  dsimp only at h
  split at h
  · cases h
  · split at h
    · cases h
    · next hlines => exact Nat.not_lt.mp hlines

/-- Of an accepted text that is read without errors, under any options, the lexemes before the end of the input are put
one after the other with single blanks between them. If that text is not too large, it is accepted, it has the same
symbols, and there is nothing to report of it. -/
theorem respacing_same_symbols (o : Options) (filename filename' text : String) (s : Source)
    (h : Source.ofText filename text = .ok s) (hfaultless : ∀ u ∈ symbols o.scanRules s, Faultless u.faults)
    (hsize : (respaced (symbols o.scanRules s)).utf8ByteSize ≤ SourceError.maxSize) :
    ∃ s', Source.ofText filename' (respaced (symbols o.scanRules s)) = .ok s' ∧
      (symbols o.scanRules s').map (fun u => (u.symbol.token, u.symbol.lexeme)) =
        (symbols o.scanRules s).map (fun u => (u.symbol.token, u.symbol.lexeme)) ∧
      ∀ u ∈ symbols o.scanRules s', u.faults = [] := by
  have hrest : s.rest = LineEnds.normalize text.toList := by
    rw [Source.eq_ofNormalized h]
    rfl
  have hreads := reads_symbols o.scanRules s (Source.length_rest_le h)
  have hlexemes := hreads.lexemes hfaultless
  have hlineEnds := hreads.lineEnds_lt hfaultless
  obtain ⟨body, last, hfound, hbody, hlast⟩ := hreads.eq_append
  have hend : (last.symbol.token, last.symbol.lexeme) = (.eof, "") := by
    rw [hlast, hreads.lexeme_eof last (by simp [hfound]) hlast]
  generalize symbols o.scanRules s = found at *
  subst hfound
  have hfilter : (body ++ [last]).filter (·.symbol.token ≠ .eof) = body := by
    rw [List.filter_append, List.filter_eq_self.mpr (by simpa using hbody)]
    simp [hlast]
  have hrespaced : respaced (body ++ [last]) = " ".intercalate (body.map (·.symbol.lexeme)) := by
    rw [respaced, hfilter]
  rw [hrespaced] at hsize ⊢
  have hreturn : '\r' ∉ (" ".intercalate (body.map (·.symbol.lexeme))).toList := by
    intro hmem
    obtain hblank | ⟨u, hu, hmem⟩ := mem_respaced hmem
    · cases hblank
    · have hchar := (hlexemes u (by simp [hu]) (hbody u hu)).2 _ hmem
      rw [hrest] at hchar
      exact LineEnds.return_not_mem_normalize _ hchar
  -- only lexemes bring line ends along, and these had been in the text
  have hlines : (Lines.ofText (" ".intercalate (body.map (·.symbol.lexeme))).toList).count ≤ SourceError.maxLines := by
    have hold := Source.count_lines_le h
    have hnew := Lines.split_le (" ".intercalate (body.map (·.symbol.lexeme))).toList
    have hmore : lineEnds body ≤ lineEnds (body ++ [last]) := by simp [lineEnds]
    rw [Lines.count_ofText, Lines.length_texts] at hold ⊢
    rw [count_respaced] at hnew
    rw [hrest] at hlineEnds
    omega
  refine ⟨_, Source.ofText_of_small hreturn hsize hlines, ?_⟩
  have hagain : ReadsAgain o (.ofNormalized filename' (" ".intercalate (body.map (·.symbol.lexeme))).toList)
      body := reads_respaced (fun u hu => ⟨hbody u hu, (hlexemes u (by simp [hu]) (hbody u hu)).1⟩) rfl
  obtain ⟨found', hreads', hfaults, hsymbols⟩ := hagain
  obtain rfl := (reads_symbols o.scanRules _ (Nat.le_refl _)).unique hreads'
  refine ⟨?_, hfaults⟩
  rw [hsymbols, List.map_append, List.map_singleton, hend]

/-- A range after an assignment, with a comment and a pragma. -/
theorem respacing_same_symbols_range :
    ∃ s s', Source.ofText "m" "a:=1..2(* b *)<*p*>" = .ok s ∧ Source.ofText "n" "a := 1 .. 2 <*p*>" = .ok s' ∧
      (symbols Options.standard.scanRules s').map (fun u => (u.symbol.token, u.symbol.lexeme)) =
        (symbols Options.standard.scanRules s).map (fun u => (u.symbol.token, u.symbol.lexeme)) ∧
      ∀ u ∈ symbols Options.standard.scanRules s', u.faults = [] := by
  have h : Source.ofText "m" "a:=1..2(* b *)<*p*>" = .ok (.ofNormalized "m" "a:=1..2(* b *)<*p*>".toList) := by rfl
  have hfaultless : ∀ u ∈ symbols Options.standard.scanRules (.ofNormalized "m" "a:=1..2(* b *)<*p*>".toList),
      Faultless u.faults := by
    unfold Faultless
    decide
  have hrespaced : respaced (symbols Options.standard.scanRules (.ofNormalized "m" "a:=1..2(* b *)<*p*>".toList)) =
      "a := 1 .. 2 <*p*>" := by decide
  obtain ⟨s', haccepted, hsame, hnone⟩ := respacing_same_symbols .standard "m" "n" _ _ h hfaultless
    (by rw [hrespaced]; decide)
  rw [hrespaced] at haccepted
  exact ⟨_, s', h, haccepted, hsame, hnone⟩

end Modula
