import Modula.Proofs.Scan.Insertion

/-!
# Scanning one text after another

A text that ends with a line end, outside comments, pragmas and disabled sections, does not touch what comes after it: in
the two texts together its symbols are found as they are found in it alone, with the same faults, and after them the
symbols of the other text, at other places (`EndsOutside.append`). The gap at its end becomes a part of the gap before these.
-/

set_option autoImplicit false

namespace Modula

namespace Scan

/-! ## The ends of symbols -/

/-- A run of characters that are no line ends is on one line. -/
theorem line_not_mem_takeWhile {kind : Char → Bool} (h : kind '\n' = false) (cs : List Char) :
    '\n' ∉ cs.takeWhile kind := by
  intro hmem
  have hkind := List.mem_takeWhile_imp hmem
  rw [h] at hkind
  cases hkind

/-- An exponent is on one line. -/
theorem exponent_line (cs : List Char) : '\n' ∉ (exponent cs).2 := by
  have hdigits : ∀ tail : List Char, '\n' ∉ tail.takeWhile Char.isDigit := line_not_mem_takeWhile rfl
  by_cases hsign : cs.head? = some '+' ∨ cs.head? = some '-'
  · obtain ⟨c, tail, rfl, hc⟩ : ∃ c tail, cs = c :: tail ∧ (c = '+' ∨ c = '-') := by
      cases cs with
      | nil => simp at hsign
      | cons c tail => exact ⟨c, tail, rfl, by simpa using hsign⟩
    rw [exponent_signed hc]
    obtain rfl | rfl := hc <;> simpa using hdigits tail
  · rw [exponent_unsigned hsign]
    exact hdigits cs

/-- So is a fraction. -/
theorem fraction_line (cs : List Char) : '\n' ∉ (fraction cs).2 := by
  have hdigits : '\n' ∉ cs.takeWhile Char.isDigit := line_not_mem_takeWhile rfl cs
  unfold fraction
  dsimp only
  split
  · next tail _ => simpa using ⟨hdigits, exponent_line tail⟩
  · exact hdigits

/-- So is a number. -/
theorem number_line (rules : ScanRules) (cs : List Char) : '\n' ∉ (number rules cs).2 := by
  have hdigits : '\n' ∉ cs.takeWhile isHexDigit := line_not_mem_takeWhile (by decide) cs
  unfold number
  dsimp only
  split
  · simpa using hdigits
  split
  · split
    · exact hdigits
    · next tail _ _ => simpa using ⟨hdigits, fraction_line tail⟩
    · exact hdigits
  · exact hdigits

/-- So is a special symbol. -/
theorem special_line (rules : ScanRules) {c : Char} (hc : c ≠ '\n') (rest : List Char) :
    '\n' ∉ (special rules (c :: rest)).2 := by
  generalize hcs : c :: rest = cs
  unfold special
  split
  case h_5 => split <;> simp
  case h_28 =>
    subst hcs
    simpa using hc.symm
  all_goals simp

/-- No symbol ends with a line end, but for a pragma that is not closed. -/
theorem Recognized.last_ne {rules : ScanRules} {p : Position} {c : Char} {rest : List Char} {found : Delimited}
    (h : Recognized rules p c rest found) (hc : c ≠ '\n') (hclosed : ∀ d ∈ found.faults, d.code ≠ .unclosedPragma) :
    found.spelling.getLast? ≠ some '\n' := by
  have hnone : ∀ {spelling : List Char}, '\n' ∉ spelling → spelling.getLast? ≠ some '\n' :=
    fun hline hlast => hline (List.mem_of_getLast? hlast)
  cases h with
  | string hquote =>
    obtain ⟨body, closing, after, stray, ending, -, hstring, hbody, hend⟩ := string_parts rules p c rest
    rw [hstring]
    refine hnone ?_
    have hline := hbody.line_not_mem
    cases hend <;> simp [hc.symm, hline]
  | @pragma rest =>
    obtain ⟨content, after, -, -, hpragma⟩ | hpragma := pragma_parts p rest
    · have hlast : ('<' :: '*' :: (content ++ ['*', '>'])).getLast? = some '>' := by
        rw [← List.cons_append, ← List.cons_append, List.getLast?_append]
        rfl
      simp [hpragma, hlast]
    · exact (hclosed (.atPosition .unclosedPragma p) (by simp [hpragma]) rfl).elim
  | word => exact hnone (line_not_mem_takeWhile (by simp [isWordChar]) _)
  | number => exact hnone (number_line rules _)
  | special => exact hnone (special_line rules hc _)

variable {rules : ScanRules} {s s' : Source} {before : List Diagnostic} {found : Scanned}

/-- After layout comes none. -/
theorem isLayout_of_skipLayout {c : Char} {rest : List Char} (h : (skipLayout s).rest = c :: rest) :
    isLayout c = false := by
  have hdrop : (skipLayout s).rest = s.rest.dropWhile isLayout :=
    List.append_cancel_left ((skipLayout_rest s).symm.trans List.takeWhile_append_dropWhile.symm)
  have hhead := List.head?_dropWhile_not isLayout s.rest
  rwa [← hdrop, h] at hhead

/-- A symbol does not end in a line end, unless it is a pragma that is not closed. -/
theorem Finds.last (h : Finds rules s before found s') (heof : found.symbol.token ≠ .eof)
    (hclosed : ∀ d ∈ found.faults, d.code ≠ .unclosedPragma) : found.symbol.lexeme.toList.getLast? ≠ some '\n' := by
  induction h with
  | finish hrest => exact (heof rfl).elim
  | comment hrest less next ih => exact ih heof hclosed
  | disabled hrest hcolumn less next ih => exact ih heof hclosed
  | @symbol s before c rest hrest hcomment hsection =>
    have hc : c ≠ '\n' := by
      rintro rfl
      cases isLayout_of_skipLayout hrest
    rw [String.toList_ofList]
    exact (recognized_symbolAt rules _ c rest).last_ne hc fun d hd => hclosed d (List.mem_append_right _ hd)

/-- In a text that ends with a line end, something comes after every symbol, but for a pragma that is not closed. -/
theorem Finds.followed (h : Finds rules s before found s') (heof : found.symbol.token ≠ .eof)
    (hclosed : ∀ d ∈ found.faults, d.code ≠ .unclosedPragma) (hline : s.rest.getLast? = some '\n') :
    s'.rest.getLast? = some '\n' := by
  obtain ⟨gap, spelling, hsplit, hne, -, -, hlexeme, -⟩ := h.splits.of_ne_eof heof
  have hlast := h.last heof hclosed
  rw [hlexeme, String.toList_ofList] at hlast
  rw [hsplit] at hline
  by_cases hnil : s'.rest = []
  · rw [hnil, List.append_nil, List.getLast?_append_of_ne_nil _ hne] at hline
    exact (hlast hline).elim
  · rwa [List.getLast?_append_of_ne_nil _ hnil] at hline

/-! ## A text after another -/

variable {front : List Scanned}

/-- The symbols of a text that ends with a line end are found when more text comes after it. -/
theorem Passes.append (h : Passes rules s front s')
    (hclosed : ∀ u ∈ front, ∀ d ∈ u.faults, d.code ≠ .unclosedPragma) (hline : s.rest.getLast? = some '\n')
    {more : List Char} {t : Source} (ht : t.rest = s.rest ++ more) (hposition : t.position = s.position) :
    ∃ t', Passes rules t front t' ∧ t'.rest = s'.rest ++ more ∧ t'.position = s'.position := by
  induction h generalizing t with
  | nil => exact ⟨t, .nil, ht, hposition⟩
  | @cons s s₁ s' found others hfinds heof next ih =>
    have hline₁ := hfinds.followed heof (hclosed _ (by simp)) hline
    have hne : s₁.rest ≠ [] := by
      intro hnil
      simp [hnil] at hline₁
    obtain ⟨kept, hkept, -⟩ := (Passes.cons hfinds heof .nil).takes
    rw [hkept, List.append_assoc] at ht
    obtain ⟨t₁, hfinds', hrest, hposition'⟩ := hfinds.context heof hkept (.longer more hne rfl) ht hposition
    obtain ⟨t', hpasses, hend⟩ := ih (fun u hu => hclosed u (by simp [hu])) hline₁ hrest hposition'
    exact ⟨t', .cons hfinds' heof hpasses, hend⟩

/-- The scan of a text ends outside comments, pragmas and disabled sections: all pragmas are closed, and in what is left
after the last symbol all comments are closed and all disabled sections have ended. -/
def EndsOutside (rules : ScanRules) (s : Source) : Prop :=
  ∃ front s', Passes rules s front s' ∧ (∀ u ∈ front, ∀ d ∈ u.faults, d.code ≠ .unclosedPragma) ∧
    Gap false s'.position s'.rest

/-- After a text that ends with a line end, outside comments, pragmas and disabled sections, another text is read as it
is read alone. The faults of the gap between them are listed with its first symbol. -/
theorem EndsOutside.append {m t : Source} {others : List Scanned} (h : EndsOutside rules s)
    (hline : s.rest.getLast? = some '\n') (hm : Reads rules m others) (hcolumn : m.position.column = 1)
    (ht : t.rest = s.rest ++ m.rest) (hposition : t.position = s.position) :
    ∃ front last b back found, Reads rules s (front ++ [last]) ∧ last.symbol.token = .eof ∧ others = b :: back ∧
      Reads rules t (front ++ found) ∧
      List.Forall₂ Scanned.Alike (⟨b.symbol, last.faults ++ b.faults⟩ :: back) found := by
  obtain ⟨front, s', hpasses, hclosed, hgap⟩ := h
  obtain ⟨t', hpasses', hrest, hposition'⟩ := hpasses.append hclosed hline ht hposition
  obtain ⟨faults, hiff⟩ := @Gap.takenOff rules _ _ hgap
  -- the end of the text alone
  have hend : (skipLayout (s'.advance s'.rest.length)).rest = [] := by
    have hnil := Source.rest_advance_append (List.append_nil s'.rest).symm
    have hlength := length_skipLayout_le (s'.advance s'.rest.length)
    rw [hnil] at hlength
    exact List.length_eq_zero_iff.mp (Nat.le_zero.mp hlength)
  have hlast := (hiff s' [] [] _ _ (List.append_nil _).symm rfl).mpr (.finish hend)
  -- the start of the other text
  have hplace : (t'.advance s'.rest.length).position.column = 1 := by
    obtain ⟨kept, hkept, hkeptend, -⟩ := hpasses.takes
    rw [Source.position_advance_append hrest, hposition', hkeptend, ← Position.afterAll_append, ← hkept]
    obtain ⟨lines, hlines⟩ := List.getLast?_eq_some_iff.mp hline
    rw [hlines, Position.afterAll_append]
    rfl
  have hmoved : Moved m (t'.advance s'.rest.length) :=
    ⟨(Source.rest_advance_append hrest).symm, by omega, by omega, .inl (by simp [hcolumn, hplace])⟩
  obtain ⟨found, hreads, halike⟩ := hm.moved hmoved
  cases halike with
  | nil => cases hm
  | @cons b b' back back' hb hback =>
    obtain ⟨t₁, hb', hback'⟩ := reads_cons_iff.mp hreads
    obtain ⟨own, hown, hfinds⟩ := hb'.of_before
    have hfinds := (hiff t' _ [] _ t₁ hrest hposition').mpr (hfinds _)
    refine ⟨front, _, b, back, _, hpasses.reads (.last hlast rfl), rfl, rfl,
      hpasses'.reads (reads_cons_iff.mpr ⟨t₁, hfinds, hback'⟩), .cons ⟨hb.token, hb.lexeme, ?_⟩ hback⟩
    have hfaults := hb.faults
    rw [hown] at hfaults
    simpa using hfaults

end Scan

end Modula
