import Modula.Proofs.Scan.Between

/-!
# The text without its disabled sections

Where the scanner meets a disabled section between two symbols, it goes on after the last line of the section. No symbol
and no diagnostic but the one for the section comes from a line of it, and that one names just these lines
(`disabledSection_skipped`).
-/

set_option autoImplicit false

namespace Modula

/-- No character of a symbol stands on some lines. -/
def Symbol.Outside (lines : LineRange) (u : Symbol) : Prop :=
  ∀ before c after, u.lexeme.toList = before ++ c :: after →
    (u.position.afterAll before).line < lines.first ∨ lines.last < (u.position.afterAll before).line

/-- A diagnostic points outside some lines: it has a position or lines of its own, before the first one or after the last
one of them. -/
def Diagnostic.Outside (lines : LineRange) (d : Diagnostic) : Prop :=
  (∃ p, d.position = some p ∧ d.lines = none ∧ (p.line < lines.first ∨ lines.last < p.line)) ∨
    ∃ own, d.position = none ∧ d.lines = some own ∧ (own.last < lines.first ∨ lines.last < own.first)

/-- The report of a disabled section with its lines. -/
def Diagnostic.ofSection (lines : LineRange) : Diagnostic := { code := .disabledSection, lines := some lines }

/-- The diagnostic of a section is at the section. -/
theorem Diagnostic.not_outside_ofSection {lines : LineRange} (h : lines.first ≤ lines.last) :
    ¬(ofSection lines).Outside lines := by
  rintro (⟨p, hposition, -⟩ | ⟨own, -, hlines, hbefore | hafter⟩)
  · cases hposition
  · obtain rfl := Option.some.inj hlines
    omega
  · obtain rfl := Option.some.inj hlines
    omega

/-- A part of a text that ends with a line end leads to the start of a line. -/
theorem Position.afterAll_lineEnd (p : Position) {run : List Char} (h : run.getLast? = some '\n') :
    p.afterAll run = ⟨p.line + run.count '\n', 1⟩ := by
  have hline := p.line_afterAll run
  obtain ⟨front, rfl⟩ := List.getLast?_eq_some_iff.mp h
  have hlast : p.afterAll (front ++ ['\n']) = ⟨(p.afterAll front).line + 1, 1⟩ := Position.afterAll_append p front ['\n']
  rw [← hline, hlast]

namespace Scan

variable {rules : ScanRules} {s t : Source} {p : Position} {run rest : List Char} {lines : LineRange}

/-! ## What stands before and after some lines -/

/-- What comes before the line end of a part of a text stands on an earlier line than what comes after that part. -/
theorem line_lt_of_lineEnd (p : Position) {before after : List Char} (hafter : after ≠ [])
    (hrun : before ++ after = [] ∨ (before ++ after).getLast? = some '\n') :
    (p.afterAll before).line < (p.afterAll (before ++ after)).line := by
  have hend : '\n' ∈ after := by
    obtain hnil | hlast := hrun
    · exact (hafter (List.append_eq_nil_iff.mp hnil).2).elim
    · rw [List.getLast?_append_of_ne_nil _ hafter] at hlast
      exact List.mem_of_getLast? hlast
  have hpos := List.count_pos_iff.mpr hend
  rw [Position.line_afterAll, Position.line_afterAll, List.count_append]
  omega

/-- No characters lead back to an earlier line. -/
theorem line_le_afterAll (p : Position) (cs : List Char) : p.line ≤ (p.afterAll cs).line := by
  rw [Position.line_afterAll]
  exact Nat.le_add_right _ _

/-- What has been passed in front of some lines, up to the start of the first one, stands outside of these. -/
theorem Passed.outside_before {us : List Symbol} {ds : List Diagnostic} (h : Passed s t us ds run)
    (hrun : run = [] ∨ run.getLast? = some '\n') (hfirst : t.position.line = lines.first) (hrest : t.rest ≠ []) :
    (∀ u ∈ us, u.Outside lines) ∧ ∀ d ∈ ds, d.Outside lines := by
  rw [h.position] at hfirst
  refine ⟨fun u hu => ?_, fun d hd => ?_⟩
  · obtain ⟨x, y, hspelled, -, hposition⟩ := h.symbols u hu
    intro before c after hlexeme
    have hsplit : run = x ++ before ++ (c :: after ++ y) := by simp [hspelled, hlexeme]
    subst hsplit
    refine .inl ?_
    rw [hposition, ← Position.afterAll_append, ← hfirst]
    exact line_lt_of_lineEnd _ (by simp) hrun
  · cases h.faults d hd with
    | position before after hsplit hafter hposition hlines =>
      subst hsplit
      refine .inl ⟨_, hposition, hlines, .inl ?_⟩
      rw [← hfirst]
      exact line_lt_of_lineEnd _ hafter hrun
    | lines before after last hsplit hafter hposition hlines hlast =>
      exact .inr ⟨_, hposition, hlines, .inl (hfirst ▸ hlast.resolve_right hrest)⟩

/-- What has been passed after some lines stands outside of these. -/
theorem Passed.outside_after {us : List Symbol} {ds : List Diagnostic} (h : Passed s t us ds run)
    (hlast : s.rest = [] ∨ lines.last < s.position.line) :
    (∀ u ∈ us, u.Outside lines) ∧ ∀ d ∈ ds, d.Outside lines := by
  obtain hnil | hlast := hlast
  · -- at the end of a text nothing can be passed
    obtain rfl : run = [] := (List.append_eq_nil_iff.mp (h.rest.symm.trans hnil)).1
    refine ⟨fun u hu => ?_, fun d hd => ((h.faults d hd).ne_nil rfl).elim⟩
    obtain ⟨x, y, hspelled, hne, -⟩ := h.symbols u hu
    simp [hne] at hspelled
  · refine ⟨fun u hu => ?_, fun d hd => ?_⟩
    · obtain ⟨x, y, -, -, hposition⟩ := h.symbols u hu
      intro before c after hlexeme
      refine .inr (hlast.trans_le ?_)
      rw [hposition, ← Position.afterAll_append]
      exact line_le_afterAll _ _
    · cases h.faults d hd with
      | position before after hsplit hafter hposition hlines =>
        exact .inl ⟨_, hposition, hlines, .inr (hlast.trans_le (line_le_afterAll _ _))⟩
      | lines before after last hsplit hafter hposition hlines hbefore =>
        exact .inr ⟨_, hposition, hlines, .inr (hlast.trans_le (line_le_afterAll _ _))⟩

/-- What is read after some lines stands outside of these. -/
theorem Reads.outside_after {found : List Scanned} (h : Reads rules s found)
    (hlast : s.rest = [] ∨ lines.last < s.position.line) :
    (∀ u ∈ found, u.symbol.Outside lines) ∧ ∀ d ∈ found.flatMap (·.faults), d.Outside lines := by
  obtain ⟨body, u, p, t, rfl, heof, -, hbetween⟩ := (@Between.start rules s).finish h
  obtain ⟨run, hpassed⟩ := hbetween.passed
  obtain ⟨hsymbols, hfaults⟩ := hpassed.outside_after hlast
  refine ⟨fun v hv => ?_, fun d hd => hfaults d (by simpa using hd)⟩
  obtain hv | hv := List.mem_append.mp hv
  · exact hsymbols _ (List.mem_map.mpr ⟨v, hv, rfl⟩)
  · obtain rfl := List.mem_singleton.mp hv
    intro before c after hlexeme
    simp [heof, Symbol.endOfInput] at hlexeme

/-! ## Disabled sections -/

/-- Where the first column of a line has been reached in a text, whole lines have been passed. -/
theorem Passed.line_start {filename text : String} {us : List Symbol} {ds : List Diagnostic}
    (hs : Source.ofText filename text = .ok s) (h : Passed s t us ds run) (hcolumn : t.position.column = 1) :
    s.lines = .ofText (run ++ t.rest) ∧ (run = [] ∨ run.getLast? = some '\n') ∧
      t.position.line = run.count '\n' + 1 := by
  obtain rfl := Source.eq_ofNormalized hs
  have hposition : t.position = placeAfter run := h.position.trans (afterAll_eq_placeAfter run)
  obtain ⟨front, start, rfl, hfront, -, hplace⟩ := exists_line_start run
  rw [hposition, hplace] at hcolumn
  obtain rfl : start = [] := List.length_eq_zero_iff.mp (Nat.succ.inj hcolumn)
  rw [hposition, hplace, ← h.rest, List.append_nil]
  exact ⟨rfl, hfront, rfl⟩

/-- The disabled section that opens at the start of a line goes on to the next line that closes it, or to the last line of
the text, and is reported with these lines. Past it the next line starts, or the text ends. -/
theorem Passed.section_extent {filename text : String} {us : List Symbol} {ds : List Diagnostic} {tail : List Char}
    (hs : Source.ofText filename text = .ok s) (h : Passed s t us ds run) (hrest : t.rest = '?' :: '<' :: tail)
    (hcolumn : t.position.column = 1) :
    ∃ last length,
      disabledSection t.position.line ('?' :: '<' :: tail) = ⟨length, [.ofSection ⟨t.position.line, last⟩]⟩ ∧
      t.position.line ≤ last ∧ s.lines.IsSectionEnd t.position.line last ∧
      ((t.advance length).position = ⟨last + 1, 1⟩ ∨ (t.advance length).rest = [] ∧ last = s.lines.count) := by
  have hne : t.rest ≠ [] := hrest ▸ List.cons_ne_nil _ _
  obtain ⟨hlines, hrun, hline⟩ := h.line_start hs hcolumn
  have hend := linesFrom_isSectionEnd hrun hne 0
  have hcount := count_after hrun hne
  rw [← hlines, ← hline, hrest] at hend
  rw [← hlines, hrest] at hcount
  have hordered := line_le_linesFrom t.position.line false 0 ('?' :: '<' :: tail)
  obtain ⟨skipped, left, hsplit, -, hskipped, hfaults, hafter⟩ :=
    disabledSection_extent t.position.line (List.cons_ne_nil '?' ('<' :: tail))
  refine ⟨_, skipped.length, congrArg₂ Skipped.mk hskipped hfaults, hordered, hend, ?_⟩
  rw [Source.rest_advance_append (hrest.trans hsplit), Source.position_advance_append (hrest.trans hsplit)]
  obtain ⟨hnil, hlast⟩ | ⟨hlast, hnext⟩ := hafter
  · exact .inr ⟨hnil, by omega⟩
  · exact .inl (by rw [Position.afterAll_lineEnd _ hlast, hnext])

/-- A text is scanned up to the opening of a disabled section at the start of a line. Then the section goes on to the next
line that closes it, or to the last line of the text, and the scanner goes on at the start of the line after it, or at the
end of the text if that was the last line. The symbols found before the section are followed by those that are found from
there on, and the section is reported between what was reported before and after it. No symbol and no other diagnostic comes
from a line of it. -/
theorem disabledSection_skipped {filename text : String} {front : List Scanned} {pending : List Diagnostic}
    (hs : Source.ofText filename text = .ok s) (h : Between rules s front pending t) (hopen : ['?', '<'] <+: t.rest)
    (hcolumn : t.position.column = 1) :
    ∃ last length u others, s.lines.IsSectionEnd t.position.line last ∧
      ((t.advance length).position = ⟨last + 1, 1⟩ ∨ (t.advance length).atEnd = true ∧ last = s.lines.count) ∧
      symbols rules (t.advance length) = u :: others ∧
      symbols rules s =
        front ++ ⟨u.symbol, pending.reverse ++ .ofSection ⟨t.position.line, last⟩ :: u.faults⟩ :: others ∧
      (∀ v ∈ symbols rules s, v.symbol.Outside ⟨t.position.line, last⟩) ∧
      ((symbols rules s).flatMap (·.faults)).count (.ofSection ⟨t.position.line, last⟩) = 1 ∧
      ∀ d ∈ (symbols rules s).flatMap (·.faults),
        d = .ofSection ⟨t.position.line, last⟩ ∨ d.Outside ⟨t.position.line, last⟩ := by
  obtain ⟨tail, htail⟩ := hopen
  have hrest : t.rest = '?' :: '<' :: tail := htail.symm
  have hne : t.rest ≠ [] := hrest ▸ List.cons_ne_nil _ _
  obtain ⟨run, hpassed⟩ := h.passed
  obtain ⟨-, hrun, -⟩ := hpassed.line_start hs hcolumn
  obtain ⟨last, length, hskipped, hordered, hend, hresumed⟩ := hpassed.section_extent hs hrest hcolumn
  have hpast := h.disabled hrest hcolumn
  rw [hskipped] at hpast
  obtain ⟨u, others, hothers, hreads, hall⟩ := hpast.found_symbols (Source.length_rest_le hs)
  -- what is found before the section and after it stands outside of its lines
  set r : LineRange := ⟨t.position.line, last⟩ with hr
  have hfirst : t.position.line = r.first := rfl
  obtain ⟨hsymbols, hreports⟩ := hpassed.outside_before hrun hfirst hne
  have hlater : (t.advance length).rest = [] ∨ r.last < (t.advance length).position.line :=
    hresumed.symm.imp And.left fun hposition => by rw [hposition]; exact Nat.lt_succ_self last
  obtain ⟨hsymbols', hreports'⟩ := hreads.outside_after hlater
  have hbefore : ∀ d ∈ front.flatMap (·.faults) ++ pending.reverse, d.Outside r :=
    fun d hd => hreports d (by simpa using hd)
  have hreported : (symbols rules s).flatMap (·.faults) = (front.flatMap (·.faults) ++ pending.reverse) ++
      .ofSection r :: (u :: others).flatMap (·.faults) := by
    rw [hall]
    simp [Diagnostic.ofSection]
  have hnot : ¬(Diagnostic.ofSection r).Outside r := Diagnostic.not_outside_ofSection hordered
  refine ⟨last, length, u, others, hend, ?_, hothers, ?_, fun v hv => ?_, ?_, fun d hd => ?_⟩
  · rwa [Source.atEnd, List.isEmpty_iff]
  · rw [hall]
    simp [Diagnostic.ofSection, hr]
  · rw [hall, List.mem_append] at hv
    obtain hv | hv := hv
    · exact hsymbols _ (List.mem_map.mpr ⟨v, hv, rfl⟩)
    · obtain rfl | hv := List.mem_cons.mp hv
      · exact hsymbols' u (List.mem_cons_self ..)
      · exact hsymbols' v (List.mem_cons_of_mem _ hv)
  · rw [hreported, List.count_append, List.count_cons_self,
      List.count_eq_zero.mpr fun hmem => hnot (hbefore _ hmem),
      List.count_eq_zero.mpr fun hmem => hnot (hreports' _ hmem)]
  · rw [hreported, List.mem_append, List.mem_cons] at hd
    obtain hd | rfl | hd := hd
    · exact .inr (hbefore d hd)
    · exact .inl rfl
    · exact .inr (hreports' d hd)

/-- Of a text of five lines those from the second to the fourth are a disabled section; an invalid character in there is
not reported. -/
theorem disabledSection_skipped_invalid :
    ∃ (s t : Source) (last length : ℕ) (u : Scanned) (others : List Scanned),
      Source.ofText "m" "A\n?<\n!\n>?\nB" = .ok s ∧
      Between Options.standard.scanRules s [⟨⟨.ident, "A", ⟨1, 1⟩⟩, []⟩] [] t ∧ ['?', '<'] <+: t.rest ∧
      t.position = ⟨2, 1⟩ ∧ s.lines.IsSectionEnd 2 last ∧
      ((t.advance length).position = ⟨last + 1, 1⟩ ∨ (t.advance length).atEnd = true ∧ last = s.lines.count) ∧
      symbols Options.standard.scanRules s =
        [⟨⟨.ident, "A", ⟨1, 1⟩⟩, []⟩] ++ ⟨u.symbol, [] ++ .ofSection ⟨2, last⟩ :: u.faults⟩ :: others ∧
      ∀ d ∈ (symbols Options.standard.scanRules s).flatMap (·.faults), d = .ofSection ⟨2, last⟩ ∨ d.Outside ⟨2, last⟩ := by
  set s := Source.ofNormalized "m" "A\n?<\n!\n>?\nB".toList
  have hs : Source.ofText "m" "A\n?<\n!\n>?\nB" = .ok s := by rfl
  have hrest : s.rest = 'A' :: "\n?<\n!\n>?\nB".toList := by rfl
  have hfront : Between Options.standard.scanRules s [⟨⟨.ident, "A", ⟨1, 1⟩⟩, []⟩] [] _ :=
    (Between.start.symbol hrest rfl (by decide) (by decide)).layout
  have hopen : ['?', '<'] <+: (skipLayout (s.advance 1)).rest := ⟨"\n!\n>?\nB".toList, rfl⟩
  obtain ⟨last, length, u, others, hend, hresumed, -, hall, -, -, hothers⟩ := disabledSection_skipped hs hfront hopen rfl
  exact ⟨s, _, last, length, u, others, hs, hfront, hopen, rfl, hend, hresumed, hall, hothers⟩

end Scan

end Modula
