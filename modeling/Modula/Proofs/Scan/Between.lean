import Modula.Proofs.Scan.Comments
import Modula.Proofs.Scan.Complaints
import Modula.Proofs.Scan.Concatenation
import Modula.Proofs.Scan.SectionLines

/-!
# The scanner between two symbols

Between two symbols the scanner has found some symbols, has some faults to list with the next one, and goes on from a
reading point (`Between`). What it has found and reported stands in the text that it has passed, each fault at a
character of it (`Between.passed`), and what it will find is what it finds from that point (`Between.reads`). So a text is
told apart at such a point into what comes before and what comes after it.
-/

set_option autoImplicit false

namespace Modula

/-- The line grows with each line end. -/
theorem Position.line_afterAll (p : Position) (cs : List Char) : (p.afterAll cs).line = p.line + cs.count '\n' := by
  induction cs generalizing p with
  | nil => rfl
  | cons c cs ih =>
    have hrun : (p.afterAll (c :: cs)).line = (p.after c).line + cs.count '\n' := ih (p.after c)
    by_cases hc : c = '\n'
    · have hnext : (p.after c).line = p.line + 1 := by rw [after, if_pos hc]
      rw [hrun, hnext, hc, List.count_cons_self]
      omega
    · have hsame : (p.after c).line = p.line := by rw [after, if_neg hc]
      rw [hrun, hsame, List.count_cons_of_ne hc]

/-- A diagnostic stands in a run of characters that starts at a position, with some text after the run: it has the
position of one of the characters, or the lines from that of one of the characters up to an earlier one than that after
the run, which may also be the last one of the text. -/
inductive Diagnostic.StandsIn (p : Position) (run rest : List Char) (d : Diagnostic) : Prop
  | position (before after : List Char) (hrun : run = before ++ after) (hafter : after ≠ [])
      (hposition : d.position = some (p.afterAll before)) (hlines : d.lines = none)
  | lines (before after : List Char) (last : ℕ) (hrun : run = before ++ after) (hafter : after ≠ [])
      (hposition : d.position = none) (hlines : d.lines = some ⟨(p.afterAll before).line, last⟩)
      (hlast : last < (p.afterAll run).line ∨ rest = [])

namespace Diagnostic.StandsIn

variable {p : Position} {run rest : List Char} {d : Diagnostic}

/-- What stands in a run stands in every run that it is a part of. -/
theorem part {x y rest' : List Char} (h : d.StandsIn (p.afterAll x) run rest) (hrest : rest = y ++ rest') :
    d.StandsIn p (x ++ run ++ y) rest' := by
  cases h with
  | position before after hrun hafter hposition hlines =>
    refine .position (x ++ before) (after ++ y) (by simp [hrun]) (by simp [hafter]) ?_ hlines
    rw [hposition, Position.afterAll_append]
  | lines before after last hrun hafter hposition hlines hlast =>
    refine .lines (x ++ before) (after ++ y) last (by simp [hrun]) (by simp [hafter]) hposition ?_ ?_
    · rw [hlines, Position.afterAll_append]
    · obtain hlast | hnil := hlast
      · refine .inl (hlast.trans_le ?_)
        rw [Position.afterAll_append, Position.afterAll_append, Position.line_afterAll _ y]
        exact Nat.le_add_right _ _
      · exact .inr (List.append_eq_nil_iff.mp (hrest.symm.trans hnil)).2

/-- What stands somewhere in a run stands at one of its characters. -/
theorem ne_nil (h : d.StandsIn p run rest) : run ≠ [] := by
  cases h with
  | position _ _ hrun hafter | lines _ _ _ hrun hafter => simp [hrun, hafter]

end Diagnostic.StandsIn

namespace Scan

/-! ## Where faults stand -/

/-- Faults in a string stand in its contents. -/
theorem StringContent.standsIn {quote : Char} {escapes : Bool} {after : List Char} {p : Position} {body : List Char}
    {stray : List Diagnostic} (h : StringContent quote escapes after p body stray) (rest : List Char) :
    ∀ d ∈ stray, d.StandsIn p body rest := by
  -- what stands in the rest of the content stands in all of it
  have hinner : ∀ {p : Position} (x : List Char) {body : List Char} {stray : List Diagnostic},
      (∀ d ∈ stray, d.StandsIn (p.afterAll x) body rest) → ∀ d ∈ stray, d.StandsIn p (x ++ body) rest := by
    intro p x body stray h d hd
    rw [← List.append_nil (x ++ body)]
    exact (h d hd).part rfl
  induction h with
  | nil | last => simp
  | @plain p c body stray hquote hline hescape next ih => exact hinner [c] ih
  | @escape p e body stray hescapes hknown next ih => exact hinner ['\\', e] ih
  | @stray p e body stray hescapes hnext hknown hline next ih =>
    intro d hd
    obtain rfl | hd := List.mem_cons.mp hd
    · exact .position [] _ rfl (by simp) rfl rfl
    · exact hinner ['\\'] ih d hd

/-- What is reported of a symbol stands in it. -/
theorem Complaints.standsIn {rules : ScanRules} {u : Symbol} {after : List Char} {own : List Diagnostic}
    (h : Complaints rules u after own) (hu : u.lexeme.toList ≠ []) (rest : List Char) :
    ∀ d ∈ own, d.StandsIn u.position u.lexeme.toList rest := by
  have hstart : ∀ {d : Diagnostic}, d.position = some u.position → d.lines = Option.none →
      d.StandsIn u.position u.lexeme.toList rest := fun hposition hlines => .position [] _ rfl hu hposition hlines
  cases h with
  | character | integer | real | ident | pragma =>
    intro d hd
    obtain rfl := List.mem_singleton.mp hd
    exact hstart rfl rfl
  | none => simp
  | @string quote body closing stray ending htoken hquote hlexeme hbody hend hsome =>
    intro d hd
    obtain hd | hd := List.mem_append.mp hd
    · have hstands : d.StandsIn (u.position.afterAll [quote]) body (closing ++ rest) := hbody.standsIn _ d hd
      have hlonger : d.StandsIn u.position ([quote] ++ body ++ closing) rest := hstands.part rfl
      rw [hlexeme]
      simpa using hlonger
    · cases hend with
      | quote => cases hd
      | line | text =>
        obtain rfl := List.mem_singleton.mp hd
        exact hstart rfl rfl

/-- Faults of a comment stand in it. -/
theorem CommentFault.standsIn {p : Position} {run : List Char} {d : Diagnostic} (h : CommentFault p run d)
    (rest : List Char) : d.StandsIn p run rest := by
  obtain ⟨code, front, -, ⟨tail, htail⟩, rfl⟩ := h
  exact .position front (['(', '*'] ++ tail) (by rw [← htail, List.append_assoc]) (by simp) rfl rfl

/-- A disabled section takes a run of the text, and what is reported of it stands in there. -/
theorem disabledSection_standsIn (p : Position) (cs : List Char) :
    ∃ run rest, '?' :: '<' :: cs = run ++ rest ∧ (disabledSection p.line ('?' :: '<' :: cs)).length = run.length ∧
      ∀ d ∈ (disabledSection p.line ('?' :: '<' :: cs)).faults, d.StandsIn p run rest := by
  obtain ⟨run, rest, hsplit, hrun, hlength, hfaults, hend⟩ :=
    disabledSection_extent p.line (List.cons_ne_nil '?' ('<' :: cs))
  refine ⟨run, rest, hsplit, hlength, fun d hd => ?_⟩
  rw [hfaults] at hd
  obtain rfl := List.mem_singleton.mp hd
  refine .lines [] _ _ rfl hrun rfl rfl ?_
  obtain ⟨hnil, -⟩ | ⟨-, hcount⟩ := hend
  · exact .inr hnil
  · refine .inl ?_
    rw [Position.line_afterAll, ← hcount]
    exact Nat.lt_succ_self _

/-! ## Between two symbols -/

/-- On its way through a text the scanner stands between two symbols. Given are the symbols found before, and the faults
found since the last one of them, last one first. -/
inductive Between (rules : ScanRules) (s : Source) : List Scanned → List Diagnostic → Source → Prop
  | start : Between rules s [] [] s
  | layout {front : List Scanned} {pending : List Diagnostic} {t : Source} (h : Between rules s front pending t) :
      Between rules s front pending (skipLayout t)
  | comment {front : List Scanned} {pending : List Diagnostic} {t : Source} {rest : List Char}
      (h : Between rules s front pending t) (hrest : t.rest = '(' :: '*' :: rest) :
      Between rules s front ((comment t.position rest).faults.reverse ++ pending)
        (t.advance (comment t.position rest).length)
  | disabled {front : List Scanned} {pending : List Diagnostic} {t : Source} {rest : List Char}
      (h : Between rules s front pending t) (hrest : t.rest = '?' :: '<' :: rest) (hcolumn : t.position.column = 1) :
      Between rules s front ((disabledSection t.position.line ('?' :: '<' :: rest)).faults.reverse ++ pending)
        (t.advance (disabledSection t.position.line ('?' :: '<' :: rest)).length)
  | symbol {front : List Scanned} {pending : List Diagnostic} {t : Source} {c : Char} {rest : List Char}
      (h : Between rules s front pending t) (hrest : t.rest = c :: rest) (hlayout : isLayout c = false)
      (hcomment : ¬ (c = '(' ∧ rest.head? = some '*'))
      (hsection : ¬ (c = '?' ∧ rest.head? = some '<' ∧ t.position.column = 1)) :
      Between rules s
        (front ++ [⟨⟨(symbolAt rules t.position c rest).token,
          String.ofList (symbolAt rules t.position c rest).spelling, t.position⟩,
          pending.reverse ++ (symbolAt rules t.position c rest).faults⟩])
        [] (t.advance (symbolAt rules t.position c rest).spelling.length)

variable {rules : ScanRules} {s t : Source} {front : List Scanned} {pending : List Diagnostic}

/-! ## What has been passed -/

/-- A symbol stands in a run of characters that starts at a position. -/
def SpelledIn (p : Position) (run : List Char) (u : Symbol) : Prop :=
  ∃ before after, run = before ++ u.lexeme.toList ++ after ∧ u.lexeme ≠ "" ∧ u.position = p.afterAll before

/-- A symbol that is spelled in a part of a run is spelled in the run. -/
theorem SpelledIn.part {p : Position} {x run y : List Char} {u : Symbol} (h : SpelledIn (p.afterAll x) run u) :
    SpelledIn p (x ++ run ++ y) u := by
  obtain ⟨before, after, rfl, hne, hposition⟩ := h
  exact ⟨x ++ before, after ++ y, by simp, hne, by rw [hposition, Position.afterAll_append]⟩

/-- From one reading point to another a run of characters has been passed, with these symbols and faults in it. -/
structure Passed (s t : Source) (symbols : List Symbol) (faults : List Diagnostic) (run : List Char) : Prop where
  rest : s.rest = run ++ t.rest
  position : t.position = s.position.afterAll run
  length : t.length = s.length
  symbols : ∀ u ∈ symbols, SpelledIn s.position run u
  faults : ∀ d ∈ faults, d.StandsIn s.position run t.rest

/-- To pass some more characters adds what stands in these. -/
theorem Passed.advance {us us' : List Symbol} {ds ds' : List Diagnostic} {run x rest : List Char}
    (h : Passed s t us ds run) (hrest : t.rest = x ++ rest) (hus : ∀ u ∈ us', u ∈ us ∨ SpelledIn t.position x u)
    (hds : ∀ d ∈ ds', d ∈ ds ∨ d.StandsIn t.position x rest) :
    Passed s (t.advance x.length) us' ds' (run ++ x) := by
  have hafter := Source.rest_advance_append hrest
  refine ⟨?_, ?_, ?_, fun u hu => ?_, fun d hd => ?_⟩
  · rw [h.rest, hrest, hafter, List.append_assoc]
  · rw [Source.position_advance_append hrest, h.position, Position.afterAll_append]
  · rw [Source.length_advance, h.length]
  · obtain hearlier | hhere := hus u hu
    · exact (h.symbols u hearlier).part (x := [])
    · rw [h.position] at hhere
      simpa using hhere.part (y := [])
  · rw [hafter]
    obtain hearlier | hhere := hds d hd
    · exact (h.faults d hearlier).part (x := []) hrest
    · rw [h.position] at hhere
      simpa using hhere.part (List.nil_append rest).symm

/-- To skip some characters adds the faults that stand in these. -/
theorem Passed.skip {us : List Symbol} {earlier skipped : List Diagnostic} {run x rest : List Char}
    (h : Passed s t us (earlier ++ pending) run) (hrest : t.rest = x ++ rest)
    (hskipped : ∀ d ∈ skipped, d.StandsIn t.position x rest) :
    Passed s (t.advance x.length) us (earlier ++ (skipped.reverse ++ pending)) (run ++ x) := by
  refine h.advance hrest (fun _ hu => .inl hu) (fun d hd => ?_)
  simp only [List.mem_append, List.mem_reverse] at hd ⊢
  obtain hearlier | hhere | hearlier := hd
  · exact .inl (.inl hearlier)
  · exact .inr (hskipped d hhere)
  · exact .inl (.inr hearlier)

/-- What the scanner has found and reported stands in the text that it has passed. -/
theorem Between.passed (h : Between rules s front pending t) :
    ∃ run, Passed s t (front.map (·.symbol)) (front.flatMap (·.faults) ++ pending) run := by
  induction h with
  | start => exact ⟨[], rfl, rfl, rfl, by simp, by simp⟩
  | layout h ih =>
    obtain ⟨run, hrun⟩ := ih
    exact ⟨_, hrun.advance (skipLayout_rest _) (fun _ hu => .inl hu) (fun _ hd => .inl hd)⟩
  | @comment front pending t rest h hrest ih =>
    obtain ⟨run, hrun⟩ := ih
    obtain ⟨skipped, after, hsplit, hlength, hfaults⟩ := comment_faults t.position rest
    rw [hlength]
    exact ⟨_, hrun.skip (hrest.trans hsplit) fun d hd => (hfaults d hd).standsIn after⟩
  | @disabled front pending t rest h hrest hcolumn ih =>
    obtain ⟨run, hrun⟩ := ih
    obtain ⟨skipped, after, hsplit, hlength, hfaults⟩ := disabledSection_standsIn t.position rest
    rw [hlength]
    exact ⟨_, hrun.skip (hrest.trans hsplit) hfaults⟩
  | @symbol front pending t c rest h hrest hlayout hcomment hsection ih =>
    obtain ⟨run, hrun⟩ := ih
    obtain ⟨-, hne, after, hafter⟩ := symbolAt_spells rules t.position c rest
    have hcomplaints := @symbolAt_complaints rules t.position c rest
    have hstands := hcomplaints.standsIn (by simpa using hne) after
    rw [String.toList_ofList] at hstands
    refine ⟨_, hrun.advance (hrest.trans hafter.symm) (fun u hu => ?_) (fun d hd => ?_)⟩
    · rw [List.map_append, List.mem_append, List.map_singleton, List.mem_singleton] at hu
      obtain hearlier | rfl := hu
      · exact .inl hearlier
      · exact .inr ⟨[], [], by simp, by simpa [String.ofList_eq_empty_iff] using hne, rfl⟩
    · simp only [List.flatMap_append, List.flatMap_singleton, List.append_nil, List.mem_append, List.mem_reverse]
        at hd ⊢
      obtain hearlier | hearlier | hhere := hd
      · exact .inl (.inl hearlier)
      · exact .inl (.inr hearlier)
      · exact .inr (hstands d hhere)

/-! ## What comes next -/

variable {t' : Source} {found : Scanned} {others : List Scanned}

/-- Layout is skipped once. -/
theorem skipLayout_skipLayout (s : Source) : skipLayout (skipLayout s) = skipLayout s := by
  cases h : (skipLayout s).rest with
  | nil => simp [skipLayout.eq_1 (skipLayout s), h, Source.advance]
  | cons c rest => exact skipLayout_other h (isLayout_of_skipLayout h)

/-- What the scanner finds next after what it has found is what it finds in all. -/
theorem Between.reads (h : Between rules s front pending t) (hfinds : Finds rules t pending found t')
    (hnext : found.symbol.token = .eof ∧ others = [] ∨ found.symbol.token ≠ .eof ∧ Reads rules t' others) :
    Reads rules s (front ++ found :: others) := by
  induction h generalizing found t' others with
  | start => exact reads_cons_iff.mpr ⟨t', hfinds, hnext⟩
  | layout h ih => exact ih (hfinds.of_skipLayout (skipLayout_skipLayout _)) hnext
  | comment h hrest ih =>
    have hskip := skipLayout_other hrest rfl
    refine ih ((finds_comment_iff (by rwa [hskip])).mpr ?_) hnext
    rwa [hskip]
  | disabled h hrest hcolumn ih =>
    have hskip := skipLayout_other hrest rfl
    refine ih ((finds_disabled_iff (by rwa [hskip]) (by rwa [hskip])).mpr ?_) hnext
    rwa [hskip]
  | @symbol front pending t c rest h hrest hlayout hcomment hsection ih =>
    have hskip := skipLayout_other hrest hlayout
    have hsymbol := @Finds.symbol rules t pending c rest (by rwa [hskip]) hcomment (by rwa [hskip])
    rw [hskip] at hsymbol
    rw [List.append_assoc, List.singleton_append]
    exact ih hsymbol (.inr ⟨(symbolAt_spells rules t.position c rest).1, reads_cons_iff.mpr ⟨t', hfinds, hnext⟩⟩)

/-- What a scan of the text from its reading point on finds, with the faults reported before, comes after what the scanner
has found. -/
theorem Between.found_symbols (h : Between rules s front pending t) (hs : s.rest.length ≤ s.length) :
    ∃ u others, symbols rules t = u :: others ∧ Reads rules t (u :: others) ∧
      symbols rules s = front ++ ⟨u.symbol, pending.reverse ++ u.faults⟩ :: others := by
  obtain ⟨run, hpassed⟩ := h.passed
  have ht : t.rest.length ≤ t.length := by
    rw [hpassed.rest, List.length_append] at hs
    rw [hpassed.length]
    omega
  have hreads := reads_symbols rules t ht
  obtain ⟨u, others, hothers⟩ : ∃ u others, symbols rules t = u :: others := by
    cases hfound : symbols rules t with
    | nil => cases hfound ▸ hreads
    | cons u others => exact ⟨u, others, rfl⟩
  rw [hothers] at hreads
  obtain ⟨t', hfinds, hnext⟩ := reads_cons_iff.mp hreads
  obtain ⟨own, hown, hagain⟩ := hfinds.of_before
  rw [List.reverse_nil, List.nil_append] at hown
  refine ⟨u, others, hothers, hreads, ?_⟩
  rw [hown]
  exact (reads_symbols rules s hs).unique (h.reads (hagain pending) hnext)

/-- On its way to the next symbol the scanner passes the gap before it, and at the end of the text the whole text. -/
theorem Between.finds (h : Between rules s front pending t) (hfinds : Finds rules t pending found t') :
    found.symbol.token ≠ .eof ∧ Between rules s (front ++ [found]) [] t' ∨
      found.symbol.token = .eof ∧ t'.rest = [] ∧ Between rules s front found.faults.reverse t' := by
  induction hfinds generalizing front with
  | finish hrest => exact .inr ⟨rfl, hrest, by simpa using h.layout⟩
  | comment hrest less next ih => exact ih (h.layout.comment hrest)
  | disabled hrest hcolumn less next ih => exact ih (h.layout.disabled hrest hcolumn)
  | @symbol t pending c rest hrest hcomment hsection =>
    exact .inl ⟨(symbolAt_spells rules _ c rest).1,
      h.layout.symbol hrest (isLayout_of_skipLayout hrest) hcomment hsection⟩

/-- A reading of a text leads to the end of it, with nothing but the end of the input left to be found. -/
theorem Between.finish (h : Between rules s front [] t) {found : List Scanned} (hreads : Reads rules t found) :
    ∃ body u p t', found = body ++ [u] ∧ u.symbol = .endOfInput p ∧ t'.rest = [] ∧
      Between rules s (front ++ body) u.faults.reverse t' := by
  induction hreads generalizing front with
  | @last t t' u hfinds heof =>
    obtain ⟨hne, -⟩ | ⟨-, hrest, hend⟩ := h.finds hfinds
    · exact (hne heof).elim
    · exact ⟨[], u, _, t', rfl, (hfinds.splits.of_eof heof).1, hrest, by simpa using hend⟩
  | @more t t' u others hfinds heof less next ih =>
    obtain ⟨-, hpast⟩ | ⟨hof, -⟩ := h.finds hfinds
    · obtain ⟨body, last, p, t'', rfl, hlast, hrest, hend⟩ := ih hpast
      exact ⟨u :: body, last, p, t'', rfl, hlast, hrest, by simpa using hend⟩
    · exact (heof hof).elim

end Scan

end Modula
