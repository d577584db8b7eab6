import Modula.Proofs.Scan.Contexts
import Modula.Proofs.Scan.Order

/-!
# A pragma between two symbols

A pragma that stands between blanks in the gap between two symbols is found there, and all other symbols are found as
they were (`Reads.insertion`): those in front of it at the same places, with the same faults, and those after it at other
places. What was reported of the part of the gap that is now in front of the pragma is reported with the pragma.
-/

set_option autoImplicit false

namespace Modula

/-- A source advances in several steps. -/
theorem Source.advance_add (s : Source) (m n : Nat) : s.advance (m + n) = (s.advance m).advance n := by
  induction m generalizing s with
  | zero => rw [Nat.zero_add, advance]
  | succ m ih => rw [Nat.succ_add, advance, advance, ih]

namespace Scan

variable {rules : ScanRules} {s s' : Source} {before : List Diagnostic} {found : Scanned}

/-! ## What is found is determined by what comes first -/

/-- A character of layout is skipped. -/
theorem skipLayout_layout {c : Char} {rest : List Char} (h : s.rest = c :: rest) (hc : isLayout c = true) :
    skipLayout s = skipLayout s.read := by
  simp [skipLayout, Source.read, Source.advance, h, hc]

/-- Before any other character nothing is skipped. -/
theorem skipLayout_other {c : Char} {rest : List Char} (h : s.rest = c :: rest) (hc : isLayout c = false) :
    skipLayout s = s := by
  simp [skipLayout, Source.advance, h, hc]

/-- Where a symbol starts, it is found. -/
theorem finds_here {c : Char} {rest : List Char} (hs : s.rest = c :: rest) (hlayout : isLayout c = false)
    (hcomment : ¬(c = '(' ∧ rest.head? = some '*'))
    (hsection : ¬(c = '?' ∧ rest.head? = some '<' ∧ s.position.column = 1)) :
    Finds rules s before
      ⟨⟨(symbolAt rules s.position c rest).token, String.ofList (symbolAt rules s.position c rest).spelling, s.position⟩,
        before.reverse ++ (symbolAt rules s.position c rest).faults⟩
      (s.advance (symbolAt rules s.position c rest).spelling.length) := by
  have hskip := skipLayout_other hs hlayout
  have hfinds := @Finds.symbol rules s before c rest (by rw [hskip]; exact hs) hcomment (by rw [hskip]; exact hsection)
  rwa [hskip] at hfinds

/-- A scan does not see layout before a symbol. -/
theorem Finds.of_skipLayout {t : Source} (h : Finds rules s before found s') (hst : skipLayout s = skipLayout t) :
    Finds rules t before found s' := by
  cases h with
  | finish hrest =>
    rw [hst] at hrest ⊢
    exact .finish hrest
  | comment hrest less next =>
    rw [hst] at hrest next
    exact .comment hrest (length_after_comment_lt hrest) next
  | disabled hrest hcolumn less next =>
    rw [hst] at hrest hcolumn next
    exact .disabled hrest hcolumn (length_after_disabled_lt hrest hcolumn) next
  | symbol hrest hcomment hsection =>
    rw [hst] at hrest hsection ⊢
    exact .symbol hrest hcomment hsection

/-- After a comment a scan goes on with its faults kept. -/
theorem finds_comment_iff {rest : List Char} (h : (skipLayout s).rest = '(' :: '*' :: rest) :
    Finds rules s before found s' ↔
      Finds rules ((skipLayout s).advance (comment (skipLayout s).position rest).length)
        ((comment (skipLayout s).position rest).faults.reverse ++ before) found s' := by
  refine ⟨fun hfinds => ?_, .comment h (length_after_comment_lt h)⟩
  cases hfinds with
  | finish hrest => cases h.symm.trans hrest
  | comment hrest less next =>
    obtain rfl : rest = _ := by simpa using h.symm.trans hrest
    exact next
  | disabled hrest hcolumn less next => cases h.symm.trans hrest
  | symbol hrest hcomment hsection =>
    obtain ⟨rfl, rfl⟩ := List.cons.inj (h.symm.trans hrest)
    exact (hcomment ⟨rfl, rfl⟩).elim

/-- After a disabled section it does so, too. -/
theorem finds_disabled_iff {rest : List Char} (h : (skipLayout s).rest = '?' :: '<' :: rest)
    (hcolumn : (skipLayout s).position.column = 1) :
    Finds rules s before found s' ↔
      Finds rules ((skipLayout s).advance (disabledSection (skipLayout s).position.line ('?' :: '<' :: rest)).length)
        ((disabledSection (skipLayout s).position.line ('?' :: '<' :: rest)).faults.reverse ++ before) found s' := by
  refine ⟨fun hfinds => ?_, .disabled h hcolumn (length_after_disabled_lt h hcolumn)⟩
  cases hfinds with
  | finish hrest => cases h.symm.trans hrest
  | comment hrest less next => cases h.symm.trans hrest
  | disabled hrest hcolumn less next =>
    obtain rfl : rest = _ := by simpa using h.symm.trans hrest
    exact next
  | symbol hrest hcomment hsection =>
    obtain ⟨rfl, rfl⟩ := List.cons.inj (h.symm.trans hrest)
    exact (hsection ⟨rfl, rfl, hcolumn⟩).elim

/-- A scan finds one thing only. -/
theorem Finds.unique {found' : Scanned} {s'' : Source} (h : Finds rules s before found s')
    (h' : Finds rules s before found' s'') : found = found' ∧ s' = s'' := by
  induction h with
  | finish hrest =>
    cases h' with
    | finish hrest' => exact ⟨rfl, rfl⟩
    | comment hrest' | disabled hrest' | symbol hrest' => cases hrest.symm.trans hrest'
  | comment hrest less next ih => exact ih ((finds_comment_iff hrest).mp h')
  | disabled hrest hcolumn less next ih => exact ih ((finds_disabled_iff hrest hcolumn).mp h')
  | symbol hrest hcomment hsection =>
    cases h' with
    | finish hrest' => cases hrest.symm.trans hrest'
    | comment hrest' =>
      obtain ⟨rfl, rfl⟩ := List.cons.inj (hrest.symm.trans hrest')
      exact (hcomment ⟨rfl, rfl⟩).elim
    | disabled hrest' hcolumn' =>
      obtain ⟨rfl, rfl⟩ := List.cons.inj (hrest.symm.trans hrest')
      exact (hsection ⟨rfl, rfl, hcolumn'⟩).elim
    | symbol hrest' hcomment' hsection' =>
      obtain ⟨rfl, rfl⟩ := List.cons.inj (hrest.symm.trans hrest')
      exact ⟨rfl, rfl⟩

/-- A text is read in one way only. -/
theorem Reads.unique {found found' : List Scanned} (h : Reads rules s found) (h' : Reads rules s found') :
    found = found' := by
  induction h generalizing found' with
  | last hfinds heof =>
    cases h' with
    | last hfinds' heof' => rw [(hfinds.unique hfinds').1]
    | more hfinds' heof' less' next' => exact (heof' ((hfinds.unique hfinds').1 ▸ heof)).elim
  | more hfinds heof less next ih =>
    cases h' with
    | last hfinds' heof' => exact (heof ((hfinds.unique hfinds').1 ▸ heof')).elim
    | more hfinds' heof' less' next' =>
      obtain ⟨rfl, rfl⟩ := hfinds.unique hfinds'
      rw [ih next']

/-- What was reported before comes first, and decides nothing. -/
theorem Finds.of_before (h : Finds rules s before found s') :
    ∃ faults, found.faults = before.reverse ++ faults ∧
      ∀ before', Finds rules s before' ⟨found.symbol, before'.reverse ++ faults⟩ s' := by
  induction h with
  | finish hrest => exact ⟨[], by simp, fun before' => by simpa using .finish hrest⟩
  | @comment s s' before rest found hrest less next ih =>
    obtain ⟨faults, hfaults, hfinds⟩ := ih
    refine ⟨(Scan.comment (skipLayout s).position rest).faults ++ faults, by simp [hfaults], fun before' => ?_⟩
    have hnext := hfinds ((Scan.comment (skipLayout s).position rest).faults.reverse ++ before')
    rw [List.reverse_append, List.reverse_reverse, List.append_assoc] at hnext
    exact .comment hrest less hnext
  | @disabled s s' before rest found hrest hcolumn less next ih =>
    obtain ⟨faults, hfaults, hfinds⟩ := ih
    refine ⟨(disabledSection (skipLayout s).position.line ('?' :: '<' :: rest)).faults ++ faults, by simp [hfaults],
      fun before' => ?_⟩
    have hnext := hfinds ((disabledSection (skipLayout s).position.line ('?' :: '<' :: rest)).faults.reverse ++ before')
    rw [List.reverse_append, List.reverse_reverse, List.append_assoc] at hnext
    exact .disabled hrest hcolumn less hnext
  | symbol hrest hcomment hsection => exact ⟨_, rfl, fun before' => .symbol hrest hcomment hsection⟩

/-! ## Gaps -/

/-- A piece of text at a place can be taken off before a symbol is looked for. What is reported of it depends on nothing
that comes before or after it. -/
def TakenOff (rules : ScanRules) (p : Position) (piece : List Char) (faults : List Diagnostic) : Prop :=
  ∀ (s : Source) (rest : List Char) (before : List Diagnostic) (found : Scanned) (s' : Source),
    s.rest = piece ++ rest → s.position = p →
      (Finds rules s before found s' ↔ Finds rules (s.advance piece.length) (faults.reverse ++ before) found s')

namespace TakenOff

variable {p : Position} {piece piece' cs : List Char} {faults faults' : List Diagnostic}

/-- Two pieces are taken off one after the other. -/
theorem append (h : TakenOff rules p piece faults) (h' : TakenOff rules (p.afterAll piece) piece' faults') :
    TakenOff rules p (piece ++ piece') (faults ++ faults') := by
  intro s rest before found s' hs hp
  rw [List.append_assoc] at hs
  have hposition : (s.advance piece.length).position = p.afterAll piece := hp ▸ Source.position_advance_append hs
  rw [h s _ before found s' hs hp, h' _ rest _ found s' (Source.rest_advance_append hs) hposition, ← Source.advance_add,
    List.length_append, List.reverse_append, List.append_assoc]

/-- Layout is taken off, and nothing is reported of it. -/
theorem layout {c : Char} (hc : isLayout c = true) : TakenOff rules p [c] [] := by
  intro s rest before found s' hs hp
  have hskip := skipLayout_layout hs hc
  exact ⟨fun hfinds => hfinds.of_skipLayout hskip, fun hfinds => hfinds.of_skipLayout hskip.symm⟩

/-- A comment is taken off if it is closed. -/
theorem comment (h : CommentRest true 1 cs) : TakenOff rules p ('(' :: '*' :: cs) (Scan.comment p cs).faults := by
  intro s rest before found s' hs hp
  have hskip : skipLayout s = s := skipLayout_other hs rfl
  obtain ⟨hsame, hlength⟩ := commentFrom_closed h p ((p.after '(').after '*') 2 none rest
  have hopen : (skipLayout s).rest = '(' :: '*' :: (cs ++ rest) := by simp [hskip, hs]
  have hcomment : Scan.comment p (cs ++ rest) = Scan.comment p cs := hsame
  have hcount : (Scan.comment p cs).length = ('(' :: '*' :: cs).length := hlength.trans (by simp; omega)
  rw [finds_comment_iff hopen, hskip, hp, hcomment, hcount]

/-- A disabled section is taken off if a line closes it. -/
theorem disabled (hcolumn : p.column = 1) (h : SectionRest true false ('?' :: '<' :: cs)) :
    TakenOff rules p ('?' :: '<' :: cs) (disabledSection p.line ('?' :: '<' :: cs)).faults := by
  intro s rest before found s' hs hp
  have hskip : skipLayout s = s := skipLayout_other hs rfl
  obtain ⟨hsame, hlength⟩ := linesFrom_ended h p.line 0 rest
  have hopen : (skipLayout s).rest = '?' :: '<' :: (cs ++ rest) := by simp [hskip, hs]
  have hsection : disabledSection p.line ('?' :: '<' :: (cs ++ rest)) = disabledSection p.line ('?' :: '<' :: cs) := by
    simp only [disabledSection]
    rw [← hsame]
    rfl
  have hcount : (disabledSection p.line ('?' :: '<' :: cs)).length = ('?' :: '<' :: cs).length := by
    simpa [disabledSection] using hlength
  rw [finds_disabled_iff hopen (by rw [hskip, hp]; exact hcolumn), hskip, hp, hsection, hcount]

end TakenOff

/-- A gap between two symbols is taken off, piece by piece. -/
theorem Gap.takenOff {p : Position} {gap : List Char} (h : Gap false p gap) :
    ∃ faults : List Diagnostic, TakenOff rules p gap faults := by
  generalize hfinal : false = final at h
  induction h with
  | nil => exact ⟨[], fun _ _ _ _ _ _ _ => .rfl⟩
  | layout hc h ih =>
    obtain ⟨faults, hgap⟩ := ih hfinal
    exact ⟨_, (TakenOff.layout (isLayout_iff.mpr hc)).append hgap⟩
  | comment hcs h ih =>
    obtain ⟨faults, hgap⟩ := ih hfinal
    exact ⟨_, (TakenOff.comment hcs).append hgap⟩
  | disabled hcolumn hcs h ih =>
    obtain ⟨faults, hgap⟩ := ih hfinal
    exact ⟨_, (TakenOff.disabled hcolumn hcs).append hgap⟩
  | openComment | openSection => cases hfinal

/-! ## The symbols in front -/

/-- What is found with nothing in front of it, is found wherever a suitable text comes after it. -/
theorem Finds.context_bare (h : Finds rules s before found s') (heof : found.symbol.token ≠ .eof)
    {spelling after' : List Char} (hs : s.rest = spelling ++ s'.rest)
    (hlexeme : found.symbol.lexeme = String.ofList spelling) (hafter : Suits found.faults after' s'.rest) {t : Source}
    (ht : t.rest = spelling ++ after') (hposition : t.position = s.position) :
    ∃ t', Finds rules t before found t' ∧ t'.rest = after' ∧ t'.position = s'.position := by
  have hlength := congrArg List.length hs
  rw [List.length_append] at hlength
  -- the text is no more than the spelling and what is left, so nothing stands in front of the symbol
  have hnone : ∀ {u : Source} {before' : List Diagnostic}, Finds rules u before' found s' →
      s.rest.length ≤ u.rest.length := by
    intro u before' hfinds
    obtain ⟨gap, spelling', hu, -, -, -, hlexeme', -⟩ := hfinds.splits.of_ne_eof heof
    obtain rfl : spelling = spelling' := by
      rw [hlexeme] at hlexeme'
      simpa using congrArg String.toList hlexeme'
    have hlength' := congrArg List.length hu
    simp only [List.length_append] at hlength'
    omega
  cases h with
  | finish hrest => exact (heof rfl).elim
  | comment hrest less next =>
    have hle := hnone next
    omega
  | disabled hrest hcolumn less next =>
    have hle := hnone next
    omega
  | @symbol _ _ c rest hrest hcomment hsection =>
    have hspelling : (symbolAt rules (skipLayout s).position c rest).spelling = spelling := by
      simpa using congrArg String.toList hlexeme
    have hsymbol : (skipLayout s).rest = s.rest := by
      obtain ⟨-, -, after, hafter⟩ := symbolAt_spells rules (skipLayout s).position c rest
      rw [hs, Source.rest_advance, hrest, ← hafter, List.drop_left, hspelling]
    have hnothing : s.rest.takeWhile isLayout = [] := by
      have hsplit := skipLayout_rest s
      rw [hsymbol] at hsplit
      exact List.append_left_eq_self.mp hsplit.symm
    have hskip : skipLayout s = s := by rw [skipLayout, hnothing, List.length_nil, Source.advance]
    rw [hskip] at hrest hsection hspelling hs hafter ⊢
    rw [hspelling] at hs hafter ⊢
    obtain ⟨rest', htext, hsame, hhead⟩ :=
      symbolAt_context (by rw [hspelling, ← hrest]; exact hs) hafter.of_append
    rw [hspelling] at htext
    rw [htext] at ht
    have hc : isLayout c = false := by
      by_contra hc
      simp [hrest, hc] at hnothing
    have hskip' : skipLayout t = t := skipLayout_other ht hc
    have hsecond : ∀ d, d ≠ ' ' → rest'.head? = some d → rest.head? = some d := by
      intro d hd hhead'
      obtain hkept | hblank := hhead
      · exact hkept.symm.trans hhead'
      · exact (hd (Option.some.inj (hhead'.symm.trans hblank))).elim
    have hfinds := @Finds.symbol rules t before c rest' (by rw [hskip', ht])
      (fun h => hcomment ⟨h.1, hsecond _ (by decide) h.2⟩)
      (fun h => hsection ⟨h.1, hsecond _ (by decide) h.2.1, by rw [← hposition, ← hskip']; exact h.2.2⟩)
    rw [hskip', hposition, hsame, hspelling] at hfinds
    have ht' : t.rest = spelling ++ after' := ht.trans htext.symm
    refine ⟨_, hfinds, Source.rest_advance_append ht', ?_⟩
    rw [Source.position_advance_append ht', Source.position_advance_append hs, hposition]

/-- What is found after a gap is found wherever a suitable text comes after it. -/
theorem Finds.context (h : Finds rules s before found s') (heof : found.symbol.token ≠ .eof)
    {kept after' : List Char} (hs : s.rest = kept ++ s'.rest) (hafter : Suits found.faults after' s'.rest) {t : Source}
    (ht : t.rest = kept ++ after') (hposition : t.position = s.position) :
    ∃ t', Finds rules t before found t' ∧ t'.rest = after' ∧ t'.position = s'.position := by
  obtain ⟨gap, spelling, hsplit, -, hgap, -, hlexeme, -⟩ := h.splits.of_ne_eof heof
  obtain rfl : kept = gap ++ spelling := List.append_cancel_right (hs.symm.trans hsplit)
  obtain ⟨faults, hiff⟩ := @Gap.takenOff rules _ _ hgap
  rw [List.append_assoc] at hs ht
  have hnext := (hiff s _ before found s' hs rfl).mp h
  have hsame : (t.advance gap.length).position = (s.advance gap.length).position := by
    rw [Source.position_advance_append ht, Source.position_advance_append hs, hposition]
  obtain ⟨t', hfinds, hend⟩ := hnext.context_bare heof (Source.rest_advance_append hs) hlexeme hafter
    (Source.rest_advance_append ht) hsame
  exact ⟨t', (hiff t _ before found t' ht hposition).mpr hfinds, hend⟩

/-- Some symbols of a text, found one after the other. -/
inductive Passes (rules : ScanRules) : Source → List Scanned → Source → Prop
  | nil {s : Source} : Passes rules s [] s
  | cons {s s' s'' : Source} {found : Scanned} {others : List Scanned} (h : Finds rules s [] found s')
      (heof : found.symbol.token ≠ .eof) (next : Passes rules s' others s'') : Passes rules s (found :: others) s''

variable {front others : List Scanned}

/-- The symbols of a text are the first one, and those after it unless it is the end. -/
theorem reads_cons_iff : Reads rules s (found :: others) ↔
    ∃ s', Finds rules s [] found s' ∧
      (found.symbol.token = .eof ∧ others = [] ∨ found.symbol.token ≠ .eof ∧ Reads rules s' others) := by
  constructor
  · intro h
    cases h with
    | last hfinds heof => exact ⟨_, hfinds, .inl ⟨heof, rfl⟩⟩
    | more hfinds heof less next => exact ⟨_, hfinds, .inr ⟨heof, next⟩⟩
  · rintro ⟨s', hfinds, ⟨heof, rfl⟩ | ⟨heof, next⟩⟩
    · exact .last hfinds heof
    · exact .more hfinds heof (hfinds.splits.length_lt heof) next

/-- The first symbols of a text are passed on the way to the others. -/
theorem Reads.passes (h : Reads rules s (front ++ others)) (hothers : others ≠ []) :
    ∃ s', Passes rules s front s' ∧ Reads rules s' others := by
  induction front generalizing s with
  | nil => exact ⟨s, .nil, h⟩
  | cons found front ih =>
    obtain ⟨s₁, hfinds, ⟨-, hnil⟩ | ⟨heof, hnext⟩⟩ := reads_cons_iff.mp h
    · exact (hothers (List.append_eq_nil_iff.mp hnil).2).elim
    · obtain ⟨s', hpasses, hreads⟩ := ih hnext
      exact ⟨s', .cons hfinds heof hpasses, hreads⟩

/-- Symbols that were passed come before the others. -/
theorem Passes.reads (h : Passes rules s front s') (hreads : Reads rules s' others) :
    Reads rules s (front ++ others) := by
  induction h with
  | nil => exact hreads
  | cons hfinds heof next ih => exact reads_cons_iff.mpr ⟨_, hfinds, .inr ⟨heof, ih hreads⟩⟩

/-- What is passed is a text of its own. -/
theorem Passes.takes (h : Passes rules s front s') :
    ∃ kept, s.rest = kept ++ s'.rest ∧ s'.position = s.position.afterAll kept ∧ (kept = [] → front = []) := by
  induction h with
  | nil => exact ⟨[], rfl, rfl, fun _ => rfl⟩
  | cons hfinds heof next ih =>
    obtain ⟨kept, hkept, hposition, -⟩ := ih
    obtain ⟨gap, spelling, hsplit, hne, -, -, -, hposition', -⟩ := hfinds.splits.of_ne_eof heof
    refine ⟨gap ++ spelling ++ kept, by simp [hsplit, hkept], ?_, by simp [hne]⟩
    rw [hposition, hposition', Position.afterAll_append _ _ kept]

/-- The last symbol that is passed stands at its place, in front of what is left. -/
theorem Passes.last {a : Scanned} (h : Passes rules s (front ++ [a]) s') :
    ∃ x, s.rest = x ++ a.symbol.lexeme.toList ++ s'.rest ∧ a.symbol.position = s.position.afterAll x ∧
      s'.position = s.position.afterAll (x ++ a.symbol.lexeme.toList) := by
  induction front generalizing s with
  | nil =>
    cases h with
    | cons hfinds heof next =>
      cases next with
      | nil =>
        obtain ⟨gap, spelling, hsplit, -, -, hposition, hlexeme, hposition', -⟩ := hfinds.splits.of_ne_eof heof
        rw [hlexeme, String.toList_ofList]
        exact ⟨gap, hsplit, hposition, hposition'⟩
  | cons found front ih =>
    cases h with
    | cons hfinds heof next =>
      obtain ⟨gap, spelling, hsplit, -, -, -, -, hposition', -⟩ := hfinds.splits.of_ne_eof heof
      obtain ⟨x, hx, ha, hend⟩ := ih next
      rw [hposition', ← Position.afterAll_append] at ha hend
      exact ⟨gap ++ spelling ++ x, by simp [hsplit, hx], ha, by rw [hend, List.append_assoc _ x]⟩

/-- Two points in a row are one symbol. -/
theorem Finds.points (h : Finds rules s before found s') {rest : List Char} (hs : s.rest = '.' :: '.' :: rest) :
    s'.rest = rest := by
  obtain ⟨-, rfl⟩ := h.unique (finds_here hs rfl (by simp) (by simp))
  rw [Source.rest_advance, hs]
  rfl

/-- A point before another one does not end a symbol. -/
theorem Passes.not_point (h : Passes rules s front s') {kept gap tail : List Char} (hs' : s'.rest = gap ++ '.' :: tail)
    (hgap : Gap false s'.position gap) (hs : s.rest = kept ++ s'.rest) : kept ++ gap ≠ ['.'] := by
  intro hpoint
  obtain ⟨rfl, rfl⟩ | ⟨rfl, rfl⟩ := List.append_eq_singleton_iff.mp hpoint
  · cases hgap with
    | layout hc => simp at hc
  · cases h with
    | nil => simp at hs
    | cons hfinds heof next =>
      rw [hs'] at hs
      obtain ⟨kept', hkept', -⟩ := next.takes
      rw [hfinds.points hs, hs'] at hkept'
      have hlength := congrArg List.length hkept'
      simp at hlength
      omega

/-- Symbols are passed in every context, if what follows the gap after them is set off by a blank. -/
theorem Passes.context (h : Passes rules s front s') {gap rest more : List Char} (hs' : s'.rest = gap ++ rest)
    (hgap : Gap false s'.position gap) (hwell : ∀ t ∈ front, Faultless t.faults) {kept : List Char}
    (hs : s.rest = kept ++ s'.rest) {t : Source} (ht : t.rest = kept ++ (gap ++ ' ' :: more))
    (hposition : t.position = s.position) :
    ∃ t', Passes rules t front t' ∧ t'.rest = gap ++ ' ' :: more ∧ t'.position = s'.position := by
  induction h generalizing kept t with
  | nil =>
    obtain rfl : kept = [] := List.append_left_eq_self.mp hs.symm
    exact ⟨t, .nil, ht, hposition⟩
  | @cons s s₁ s' found others hfinds heof next ih =>
    obtain ⟨gap₁, spelling, hsplit, -⟩ := hfinds.splits.of_ne_eof heof
    obtain ⟨kept', hkept', -, hnil⟩ := next.takes
    obtain rfl : kept = gap₁ ++ spelling ++ kept' := by
      refine List.append_cancel_right (hs.symm.trans (hsplit.trans ?_))
      rw [hkept']
      simp
    rw [List.append_assoc] at ht
    have hreplaces : Replaces (kept' ++ (gap ++ ' ' :: more)) s₁.rest := by
      rw [hkept', hs', ← List.append_assoc, ← List.append_assoc]
      refine replaces_of_blank fun hpoint hhead => ?_
      obtain ⟨tail, rfl⟩ := List.head?_eq_some_iff.mp hhead
      exact next.not_point hs' hgap hkept' hpoint
    obtain ⟨t₁, hfinds', hrest, hposition'⟩ :=
      hfinds.context heof hsplit (.replaces (hwell _ (by simp)) hreplaces) ht hposition
    obtain ⟨t', hpasses, hend⟩ := ih hs' hgap (fun u hu => hwell u (by simp [hu])) hkept' hrest hposition'
    exact ⟨t', .cons hfinds' heof hpasses, hend⟩

/-! ## The pragma -/

/-- A pragma after a blank is found. -/
theorem finds_pragma {t : Source} {content rest : List Char} (h : ¬['*', '>'] <:+: content ++ ['*'])
    (ht : t.rest = ' ' :: '<' :: '*' :: (content ++ '*' :: '>' :: rest)) :
    ∃ pragma t', Finds rules t before pragma t' ∧ pragma.symbol.token = .pragma ∧ pragma.faults = before.reverse ∧
      t'.rest = rest ∧ t'.position = t.position.afterAll (' ' :: '<' :: '*' :: (content ++ ['*', '>'])) := by
  have hread : t.read.rest = '<' :: '*' :: (content ++ '*' :: '>' :: rest) := by simp [Source.read, ht]
  have hsymbol : symbolAt rules t.read.position '<' ('*' :: (content ++ '*' :: '>' :: rest)) =
      ⟨.pragma, '<' :: '*' :: (content ++ ['*', '>']), []⟩ := by
    simp [symbolAt, pragma_closed _ _ h]
  have hfinds := @finds_here rules t.read before _ _ hread rfl (by simp) (by simp)
  rw [hsymbol] at hfinds
  have hsplit : t.read.rest = '<' :: '*' :: (content ++ ['*', '>']) ++ rest := by simp [hread]
  refine ⟨_, _, hfinds.of_skipLayout (skipLayout_layout ht rfl).symm, rfl, by simp, Source.rest_advance_append hsplit, ?_⟩
  rw [Source.position_advance_append hsplit]
  simp [Source.read, ht, Position.afterAll]

/-- The symbols of a text do not depend on layout before it. -/
theorem Reads.of_skipLayout {t : Source} {found : List Scanned} (h : Reads rules s found)
    (hst : skipLayout s = skipLayout t) : Reads rules t found := by
  cases h with
  | last hfinds heof => exact .last (hfinds.of_skipLayout hst) heof
  | more hfinds heof less next => exact reads_cons_iff.mpr ⟨_, hfinds.of_skipLayout hst, .inr ⟨heof, next⟩⟩

/-- In a text that is read without errors up to a symbol, a pragma is put between blanks into the gap after that symbol,
though not right before a disabled section. Then the symbols are the same up to there, at the same places. The pragma
comes next, and then the other symbols; between them, they have the faults of the other symbols. -/
theorem Reads.insertion {front back : List Scanned} {a b : Scanned} {x gap rest content : List Char} {t : Source}
    (h : Reads rules s (front ++ a :: b :: back)) (hwell : ∀ u ∈ front ++ [a], Faultless u.faults)
    (hcolumn : 0 < s.position.column) (hs : s.rest = x ++ a.symbol.lexeme.toList ++ gap ++ rest)
    (ha : a.symbol.position = s.position.afterAll x)
    (hgap : Gap false (s.position.afterAll (x ++ a.symbol.lexeme.toList)) gap)
    (hsection : ['?', '<'] <+: rest → (s.position.afterAll (x ++ a.symbol.lexeme.toList ++ gap)).column ≠ 1)
    (hclosed : ¬['*', '>'] <:+: content ++ ['*'])
    (ht : t.rest = x ++ a.symbol.lexeme.toList ++ gap ++ " <*".toList ++ content ++ "*> ".toList ++ rest)
    (hposition : t.position = s.position) :
    ∃ pragma b' back', Reads rules t (front ++ a :: pragma :: b' :: back') ∧ pragma.symbol.token = .pragma ∧
      b'.symbol.token = b.symbol.token ∧ b'.symbol.lexeme = b.symbol.lexeme ∧
      unplacedAll (pragma.faults ++ b'.faults) = unplacedAll b.faults ∧ List.Forall₂ Scanned.Alike back back' := by
  rw [List.append_cons] at h
  obtain ⟨s₁, hpasses, hreads⟩ := h.passes (by simp)
  -- the reading point after the symbol
  obtain ⟨y, hy, hya, hend⟩ := hpasses.last
  obtain rfl : y = x := by
    have hyprefix : y <+: s.rest := ⟨a.symbol.lexeme.toList ++ s₁.rest, by simp [hy]⟩
    have hxprefix : x <+: s.rest := ⟨a.symbol.lexeme.toList ++ gap ++ rest, by simp [hs]⟩
    exact Position.eq_of_afterAll hyprefix hxprefix (hya.symm.trans ha)
  have hrest : s₁.rest = gap ++ rest := by
    rw [hs, List.append_assoc] at hy
    exact (List.append_cancel_left hy).symm
  rw [← hend] at hgap
  obtain ⟨t₁, hpasses', hrest', hsame⟩ := hpasses.context hrest hgap hwell hy
    (show t.rest = _ ++ (gap ++ ' ' :: '<' :: '*' :: (content ++ '*' :: '>' :: ' ' :: rest)) by simp [ht]) hposition
  -- the pragma
  obtain ⟨faults, hiff⟩ := @Gap.takenOff rules _ _ hgap
  have hblank := Source.rest_advance_append hrest'
  obtain ⟨pragma, t₂, hpragma, htoken, hfaults, hrest₂, hposition₂⟩ :=
    @finds_pragma rules (faults.reverse ++ []) _ _ _ hclosed hblank
  have hpragma := (hiff t₁ _ [] pragma t₂ hrest' hsame).mpr hpragma
  -- the symbols after it
  obtain ⟨s₂, hb, hback⟩ := reads_cons_iff.mp hreads
  obtain ⟨own, hown, hb⟩ := ((hiff s₁ _ [] b s₂ hrest rfl).mp hb).of_before
  have hreads := reads_cons_iff.mpr ⟨s₂, hb [], hback⟩
  have hplace : (s₁.advance gap.length).position = s.position.afterAll (y ++ a.symbol.lexeme.toList ++ gap) := by
    rw [Source.position_advance_append hrest, hend, ← Position.afterAll_append]
  have hplace' : t₂.read.position.column = t₂.position.column + 1 := by
    simp [Source.read, hrest₂, Position.after]
  have hpositive : 0 < t₂.position.column := by
    rw [hposition₂, Source.position_advance_append hrest', hsame, hend]
    exact Position.column_afterAll_pos (Position.column_afterAll_pos (Position.column_afterAll_pos hcolumn _) _) _
  have hmoved : Moved (s₁.advance gap.length) t₂.read := by
    refine moved_of_section ?_ ?_ (by omega) fun hopens => ?_
    · rw [Source.rest_advance_append hrest]
      simp [Source.read, hrest₂]
    · rw [hplace]
      exact Position.column_afterAll_pos hcolumn _
    · rw [Source.rest_advance_append hrest] at hopens
      rw [hplace]
      exact hsection hopens
  obtain ⟨found, hreads', halike⟩ := hreads.moved hmoved
  obtain ⟨b', back', hb', hback', rfl⟩ := List.forall₂_cons_left_iff.mp halike
  have hreads' := hreads'.of_skipLayout (skipLayout_layout hrest₂ rfl).symm
  refine ⟨pragma, b', back', ?_, htoken, hb'.token.symm, hb'.lexeme.symm, ?_, hback'⟩
  · rw [List.append_cons]
    exact hpasses'.reads (reads_cons_iff.mpr ⟨t₂, hpragma, .inr ⟨by simp [htoken], hreads'⟩⟩)
  · rw [unplacedAll_append, ← hb'.faults, hfaults, hown]
    simp

end Scan

end Modula
