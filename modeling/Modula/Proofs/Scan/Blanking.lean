import Modula.Proofs.Scan.Insertion

/-!
# A semicolon replaced by a blank

What the scanner finds depends on the text that is left and on the position in it, and on nothing else of the source
(`Reads.here`). A semicolon takes as much of a line as a blank does, so a text with a blank in its place is read as the
same symbols at the same places, but for the semicolon. Its faults are those of the gap in front of it, and they are
listed with the symbol after it (`Reads.blanking`).
-/

set_option autoImplicit false

namespace Modula

/-- Two sources with the same text left, at the same position. -/
structure Source.SamePlace (s t : Source) : Prop where
  rest : s.rest = t.rest
  position : s.position = t.position

/-- Sources at the same place are so after as many characters. -/
theorem Source.SamePlace.advance {s t : Source} (h : s.SamePlace t) (n : Nat) :
    (s.advance n).SamePlace (t.advance n) := by
  refine ⟨?_, ?_⟩
  · rw [rest_advance, rest_advance, h.rest]
  · rw [position_advance, position_advance, h.rest, h.position]

namespace Scan

variable {rules : ScanRules} {s s' t : Source} {before : List Diagnostic} {found : Scanned}

/-- And behind layout. -/
theorem samePlace_skipLayout (h : s.SamePlace t) : (skipLayout s).SamePlace (skipLayout t) := by
  rw [Scan.skipLayout, Scan.skipLayout, h.rest]
  exact h.advance _

/-- What is found is found wherever the same text is left at the same position. -/
theorem Finds.here (h : Finds rules s before found s') (hst : s.SamePlace t) :
    ∃ t', Finds rules t before found t' ∧ s'.SamePlace t' := by
  induction h generalizing t with
  | finish hrest =>
    have hskip := samePlace_skipLayout hst
    rw [hskip.rest] at hrest
    rw [hskip.position]
    exact ⟨_, .finish hrest, hskip⟩
  | comment hrest less next ih =>
    have hskip := samePlace_skipLayout hst
    obtain ⟨t', hfinds, hend⟩ := ih (hskip.advance _)
    rw [hskip.rest] at hrest
    rw [hskip.position] at hfinds
    exact ⟨t', (finds_comment_iff hrest).mpr hfinds, hend⟩
  | disabled hrest hcolumn less next ih =>
    have hskip := samePlace_skipLayout hst
    obtain ⟨t', hfinds, hend⟩ := ih (hskip.advance _)
    rw [hskip.rest] at hrest
    rw [hskip.position] at hfinds hcolumn
    exact ⟨t', (finds_disabled_iff hrest hcolumn).mpr hfinds, hend⟩
  | symbol hrest hcomment hsection =>
    have hskip := samePlace_skipLayout hst
    have hrest' := hskip.rest.symm.trans hrest
    rw [hskip.position] at hsection ⊢
    exact ⟨_, .symbol hrest' hcomment hsection, hskip.advance _⟩

/-- What is read is read wherever the same text is left at the same position. -/
theorem Reads.here {found : List Scanned} (h : Reads rules s found) (hst : s.SamePlace t) : Reads rules t found := by
  induction h generalizing t with
  | last hfinds heof =>
    obtain ⟨t', hfinds', -⟩ := hfinds.here hst
    exact .last hfinds' heof
  | more hfinds heof less next ih =>
    obtain ⟨t', hfinds', hend⟩ := hfinds.here hst
    exact reads_cons_iff.mpr ⟨t', hfinds', .inr ⟨heof, ih hend⟩⟩

/-- At a semicolon it is found, and nothing is reported of it. -/
theorem Finds.semicolon_here (h : Finds rules s before found s') {rest : List Char} (hs : s.rest = ';' :: rest) :
    found.faults = before.reverse ∧ s'.rest = rest ∧ s'.position = s.position.after ';' := by
  have hsymbol : symbolAt rules s.position ';' rest = ⟨.semicolon, [';'], []⟩ := rfl
  have hread : s.rest = [';'] ++ rest := hs
  obtain ⟨rfl, rfl⟩ := h.unique (finds_here hs rfl (by simp) (by simp))
  rw [hsymbol]
  exact ⟨List.append_nil _, Source.rest_advance_append hread, Source.position_advance_append hread⟩

/-- In a text that is read without errors up to a semicolon, a blank takes the place of the semicolon. Then the symbols
are the same at the same places, but for the semicolon, and the faults listed with it come first among those of the
symbol after it. -/
theorem Reads.blanking {front back : List Scanned} {a b : Scanned} {x rest : List Char}
    (h : Reads rules s (front ++ a :: b :: back)) (hwell : ∀ u ∈ front, Faultless u.faults)
    (hs : s.rest = x ++ ';' :: rest) (ha : a.symbol.position = s.position.afterAll x) (ht : t.rest = x ++ ' ' :: rest)
    (hposition : t.position = s.position) :
    Reads rules t (front ++ ⟨b.symbol, a.faults ++ b.faults⟩ :: back) := by
  obtain ⟨s₁, hpasses, hreads⟩ := h.passes (by simp)
  obtain ⟨s₂, hfinds, ⟨-, hnil⟩ | ⟨heof, hreads⟩⟩ := reads_cons_iff.mp hreads
  · cases hnil
  obtain ⟨kept, hkept, hend, -⟩ := hpasses.takes
  obtain ⟨gap, spelling, hsplit, hne, hgap, hplace, -⟩ := hfinds.splits.of_ne_eof heof
  -- the semicolon stands after the gap
  obtain rfl : kept ++ gap = x := by
    have hfront : kept ++ gap <+: s.rest := ⟨spelling ++ s₂.rest, by simp [hkept, hsplit]⟩
    have hx : x <+: s.rest := ⟨';' :: rest, hs.symm⟩
    have hsame : s.position.afterAll (kept ++ gap) = s.position.afterAll x := by
      rw [Position.afterAll_append, ← hend, ← hplace, ha]
    exact Position.eq_of_afterAll hfront hx hsame
  rw [List.append_assoc] at ht hs
  have hrest : s₁.rest = gap ++ ';' :: rest := List.append_cancel_left (hkept.symm.trans hs)
  obtain ⟨t₁, hpasses', hrest', hsame⟩ := hpasses.context hrest hgap hwell hkept ht hposition
  obtain ⟨faults, hiff⟩ := @Gap.takenOff rules _ _ hgap
  have hsemicolon := (hiff s₁ _ [] a s₂ hrest rfl).mp hfinds
  rw [List.append_nil] at hsemicolon
  obtain ⟨hfaults, hrest₂, hposition₂⟩ := hsemicolon.semicolon_here (Source.rest_advance_append hrest)
  rw [List.reverse_reverse] at hfaults
  -- after the blank the same text is left at the same position as after the semicolon
  have hblank := Source.rest_advance_append hrest'
  have hplace' : s₂.SamePlace (t₁.advance gap.length).read := by
    refine ⟨?_, ?_⟩
    · simp [Source.read, hblank, hrest₂]
    · rw [hposition₂, Source.position_advance_append hrest, ← hsame, ← Source.position_advance_append hrest']
      simp [Source.read, hblank, Position.after]
  obtain ⟨s₃, hb, hback⟩ := reads_cons_iff.mp (hreads.here hplace')
  obtain ⟨own, hown, hb⟩ := hb.of_before
  have hagain := (hb faults.reverse).of_skipLayout (skipLayout_layout hblank rfl).symm
  rw [← List.append_nil faults.reverse] at hagain
  have hfound := (hiff t₁ _ [] _ s₃ hrest' hsame).mpr hagain
  rw [List.reverse_nil, List.nil_append] at hown
  refine hpasses'.reads (reads_cons_iff.mpr ⟨s₃, ?_, hback⟩)
  rw [hfaults, hown]
  simpa using hfound

end Scan

end Modula
