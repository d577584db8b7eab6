import Modula.Proofs.Reader.Reports

/-!
# What comes into view

A reader that goes on reports faults of symbols that had not come into view, and nothing else (`SymbolReader.Reveals`).
So what is so of all reports and of all faults that are still to be reported stays so while symbols are read.
-/

set_option autoImplicit false

namespace Modula

namespace Reporter

/-- What has been reported was there before, or is one of the diagnostics emitted, with some source line. -/
theorem mem_diagnostics_emitAll {r : Reporter} {ds : List Diagnostic} {e : Diagnostic}
    (he : e ∈ (r.emitAll ds).diagnostics) : e ∈ r.diagnostics ∨ ∃ d ∈ ds, ∃ line, e = { d with sourceLine := line } := by
  rw [diagnostics_emitAll_eq, List.mem_append, List.mem_map] at he
  refine he.imp_right fun hmore => ?_
  obtain ⟨d, hd, rfl⟩ := hmore
  exact ⟨d, hd, _, rfl⟩

/-- So it is with a single one. -/
theorem mem_diagnostics_emit {r : Reporter} {d e : Diagnostic} (he : e ∈ (r.emit d).diagnostics) :
    e ∈ r.diagnostics ∨ ∃ line, e = { d with sourceLine := line } :=
  (@mem_diagnostics_emitAll r [d] e he).imp_right fun hmore => by simpa using hmore

end Reporter

namespace SymbolReader

/-- A reader that has gone on from another one. -/
structure Reveals (r r' : SymbolReader) : Prop where
  reports : ∃ ds, r'.reporter = r.reporter.emitAll ds ∧ ∀ d ∈ ds, ∃ u ∈ r.unseen, d ∈ u.faults
  unseen : ∀ u ∈ r'.unseen, u ∈ r.unseen

variable {r r' r'' : SymbolReader}

/-- A reader reveals nothing by staying. -/
theorem Reveals.refl (r : SymbolReader) : Reveals r r := ⟨⟨[], rfl, by simp⟩, fun _ hu => hu⟩

/-- A reader reveals in several steps. -/
theorem Reveals.trans (h : Reveals r r') (h' : Reveals r' r'') : Reveals r r'' := by
  obtain ⟨ds, hds, hfaults⟩ := h.reports
  obtain ⟨ds', hds', hfaults'⟩ := h'.reports
  have hreporter : r''.reporter = r.reporter.emitAll (ds ++ ds') := by rw [hds', hds, Reporter.emitAll_append]
  refine ⟨⟨ds ++ ds', hreporter, fun d hd => ?_⟩, fun u hu => h.unseen u (h'.unseen u hu)⟩
  obtain hd | hd := List.mem_append.mp hd
  · exact hfaults d hd
  · obtain ⟨u, hu, hdu⟩ := hfaults' d hd
    exact ⟨u, h.unseen u hu, hdu⟩

/-- What holds of all reports and of all faults to come, whatever source line is shown with them, holds of all reports
later. -/
theorem Reveals.forall_reports {P : Diagnostic → Prop} (hline : ∀ d line, P d → P { d with sourceLine := line })
    (h : Reveals r r') (hreports : ∀ d ∈ r.reporter.diagnostics, P d) (hunseen : ∀ u ∈ r.unseen, ∀ d ∈ u.faults, P d) :
    ∀ d ∈ r'.reporter.diagnostics, P d := by
  intro d hd
  obtain ⟨ds, hreporter, hfaults⟩ := h.reports
  rw [hreporter] at hd
  obtain hd | ⟨e, he, line, rfl⟩ := Reporter.mem_diagnostics_emitAll hd
  · exact hreports d hd
  · obtain ⟨u, hu, heu⟩ := hfaults e he
    exact hline e line (hunseen u hu e heu)

/-- A reader that has gone on from another one and reported the faults of the symbols that came into view, nothing
else. -/
def Uncovers (r r' : SymbolReader) : Prop :=
  ∃ seen, r.unseen = seen ++ r'.unseen ∧ r'.reporter = r.reporter.emitAll (seen.flatMap (·.faults))

/-- A reader uncovers nothing by staying. -/
theorem Uncovers.refl (r : SymbolReader) : Uncovers r r := ⟨[], rfl, rfl⟩

/-- A reader uncovers in several steps. -/
theorem Uncovers.trans (h : Uncovers r r') (h' : Uncovers r' r'') : Uncovers r r'' := by
  obtain ⟨seen, hseen, hreporter⟩ := h
  obtain ⟨seen', hseen', hreporter'⟩ := h'
  refine ⟨seen ++ seen', by rw [hseen, hseen', List.append_assoc], ?_⟩
  rw [hreporter', hreporter, List.flatMap_append, Reporter.emitAll_append]

/-- What is reported of symbols that were uncovered is revealed of them. -/
theorem Uncovers.reveals (h : Uncovers r r') : Reveals r r' := by
  obtain ⟨seen, hseen, hreporter⟩ := h
  refine ⟨⟨_, hreporter, fun d hd => ?_⟩, fun u hu => by rw [hseen]; exact List.mem_append_right _ hu⟩
  obtain ⟨u, hu, hdu⟩ := List.mem_flatMap.mp hd
  exact ⟨u, by rw [hseen]; exact List.mem_append_left _ hu, hdu⟩

/-- A scan uncovers one symbol. -/
theorem uncovers_scan (r : SymbolReader) : Uncovers r r.scan.2 := by
  rw [scan_eq]
  cases hunseen : r.unseen with
  | nil => exact ⟨[], by simp [hunseen], by simp [upcoming, hunseen, Reporter.emitAll]⟩
  | cons u others => exact ⟨[u], by simp [hunseen], by simp [upcoming, hunseen]⟩

/-- Asking for the second symbol uncovers it. -/
theorem uncovers_peekSecond (r : SymbolReader) : Uncovers r r.peekSecond.2 := by
  obtain hpeek | ⟨-, hpeek⟩ := r.peekSecond_cases
  · rw [hpeek]
    exact .refl r
  · rw [hpeek]
    exact uncovers_scan r

/-- Reading a symbol uncovers one. -/
theorem uncovers_read (r : SymbolReader) : Uncovers r r.read := by
  rw [read_eq]
  exact uncovers_peekSecond r

/-- So reading reveals no more than faults of symbols. -/
theorem reveals_read (r : SymbolReader) : Reveals r r.read := (uncovers_read r).reveals

/-- Nor does asking for the second symbol. -/
theorem reveals_peekSecond (r : SymbolReader) : Reveals r r.peekSecond.2 := (uncovers_peekSecond r).reveals

/-- Nor does passing pragmas. -/
theorem reveals_skipPragmas (r : SymbolReader) : Reveals r r.skipPragmas :=
  keeps_skipPragmas (fun r' h => h.trans (reveals_read r')) (.refl r)

/-- Any number of readings uncovers symbols in their order. -/
theorem uncovers_iterate_read (r : SymbolReader) (n : ℕ) : Uncovers r (SymbolReader.read^[n] r) := by
  induction n with
  | zero => exact .refl r
  | succ n ih =>
    rw [Function.iterate_succ_apply']
    exact ih.trans (uncovers_read _)

/-- At the start of a source no more is revealed than faults of symbols. -/
theorem reveals_ofSource (o : Options) (s : Source) : Reveals (unread o s) (ofSource o s) := by
  rw [← read_unread]
  exact reveals_read _

end SymbolReader

end Modula
