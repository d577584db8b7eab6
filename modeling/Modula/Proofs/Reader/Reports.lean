import Mathlib.Algebra.GroupWithZero.Nat
import Modula.Proofs.Reader.Stream

/-!
# What a reader reports

The faults of a symbol are reported when it comes into view, so the errors that a reader has reported and those that it
still will report for symbols not yet seen are together as many at any time (`SymbolReader.errors`). Reading logs
symbols only, and takes back nothing that has been reported or logged.
-/

set_option autoImplicit false

namespace Modula

namespace Reporter

/-- A report is the diagnostic, perhaps with a source line. -/
theorem diagnostics_emit_eq (r : Reporter) (d : Diagnostic) :
    (r.emit d).diagnostics = r.diagnostics ++ [{ d with sourceLine := r.echo d }] := by
  unfold emit report
  split <;> simp [diagnostics]

/-- An error is counted as it is emitted, and nothing else is. -/
theorem errorCount_emit (r : Reporter) (d : Diagnostic) :
    (r.emit d).errorCount = r.errorCount + if d.isError then 1 else 0 := by
  have hsame : ({ d with sourceLine := r.echo d } : Diagnostic).isError = d.isError := rfl
  unfold emit report
  rw [hsame]
  split <;> rfl

/-- So are all errors among several diagnostics. -/
theorem errorCount_emitAll (r : Reporter) (ds : List Diagnostic) :
    (r.emitAll ds).errorCount = r.errorCount + ds.countP (·.isError) := by
  induction ds generalizing r with
  | nil => rfl
  | cons d ds ih =>
    have hcons : r.emitAll (d :: ds) = (r.emit d).emitAll ds := rfl
    rw [hcons, ih, errorCount_emit, List.countP_cons]
    omega

/-- Diagnostics are emitted one after the other. -/
theorem emitAll_append (r : Reporter) (ds ds' : List Diagnostic) : r.emitAll (ds ++ ds') = (r.emitAll ds).emitAll ds' :=
  List.foldl_append

/-- Diagnostics are reported one after the other, each perhaps with its source line. -/
theorem diagnostics_emitAll_eq (r : Reporter) (ds : List Diagnostic) :
    (r.emitAll ds).diagnostics = r.diagnostics ++ ds.map fun d => { d with sourceLine := r.echo d } := by
  induction ds generalizing r with
  | nil => simp [emitAll]
  | cons d ds ih =>
    -- a report changes nothing of the source lines
    have hecho : (r.emit d).echo = r.echo := by
      funext e
      unfold emit report
      split <;> rfl
    have hcons : r.emitAll (d :: ds) = (r.emit d).emitAll ds := rfl
    rw [hcons, ih, diagnostics_emit_eq, hecho, List.append_assoc, List.map_cons, List.singleton_append]

/-- The counts of a reporter are those of its diagnostics. -/
structure Counts (r : Reporter) : Prop where
  errors : r.errorCount = r.errors.length
  warnings : r.warningCount = r.warnings.length

/-- The counts stay right with a diagnostic more. -/
theorem Counts.emit {r : Reporter} (h : r.Counts) (d : Diagnostic) : (r.emit d).Counts := by
  have herrors := h.errors
  have hwarnings := h.warnings
  have hsame : ({ d with sourceLine := r.echo d } : Diagnostic).isError = d.isError := rfl
  unfold Reporter.emit report
  rw [hsame]
  cases hd : d.isError with
  | true =>
    refine ⟨?_, ?_⟩
    · simpa [Reporter.errors, diagnostics, hsame, hd] using herrors
    · simpa [Reporter.warnings, diagnostics, hsame, hd] using hwarnings
  | false =>
    refine ⟨?_, ?_⟩
    · simpa [Reporter.errors, diagnostics, hsame, hd] using herrors
    · simpa [Reporter.warnings, diagnostics, hsame, hd] using hwarnings

/-- So they do with several. -/
theorem Counts.emitAll {r : Reporter} (h : r.Counts) (ds : List Diagnostic) : (r.emitAll ds).Counts := by
  induction ds generalizing r with
  | nil => exact h
  | cons d ds ih => exact ih (h.emit d)

end Reporter

/-- Whether an event says that a node was dropped although no error had been reported. -/
def Event.isDrop : Event → Bool
  | .dropped _ _ _ => true
  | _ => false

/-- The number of errors among the faults of a symbol. -/
def Scanned.errors (s : Scanned) : Nat := s.faults.countP (·.isError)

namespace SymbolReader

/-- The errors reported so far and those of the symbols that have not come into view. -/
def errors (r : SymbolReader) : Nat := r.reporter.errorCount + (r.unseen.map Scanned.errors).sum

/-- A reader that has gone on from another one, with nothing reported or logged but what symbols bring with them. -/
structure GoesOn (r r' : SymbolReader) : Prop where
  reported : r.reporter.errorCount ≤ r'.reporter.errorCount
  errors : r'.errors = r.errors
  logged : ∃ more, r'.events.toList = r.events.toList ++ more ∧ ∀ e ∈ more, e.isDrop = false

variable {r r' r'' : SymbolReader}

/-- A reader goes on from where it is. -/
theorem GoesOn.refl (r : SymbolReader) : GoesOn r r := ⟨le_rfl, rfl, [], by simp, by simp⟩

/-- A reader goes on in several steps. -/
theorem GoesOn.trans (h : GoesOn r r') (h' : GoesOn r' r'') : GoesOn r r'' := by
  obtain ⟨more, hmore, hdrop⟩ := h.logged
  obtain ⟨more', hmore', hdrop'⟩ := h'.logged
  refine ⟨h.reported.trans h'.reported, h'.errors.trans h.errors, more ++ more', ?_, ?_⟩
  · rw [hmore', hmore, List.append_assoc]
  · intro e he
    obtain he | he := List.mem_append.mp he
    · exact hdrop e he
    · exact hdrop' e he

/-- Bringing a symbol into view turns errors that will be reported into errors that have been. -/
theorem goesOn_scan (r : SymbolReader) : GoesOn r r.scan.2 := by
  have hcount : r.scan.2.reporter.errorCount = r.reporter.errorCount + r.upcoming.errors := by
    rw [scan_eq]
    exact Reporter.errorCount_emitAll _ _
  have hunseen : (r.unseen.map Scanned.errors).sum = r.upcoming.errors + (r.scan.2.unseen.map Scanned.errors).sum := by
    rw [scan_eq]
    unfold upcoming
    cases r.unseen <;> simp [Scanned.errors]
  refine ⟨by omega, ?_, ?_⟩
  · unfold SymbolReader.errors
    omega
  · rw [scan_eq]
    cases r.logsSymbols with
    | false => exact ⟨[], by simp, by simp⟩
    | true => exact ⟨[.scanned r.upcoming.symbol], by simp, by simp [Event.isDrop]⟩

/-- Asking for the second symbol goes on. -/
theorem goesOn_peekSecond (r : SymbolReader) : GoesOn r r.peekSecond.2 := by
  obtain hpeek | ⟨-, hpeek⟩ := r.peekSecond_cases
  · rw [hpeek]
    exact .refl r
  · have h := goesOn_scan r
    rw [hpeek]
    exact ⟨h.reported, h.errors, h.logged⟩

/-- So does reading a symbol. -/
theorem goesOn_read (r : SymbolReader) : GoesOn r r.read := by
  have h := goesOn_peekSecond r
  rw [read_eq]
  exact ⟨h.reported, h.errors, h.logged⟩

/-- So does logging what is no loss. -/
theorem goesOn_log (r : SymbolReader) {e : Event} (he : e.isDrop = false) : GoesOn r (r.log e) :=
  ⟨le_rfl, rfl, [e], by simp [log], by simpa using he⟩

/-- So does passing pragmas. -/
theorem goesOn_skipPragmas (r : SymbolReader) : GoesOn r r.skipPragmas :=
  keeps_skipPragmas (fun r' h => h.trans (goesOn_read r')) (.refl r)

/-! ## What is emitted -/

/-- A reader that has emitted some diagnostics more than another one, and done nothing else to its reporter. -/
def Emits (r r' : SymbolReader) : Prop := ∃ ds, r'.reporter = r.reporter.emitAll ds

/-- No diagnostics are some, too. -/
theorem Emits.refl (r : SymbolReader) : Emits r r := ⟨[], rfl⟩

/-- A reader that emits twice has emitted both. -/
theorem Emits.trans (h : Emits r r') (h' : Emits r' r'') : Emits r r'' := by
  obtain ⟨ds, hds⟩ := h
  obtain ⟨ds', hds'⟩ := h'
  exact ⟨ds ++ ds', by rw [hds', hds, Reporter.emitAll_append]⟩

/-- A report is one diagnostic more. -/
theorem emits_report (r : SymbolReader) (d : Diagnostic) : Emits r (r.report d) := ⟨[d], rfl⟩

/-- Asking for the second symbol emits its faults. -/
theorem emits_peekSecond (r : SymbolReader) : Emits r r.peekSecond.2 := by
  obtain hpeek | ⟨-, hpeek⟩ := r.peekSecond_cases
  · rw [hpeek]
    exact .refl r
  · exact ⟨r.upcoming.faults, by rw [hpeek, scan_eq]⟩

/-- So does reading a symbol. -/
theorem emits_read (r : SymbolReader) : Emits r r.read := by
  rw [read_eq]
  exact emits_peekSecond r

/-- The counts stay right whatever is emitted. -/
theorem Emits.counts (h : Emits r r') (hr : r.reporter.Counts) : r'.reporter.Counts := by
  obtain ⟨ds, hds⟩ := h
  rw [hds]
  exact hr.emitAll ds

/-! ## The start of a text -/

/-- A reader of a source has gone on from one that has not looked at it. -/
theorem goesOn_ofSource (o : Options) (s : Source) : GoesOn (unread o s) (ofSource o s) := by
  rw [← read_unread]
  exact goesOn_read _

/-- The errors that a reader of a source will have reported at the end are those of all symbols. -/
theorem errors_ofSource (o : Options) (s : Source) :
    (ofSource o s).errors = ((Scan.symbols o.scanRules s).map Scanned.errors).sum := by
  rw [(goesOn_ofSource o s).errors]
  exact Nat.zero_add _

/-- At the start the counts are right. -/
theorem counts_ofSource (o : Options) (s : Source) : (ofSource o s).reporter.Counts := by
  rw [← read_unread]
  exact (emits_read (unread o s)).counts ⟨rfl, rfl⟩

end SymbolReader

end Modula
