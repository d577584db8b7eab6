import Modula.Proofs.Reader.Reports

/-!
# Readers that differ in their log

What a reader has reported and logged is nothing that it looks at when it reads on. So two readers of the same symbols
stay at the same symbols, whether or not each symbol is logged and diagnostics show source lines, and what one of them
reports of a symbol, the other one reports too (`SymbolReader.Agree`).
-/

set_option autoImplicit false

namespace Modula

/-- A diagnostic without the source line it points at. -/
def Diagnostic.withoutLine (d : Diagnostic) : Diagnostic := { d with sourceLine := none }

/-- The diagnostics of some codes, without source lines. -/
def toldOf (keep : Code → Bool) (ds : List Diagnostic) : List Diagnostic :=
  (ds.filter (keep ·.code)).map Diagnostic.withoutLine

/-- Of two rows of diagnostics, those of some codes are kept in their order. -/
theorem toldOf_append (keep : Code → Bool) (ds ds' : List Diagnostic) :
    toldOf keep (ds ++ ds') = toldOf keep ds ++ toldOf keep ds' := by
  simp [toldOf]

/-- Showing source lines changes nothing else. -/
theorem Reporter.toldOf_emitAll (keep : Code → Bool) (r : Reporter) (ds : List Diagnostic) :
    toldOf keep (r.emitAll ds).diagnostics = toldOf keep r.diagnostics ++ toldOf keep ds := by
  rw [diagnostics_emitAll_eq, toldOf_append]
  congr 1
  simp only [toldOf, List.filter_map, List.map_map]
  rfl

namespace SymbolReader

variable {keep : Code → Bool} {r r' r'' : SymbolReader}

/-- A reader that has reported nothing and logs nothing, at the same symbols. -/
def silent (r : SymbolReader) : SymbolReader := { r with reporter := {}, logsSymbols := false, events := #[] }

/-- Two readers at the same symbols that have reported the same, as far as some codes go. -/
structure Agree (keep : Code → Bool) (r r' : SymbolReader) : Prop where
  silent : r.silent = r'.silent
  told : toldOf keep r.reporter.diagnostics = toldOf keep r'.reporter.diagnostics

/-- A reader agrees with itself. -/
theorem Agree.refl (keep : Code → Bool) (r : SymbolReader) : Agree keep r r := ⟨rfl, rfl⟩

/-- Agreement goes both ways. -/
theorem Agree.symm (h : Agree keep r r') : Agree keep r' r := ⟨h.silent.symm, h.told.symm⟩

/-- Agreement carries on to a third reader. -/
theorem Agree.trans (h : Agree keep r r') (h' : Agree keep r' r'') : Agree keep r r'' :=
  ⟨h.silent.trans h'.silent, h.told.trans h'.told⟩

/-- Readers that agree are at the same symbol. -/
theorem Agree.next (h : Agree keep r r') : r.next = r'.next := by
  show r.silent.next = r'.silent.next
  rw [h.silent]

/-- Readers that agree have the same number of symbols. -/
theorem Agree.total (h : Agree keep r r') : r.total = r'.total := by
  show r.silent.total = r'.silent.total
  rw [h.silent]

/-! ## Reading on -/

/-- Asking for the second symbol has nothing to do with what is reported or logged. -/
theorem silent_peekSecond (r : SymbolReader) :
    r.silent.peekSecond.1 = r.peekSecond.1 ∧ r.silent.peekSecond.2.silent = r.peekSecond.2.silent := by
  rcases r with ⟨filename, total, current, next, second, unseen, last, faulty, reporter, logs, events⟩
  cases second with
  | some s => exact ⟨rfl, rfl⟩
  | none =>
    simp only [peekSecond, silent, scan_eq]
    exact ⟨rfl, rfl⟩

/-- The faults of the symbol that comes into view when the symbol after the next one is needed. -/
def arriving (r : SymbolReader) : List Diagnostic := if r.second.isSome then [] else r.upcoming.faults

/-- Nor has the symbol that comes into view. -/
theorem arriving_silent (r : SymbolReader) : r.silent.arriving = r.arriving := rfl

/-- Asking for the second symbol reports the faults of what comes into view. -/
theorem reporter_peekSecond (r : SymbolReader) : r.peekSecond.2.reporter = r.reporter.emitAll r.arriving := by
  cases hs : r.second <;> simp [peekSecond, arriving, scan_eq, hs, Reporter.emitAll]

/-- So does reading a symbol. -/
theorem reporter_read (r : SymbolReader) : r.read.reporter = r.reporter.emitAll r.arriving := by
  rw [read_eq]
  exact reporter_peekSecond r

/-- The same comes into view of readers that agree. -/
theorem Agree.arriving (h : Agree keep r r') : r.arriving = r'.arriving := by
  rw [← arriving_silent r, ← arriving_silent r', h.silent]

/-- Readers that agree have the same second symbol, and agree after it has been asked for. -/
theorem Agree.peekSecond (h : Agree keep r r') :
    r.peekSecond.1 = r'.peekSecond.1 ∧ Agree keep r.peekSecond.2 r'.peekSecond.2 := by
  obtain ⟨hsymbol, hrest⟩ := silent_peekSecond r
  obtain ⟨hsymbol', hrest'⟩ := silent_peekSecond r'
  refine ⟨?_, ?_, ?_⟩
  · rw [← hsymbol, ← hsymbol', h.silent]
  · rw [← hrest, ← hrest', h.silent]
  · rw [reporter_peekSecond, reporter_peekSecond, Reporter.toldOf_emitAll, Reporter.toldOf_emitAll, h.told, h.arriving]

/-- Readers that agree still do so after a symbol has been read. -/
theorem Agree.read (h : Agree keep r r') : Agree keep r.read r'.read := by
  obtain ⟨hsymbol, hpeek⟩ := h.peekSecond
  rw [read_eq, read_eq, h.next, hsymbol]
  refine ⟨?_, hpeek.told⟩
  exact congrArg (fun u => { u with current := r'.next, next := r'.peekSecond.1, second := none }) hpeek.silent

/-- Both readers pass the same pragmas. -/
theorem Agree.skipPragmas (h : Agree keep r r') : Agree keep r.skipPragmas r'.skipPragmas := by
  have hwithin : ∀ (n : Nat) (r r' : SymbolReader), Agree keep r r' →
      Agree keep (skipPragmasWithin n r) (skipPragmasWithin n r') := by
    intro n
    induction n with
    | zero => exact fun r r' h => h
    | succ n ih =>
      intro r r' h
      have hnext := h.next
      by_cases hpragma : r.next.token = .pragma
      · have hpragma' : r'.next.token = .pragma := hnext ▸ hpragma
        rw [skipPragmasWithin, skipPragmasWithin, if_pos hpragma, if_pos hpragma']
        exact ih _ _ h.read
      · have hpragma' : ¬r'.next.token = .pragma := hnext ▸ hpragma
        rw [skipPragmasWithin, skipPragmasWithin, if_neg hpragma, if_neg hpragma']
        exact h
  have htotal := h.total
  unfold SymbolReader.skipPragmas
  rw [htotal]
  exact hwithin _ r r' h

/-! ## Reports and logs -/

/-- Logging changes nothing that is agreed on. -/
theorem agree_log (keep : Code → Bool) (r : SymbolReader) (e : Event) : Agree keep (r.log e) r := ⟨rfl, rfl⟩

/-- The same report leaves readers in agreement. -/
theorem Agree.report (h : Agree keep r r') (d : Diagnostic) : Agree keep (r.report d) (r'.report d) := by
  have htold : ∀ r : SymbolReader, toldOf keep (r.report d).reporter.diagnostics =
      toldOf keep r.reporter.diagnostics ++ toldOf keep [d] := fun r => Reporter.toldOf_emitAll keep r.reporter [d]
  refine ⟨h.silent, ?_⟩
  rw [htold r, htold r', h.told]

/-- What is not looked at may be reported by one of the readers only. -/
theorem agree_report (r : SymbolReader) {d : Diagnostic} (hd : keep d.code = false) : Agree keep (r.report d) r := by
  refine ⟨rfl, ?_⟩
  have htold := Reporter.toldOf_emitAll keep r.reporter [d]
  have hnone : toldOf keep [d] = [] := by simp [toldOf, hd]
  rw [hnone, List.append_nil] at htold
  exact htold

/-! ## The start of a text -/

/-- The readers of a source agree under all diagnostic options. -/
theorem agree_ofSource (keep : Code → Bool) (o : Options) (d d' : DiagnosticOptions) (s : Source) :
    Agree keep (ofSource { o with diagnostics := d } s) (ofSource { o with diagnostics := d' } s) := by
  have hunread : Agree keep (unread { o with diagnostics := d } s) (unread { o with diagnostics := d' } s) := ⟨rfl, rfl⟩
  rw [← read_unread, ← read_unread]
  exact hunread.read

end SymbolReader

end Modula
