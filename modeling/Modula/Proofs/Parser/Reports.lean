import Modula.Proofs.Parser.Advances
import Modula.Proofs.Reader.Reports

/-!
# What a parse reports

Whatever a parse does, it takes back nothing that has been reported or logged, and it logs a drop for every node that
it counts as dropped, which happens only before the first error (`ParserState.Grows`). Actions other than a few report
nothing and drop nothing (`Action.isQuiet`).
-/

set_option autoImplicit false

namespace Modula

open SymbolReader

namespace ParserState

/-- A state that an action or a run can lead to from another one, as far as reports go. -/
structure Grows (s s' : ParserState) : Prop where
  reported : s.reader.reporter.errorCount ≤ s'.reader.reporter.errorCount
  errors : s.reader.errors ≤ s'.reader.errors
  logged : ∃ more, s'.reader.events.toList = s.reader.events.toList ++ more ∧
    s'.dropped = s.dropped + more.countP (·.isDrop)
  kept : 0 < s.reader.reporter.errorCount → s'.dropped = s.dropped

/-- A state that stays has grown. -/
theorem Grows.refl (s : ParserState) : Grows s s := ⟨le_rfl, le_rfl, ⟨[], by simp, by simp⟩, fun _ => rfl⟩

/-- States grow in several steps. -/
theorem Grows.trans {s t u : ParserState} (h : Grows s t) (h' : Grows t u) : Grows s u := by
  obtain ⟨more, hmore, hdropped⟩ := h.logged
  obtain ⟨more', hmore', hdropped'⟩ := h'.logged
  refine ⟨h.reported.trans h'.reported, h.errors.trans h'.errors, ⟨more ++ more', ?_, ?_⟩, fun hpos => ?_⟩
  · rw [hmore', hmore, List.append_assoc]
  · rw [List.countP_append]
    omega
  · have hreported := h.reported
    rw [h'.kept (by omega), h.kept hpos]

/-- A state whose reader goes on grows if nothing is dropped. -/
theorem grows_of_goesOn {s s' : ParserState} (h : GoesOn s.reader s'.reader) (hdropped : s'.dropped = s.dropped) :
    Grows s s' := by
  obtain ⟨more, hmore, hdrop⟩ := h.logged
  refine ⟨h.reported, h.errors.ge, ⟨more, hmore, ?_⟩, fun _ => hdropped⟩
  have hzero : more.countP (·.isDrop) = 0 := List.countP_eq_zero.mpr fun e he => by simp [hdrop e he]
  omega

/-- An error that is reported is counted. -/
theorem errorCount_report (s : ParserState) (d : Diagnostic) :
    (s.report d).reader.reporter.errorCount = s.reader.reporter.errorCount + if d.isError then 1 else 0 :=
  Reporter.errorCount_emit _ _

/-- So there is one then. -/
theorem errorCount_report_pos (s : ParserState) {d : Diagnostic} (hd : d.isError = true) :
    0 < (s.report d).reader.reporter.errorCount := by
  rw [errorCount_report, if_pos hd]
  exact Nat.succ_pos _

/-- The state of the lexer counts it, too. -/
theorem errors_report (s : ParserState) (d : Diagnostic) :
    (s.report d).reader.errors = s.reader.errors + if d.isError then 1 else 0 := by
  have hcount := errorCount_report s d
  have hunseen : (s.report d).reader.unseen = s.reader.unseen := rfl
  unfold SymbolReader.errors
  rw [hcount, hunseen]
  omega

/-- A report makes a state grow. -/
theorem grows_report (s : ParserState) (d : Diagnostic) : Grows s (s.report d) := by
  have hcount := errorCount_report s d
  refine ⟨by omega, ?_, ⟨[], by simp [report, SymbolReader.report], by simp [report]⟩, fun _ => rfl⟩
  rw [errors_report]
  omega

/-- A warning is no error, so the reader goes on. -/
theorem goesOn_warn (s : ParserState) {code : Code} (p : Position) (hcode : code.isError = false) :
    GoesOn s.reader (s.warn code p).reader := by
  have hwarning : (Diagnostic.atPosition code p).isError = false := hcode
  unfold warn
  split
  · exact .refl _
  · refine ⟨?_, ?_, [], by simp [report, SymbolReader.report], by simp⟩
    · exact (grows_report s _).reported
    · rw [errors_report, hwarning]
      simp

end ParserState

open ParserState

namespace Action

/-- Whether an action reports no error and drops no node. -/
def isQuiet {α : Type} : Action α → Bool
  | .reject _ | .rejectClosing _ | .build (.error _) => false
  | .warnNext code | .warnAccepted code => !code.isError
  | _ => true

variable {α : Type}

/-- Actions that are quiet leave the reader going on, and drop nothing. -/
theorem goesOn_perform {action : Action α} (h : action.isQuiet = true) (s : ParserState) :
    GoesOn s.reader (action.perform s).2.reader ∧ (action.perform s).2.dropped = s.dropped := by
  cases action with
  | lookahead => exact ⟨goesOn_skipPragmas _, rfl⟩
  | qualifies =>
    simp only [perform]
    split
    · exact ⟨(goesOn_skipPragmas _).trans (goesOn_peekSecond _), rfl⟩
    · exact ⟨goesOn_skipPragmas _, rfl⟩
  | accept => exact ⟨(goesOn_read _).trans (goesOn_skipPragmas _), rfl⟩
  | enter p =>
    simp only [perform]
    split
    · exact ⟨(goesOn_skipPragmas _).trans (goesOn_log _ rfl), rfl⟩
    · exact ⟨.refl _, rfl⟩
  | reject expected | rejectClosing closing => cases h
  | warnNext code | warnAccepted code =>
    refine ⟨goesOn_warn s _ (by simpa [isQuiet] using h), ?_⟩
    simp only [perform, warn]
    split <;> rfl
  | skipped n =>
    simp only [perform]
    split
    · exact ⟨goesOn_log _ rfl, rfl⟩
    · exact ⟨.refl _, rfl⟩
  | build node =>
    cases node with
    | ok node => exact ⟨.refl _, rfl⟩
    | error e => cases h

/-- What a node that cannot be built leads to: it is dropped if no error has been reported. -/
theorem perform_error (e : NodeError) (s : ParserState) :
    (s.reader.reporter.errorCount = 0 ∧ ((build (.error e)).perform s).2.dropped = s.dropped + 1 ∧
        ((build (.error e)).perform s).2.reader =
          s.reader.log (.dropped s.reader.filename s.accepted.position.line e)) ∨
      (0 < s.reader.reporter.errorCount ∧ ((build (.error e)).perform s).2.dropped = s.dropped ∧
        GoesOn s.reader ((build (.error e)).perform s).2.reader) := by
  simp only [perform]
  split
  · next hzero => exact .inl ⟨hzero, rfl, rfl⟩
  · next hzero =>
    refine .inr ⟨by omega, ?_⟩
    split
    · exact ⟨rfl, goesOn_log _ rfl⟩
    · exact ⟨rfl, .refl _⟩

/-- Every action makes a state grow. -/
theorem perform_grows (action : Action α) (s : ParserState) : Grows s (action.perform s).2 := by
  by_cases hquiet : action.isQuiet = true
  · obtain ⟨hgoes, hdropped⟩ := goesOn_perform hquiet s
    exact grows_of_goesOn hgoes hdropped
  · cases action with
    | reject expected | rejectClosing closing => exact grows_report s _
    | warnNext code | warnAccepted code =>
      simp only [perform, warn]
      split
      · exact .refl s
      · exact grows_report s _
    | build node =>
      cases node with
      | ok node => simp [isQuiet] at hquiet
      | error e =>
        obtain ⟨hzero, hdropped, hreader⟩ | ⟨-, hdropped, hgoes⟩ := perform_error e s
        · refine ⟨?_, ?_, ?_, fun hpos => by omega⟩
          · rw [hreader]
            exact le_rfl
          · rw [hreader]
            exact le_rfl
          · rw [hreader, hdropped]
            exact ⟨[.dropped s.reader.filename s.accepted.position.line e], by simp [SymbolReader.log],
              by simp [Event.isDrop]⟩
        · exact grows_of_goesOn hgoes hdropped
    | lookahead | qualifies | accept | enter p | skipped n => simp [isQuiet] at hquiet

/-- What an action itself may report in a state. -/
def remarks : Action α → ParserState → List Diagnostic
  | .reject expected, s =>
    [{ code := .unexpectedToken, position := some s.reader.next.position, lexeme := some s.reader.next.lexeme,
       token := some s.reader.next.token, expected := some expected }]
  | .warnNext code, s => [.atPosition code s.reader.next.position]
  | .warnAccepted code, s => [.atPosition code s.accepted.position]
  | .rejectClosing closing, s => [.ofLexeme .closingIdentMismatch s.accepted.position closing]
  | _, _ => []

/-- What every single step of a reader keeps is kept by every action. -/
theorem keeps_perform {P : SymbolReader → Prop} (hread : ∀ r, P r → P r.read) (hpeek : ∀ r, P r → P r.peekSecond.2)
    (action : Action α) {s : ParserState} (hreport : ∀ r, ∀ d ∈ action.remarks s, P r → P (r.report d))
    (hlog : ∀ r e, P r → P (r.log e)) (h : P s.reader) : P (action.perform s).2.reader := by
  have hsettle : P s.settle.reader := keeps_skipPragmas hread h
  have hwarn : ∀ (code : Code) (p : Position), .atPosition code p ∈ action.remarks s → P (s.warn code p).reader := by
    intro code p hremark
    unfold ParserState.warn
    split
    · exact h
    · exact hreport _ _ hremark h
  cases action with
  | lookahead => exact hsettle
  | qualifies =>
    simp only [perform]
    split
    · exact hpeek _ hsettle
    · exact hsettle
  | accept => exact keeps_skipPragmas hread (hread _ h)
  | enter p =>
    simp only [perform]
    split
    · exact hlog _ _ hsettle
    · exact h
  | reject expected | rejectClosing closing => exact hreport _ _ (List.mem_singleton_self _) h
  | warnNext code | warnAccepted code => exact hwarn _ _ (List.mem_singleton_self _)
  | skipped n =>
    simp only [perform]
    split
    · exact hlog _ _ h
    · exact h
  | build node =>
    cases node with
    | ok node => exact h
    | error e =>
      simp only [perform]
      split
      · exact hlog _ _ h
      · split
        · exact hlog _ _ h
        · exact h

/-- Actions only add to what has been reported. -/
theorem perform_emits (action : Action α) (s : ParserState) : Emits s.reader (action.perform s).2.reader :=
  action.keeps_perform (fun r h => h.trans (emits_read r)) (fun r h => h.trans (emits_peekSecond r))
    (fun r d _ h => h.trans (emits_report r d)) (fun _ _ h => h) (.refl s.reader)

end Action

/-- What a run leads to. -/
theorem Script.Advances.grows {body : Rule → Script Node} {limit : Nat} {α : Type} {script : Script α} {a : α}
    {s s' : ParserState} (h : Script.Advances body limit script s a s') : Grows s s' :=
  h.keeps Grows.refl (fun _ _ _ => Grows.trans) Action.perform_grows

/-- The counts of a run are those of its diagnostics, if they were so at its start. -/
theorem Script.Advances.counts {body : Rule → Script Node} {limit : Nat} {α : Type} {script : Script α} {a : α}
    {s s' : ParserState} (h : Script.Advances body limit script s a s') (hs : s.reader.reporter.Counts) :
    s'.reader.reporter.Counts :=
  h.stays (P := fun s => s.reader.reporter.Counts) (fun action s hs => (action.perform_emits s).counts hs) hs

end Modula
