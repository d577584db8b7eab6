import Modula.Proofs.Parser.Careful
import Modula.Proofs.Reader.Revealing
import Modula.Proofs.Scan.Order

/-!
# Unexpected tokens are not expected

A report of an unexpected token names the tokens that were expected instead. It would contradict itself if the offending
token were among them, which a malformed literal is too if the well-formed one is. In no parse there is such a report
(`unexpected_tokens_consistent`): a careful parse has looked at a token that it rejects, and found it to be none of those
that it names.
-/

set_option autoImplicit false

namespace Modula

open SymbolReader

/-- A report of an unexpected token names what was expected, and the offending token, taken as well-formed, is not among
that. -/
def Diagnostic.Consistent (d : Diagnostic) : Prop :=
  d.code = .unexpectedToken → ∃ t expected, d.token = some t ∧ d.expected = some expected ∧ expected.tokens ≠ [] ∧
    t.wellFormed ∉ expected.tokens ∧ t ≠ .pragma

/-- All reports are consistent, and so will be the faults of the symbols that have not come into view. -/
structure SymbolReader.Consistent (r : SymbolReader) : Prop where
  reports : ∀ d ∈ r.reporter.diagnostics, d.Consistent
  unseen : ∀ u ∈ r.unseen, ∀ d ∈ u.faults, d.Consistent

namespace SymbolReader.Consistent

variable {r r' : SymbolReader}

/-- Faults of symbols do not expect anything, so they keep all reports consistent. -/
theorem reveals (h : r.Consistent) (hreveals : Reveals r r') : r'.Consistent where
  reports := hreveals.forall_reports (fun _ _ hd => hd) h.reports h.unseen
  unseen u hu := h.unseen u (hreveals.unseen u hu)

/-- A consistent report may be added. -/
theorem report {d : Diagnostic} (h : r.Consistent) (hd : d.Consistent) : (r.report d).Consistent := by
  refine ⟨fun e he => ?_, h.unseen⟩
  obtain he | ⟨line, rfl⟩ := Reporter.mem_diagnostics_emit he
  · exact h.reports e he
  · exact hd

end SymbolReader.Consistent

/-- The faults of symbols are no reports of unexpected tokens. -/
theorem SymbolReader.consistent_ofSource (o : Options) {s : Source} (hlength : s.rest.length ≤ s.length) :
    (ofSource o s).Consistent := by
  have hunread : (unread o s).Consistent := by
    have hunseen : (unread o s).unseen = Scan.symbols o.scanRules s := rfl
    refine ⟨by simp [unread, Reporter.diagnostics], fun u hu d hd hcode => ?_⟩
    rw [hunseen] at hu
    have hlexical := (Scan.reads_symbols o.scanRules s hlength).ascending.lexical u hu d hd
    rw [hcode] at hlexical
    cases hlexical
  exact hunread.reveals (reveals_ofSource o s)

/-! ## Parses -/

namespace Action

variable {ctx : Context} {D : Discipline ctx} {α : Type} {action : Action α} {s : ParserState} {v : AtHand}

/-- What an action reports that does as it is asked to is consistent. -/
theorem remarks_consistent (hs : s.Sees D v) (hasks : D.Asks action v) : ∀ d ∈ action.remarks s, d.Consistent := by
  cases action with
  | lookahead | qualifies | accept | enter p | skipped n | build r => exact fun d hd => (List.not_mem_nil hd).elim
  | reject expected =>
    intro d hd hcode
    obtain rfl := List.mem_singleton.mp hd
    obtain ⟨hsome, hother⟩ := hasks
    have hnext := hs.ready.ends.next_token
    rw [hs.next, ← hnext] at hother
    exact ⟨_, _, rfl, rfl, hsome, hother, hnext ▸ hs.settled⟩
  | warnNext code =>
    intro d hd hcode
    obtain rfl := List.mem_singleton.mp hd
    obtain rfl : code = .unexpectedToken := hcode
    cases hasks
  | warnAccepted code =>
    intro d hd hcode
    obtain rfl := List.mem_singleton.mp hd
    obtain rfl : code = .unexpectedToken := hcode
    cases hasks.1
  | rejectClosing closing =>
    intro d hd hcode
    obtain rfl := List.mem_singleton.mp hd
    cases hcode

/-- An action that does as a discipline asks keeps all reports consistent. -/
theorem consistent_perform (hs : s.Sees D v) (hasks : D.Asks action v) (hreader : s.reader.Consistent) :
    (action.perform s).2.reader.Consistent :=
  action.keeps_perform (P := SymbolReader.Consistent) (fun r hr => hr.reveals (reveals_read r))
    (fun r hr => hr.reveals (reveals_peekSecond r)) (fun _ d hd hr => hr.report (remarks_consistent hs hasks d hd))
    (fun _ _ hr => ⟨hr.reports, hr.unseen⟩) hreader

end Action

/-- In every parse of an accepted text, as a unit of either kind and under all options, a report of an unexpected token
names tokens that were expected, the offending token taken as well-formed is none of them, and it is no pragma. -/
theorem unexpected_tokens_consistent (o : Options) (kind : UnitKind) {filename text : String} {s : Source}
    (h : Source.ofText filename text = .ok s) :
    ∀ d ∈ (parse o kind s).diagnostics, d.code = .unexpectedToken →
      ∃ t expected, d.token = some t ∧ d.expected = some expected ∧ expected.tokens ≠ [] ∧
        t.wellFormed ∉ expected.tokens ∧ t ≠ .pragma := by
  have hlength := Source.length_rest_le h
  have hstart : (ParserState.start o (.ofSource o s)).settle.reader.Consistent :=
    keeps_skipPragmas (P := SymbolReader.Consistent) (fun r hr => hr.reveals (reveals_read r))
      (consistent_ofSource o hlength)
  obtain ⟨-, v, hconsistent⟩ := parse_careful kind (I := fun s _ => s.reader.Consistent) hlength
    (fun action _ _ hs h hasks => Action.consistent_perform hs hasks h) hstart
  exact hconsistent.reports

/-- A malformed number where a statement has to begin, with a pragma before it. -/
theorem unexpected_tokens_consistent_statement :
    ∃ s, Source.ofText "m" "MODULE M; BEGIN <*p*> 0A END M." = .ok s ∧
      ∃ d ∈ (parse .standard .implementation s).diagnostics, d.code = .unexpectedToken ∧
        ∃ t expected, d.token = some t ∧ d.expected = some expected ∧ expected.tokens ≠ [] ∧
          t.wellFormed ∉ expected.tokens ∧ t ≠ .pragma := by
  have h : Source.ofText "m" "MODULE M; BEGIN <*p*> 0A END M." =
      .ok (.ofNormalized "m" "MODULE M; BEGIN <*p*> 0A END M.".toList) := by rfl
  have hreported : ∃ d ∈ (parse .standard .implementation
      (.ofNormalized "m" "MODULE M; BEGIN <*p*> 0A END M.".toList)).diagnostics, d.code = .unexpectedToken := by decide
  obtain ⟨d, hd, hcode⟩ := hreported
  exact ⟨_, h, d, hd, hcode, unexpected_tokens_consistent .standard .implementation h d hd hcode⟩

end Modula
