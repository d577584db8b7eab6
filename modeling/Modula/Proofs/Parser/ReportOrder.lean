import Modula.Proofs.Parser.Careful
import Modula.Proofs.Reader.ReportOrder

/-!
# The order of diagnostics

What a parse reports is in the order of the source but for lexical faults, which are reported when their symbol comes
into view and so may come before something at an earlier position (`reports_in_order`). A state in which that is so
(`ParserState.InOrder`) stays so with every action, provided that what is reported about the symbol accepted last is
reported before anything about the next symbol (`ParserState.Fresh`); a careful parse sees to that.
-/

set_option autoImplicit false

namespace Modula

open SymbolReader ParserState

namespace ParserState

/-- What has been reported is in order, and not behind the next symbol. -/
def InOrder (s : ParserState) : Prop := ∃ p, s.reader.Orderly p

/-- What has been reported is in order, and not behind the symbol accepted last. -/
def Fresh (s : ParserState) : Prop := s.reader.Orderly s.accepted.position

variable {s t : ParserState} {p q : Position} {fresh : Prop}

/-- A state that has just accepted a symbol is in order up to it. -/
theorem Fresh.inOrder (h : s.Fresh) : s.InOrder := ⟨_, h⟩

/-- What keeps the reader orderly and accepts nothing. -/
theorem inOrder_of_orderly (hs : s.InOrder) (hfresh : fresh → s.Fresh) (haccepted : t.accepted = s.accepted)
    (h : ∀ p, s.reader.Orderly p → t.reader.Orderly p) : t.InOrder ∧ (fresh → t.Fresh) := by
  obtain ⟨p, hp⟩ := hs
  refine ⟨⟨p, h p hp⟩, fun hnow => ?_⟩
  rw [Fresh, haccepted]
  exact h _ (hfresh hnow)

/-- A warning may be added at any position between the last report and the next symbol. -/
theorem orderly_warn (code : Code) (h : s.reader.Orderly p) (hpq : p ≤ q) (hq : q ≤ s.reader.next.position) :
    (s.warn code q).reader.Orderly q := by
  unfold warn
  split
  · exact h.mono hpq hq
  · exact h.report hpq hq rfl

/-- The symbol that is accepted comes after all that has been reported. -/
theorem InOrder.accept (h : s.InOrder) :
    ({ s with reader := s.reader.read, accepted := s.reader.read.current }.settle).Fresh := by
  obtain ⟨p, hp⟩ := h
  obtain ⟨hread, hnext⟩ := hp.read
  have hcurrent : s.reader.next.position = s.reader.read.current.position := by rw [current_read]
  have hplace : p ≤ s.reader.read.current.position := hp.next.trans hcurrent.le
  exact (hread.mono hplace (hcurrent.ge.trans hnext)).skipPragmas

end ParserState

/-- Reports stay in order with every action that does as it is asked to. -/
theorem Action.perform_inOrder {ctx : Context} {D : Discipline ctx} {α : Type} (action : Action α) {s : ParserState}
    {v : AtHand} (hasks : D.Asks action v) (hs : s.InOrder) (hfresh : v.fresh → s.Fresh) :
    (action.perform s).2.InOrder ∧ ((v.after action (action.perform s).1).fresh → (action.perform s).2.Fresh) := by
  have hkeeps : ∀ t : ParserState, t.accepted = s.accepted → (∀ p, s.reader.Orderly p → t.reader.Orderly p) →
      t.InOrder ∧ (v.fresh → t.Fresh) := fun t => inOrder_of_orderly hs hfresh
  cases action with
  | lookahead => exact hkeeps _ rfl fun p hp => hp.skipPragmas
  | qualifies =>
    simp only [perform]
    split
    · exact hkeeps _ rfl fun p hp => hp.skipPragmas.peekSecond
    · exact hkeeps _ rfl fun p hp => hp.skipPragmas
  | accept => exact ⟨hs.accept.inOrder, fun _ => hs.accept⟩
  | enter p =>
    simp only [perform]
    split
    · exact hkeeps _ rfl fun p hp => hp.skipPragmas.log _
    · exact hkeeps _ rfl fun p hp => hp
  | reject expected =>
    obtain ⟨p, hp⟩ := hs
    exact ⟨⟨_, hp.report hp.next le_rfl rfl⟩, False.elim⟩
  | warnNext code =>
    obtain ⟨p, hp⟩ := hs
    exact ⟨⟨_, orderly_warn code hp hp.next le_rfl⟩, False.elim⟩
  -- what is told of the symbol accepted last comes before all reports about the next one
  | warnAccepted code =>
    have hnow := hfresh hasks.2.2
    have hwarned : (s.warn code s.accepted.position).reader.Orderly s.accepted.position :=
      orderly_warn code hnow le_rfl hnow.next
    refine ⟨⟨_, hwarned⟩, fun _ => ?_⟩
    rw [ParserState.Fresh, accepted_perform rfl]
    exact hwarned
  | rejectClosing closing =>
    have hnow := hfresh hasks.2
    have hreported : (s.report (.ofLexeme .closingIdentMismatch s.accepted.position closing)).Fresh :=
      hnow.report le_rfl hnow.next rfl
    exact ⟨hreported.inOrder, fun _ => hreported⟩
  | skipped n =>
    simp only [perform]
    split
    · exact hkeeps _ rfl fun p hp => hp.log _
    · exact hkeeps _ rfl fun p hp => hp
  | build node =>
    cases node with
    | ok node => exact hkeeps _ rfl fun p hp => hp
    | error e =>
      simp only [perform]
      split
      · exact hkeeps _ rfl fun p hp => hp.log _
      · split
        · exact hkeeps _ rfl fun p hp => hp.log _
        · exact hkeeps _ rfl fun p hp => hp

/-- In every parse of an accepted text, as a unit of either kind and under all options, the diagnostics come in the order
of their positions but for lexical faults: no other diagnostic is followed by one at an earlier position. -/
theorem reports_in_order (o : Options) (kind : UnitKind) (filename text : String) (s : Source)
    (h : Source.ofText filename text = .ok s) : (parse o kind s).diagnostics.Pairwise Diagnostic.MayPrecede := by
  have hlength := Source.length_rest_le h
  have hposition : s.position = .start := by
    rw [Source.eq_ofNormalized h]
    rfl
  have hstart : (ParserState.start o (.ofSource o s)).settle.InOrder :=
    ⟨_, (orderly_ofSource o hlength hposition).skipPragmas⟩
  obtain ⟨-, v, ⟨p, hp⟩, -⟩ := parse_careful kind (I := fun s v => s.InOrder ∧ (v.fresh → s.Fresh)) hlength
    (fun action _ _ _ h hasks => action.perform_inOrder hasks h.1 h.2) ⟨hstart, False.elim⟩
  exact hp.reports.pairwise

/-- A wrong closing identifier before a string that is not closed: the fault of the string is reported first. -/
theorem reports_in_order_closing :
    ∃ s, Source.ofText "m" "MODULE M;\nPROCEDURE P;\nEND Q 'x\n;\nEND M.\n" = .ok s ∧
      (parse .standard .implementation s).diagnostics.Pairwise Diagnostic.MayPrecede := by
  have h : Source.ofText "m" "MODULE M;\nPROCEDURE P;\nEND Q 'x\n;\nEND M.\n" =
      .ok (.ofNormalized "m" "MODULE M;\nPROCEDURE P;\nEND Q 'x\n;\nEND M.\n".toList) := by rfl
  exact ⟨_, h, reports_in_order .standard .implementation _ _ _ h⟩

end Modula
