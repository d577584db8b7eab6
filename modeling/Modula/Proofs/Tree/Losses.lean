import Modula.Proofs.Parser.Reports
import Modula.Proofs.Parser.Termination
import Modula.Proofs.Tree.ProductionTypes

/-!
# Which nodes are lost

A node is lost if it is dropped while no error has been reported. By the types that productions yield, the first loss
of a parse can only be that of a set value whose type is a designator with selectors, as in `a^{1}`. What is built of
the empty node in its place may be lost in turn, so the losses are counted by the log, and that one loss decides whether
there are any.
-/

set_option autoImplicit false

namespace Modula

open Script

/-- Whether an event says that a set value was lost because its type is a designator with selectors. -/
def Event.LosesSetValue : Event → Prop
  | .dropped _ _ e => e.OfSelectedSetType
  | _ => False

namespace ParserState

/-- The types of nodes need no longer be followed: either an error has been reported before any loss, or a set value has
been lost. -/
def Loses (s : ParserState) : Prop :=
  (0 < s.reader.reporter.errorCount ∧ s.dropped = 0) ∨ ∃ e ∈ s.reader.events.toList, e.LosesSetValue

/-- What has been lost stays lost. -/
theorem Loses.grows {s s' : ParserState} (hgrows : Grows s s') (h : s.Loses) : s'.Loses := by
  obtain ⟨hpos, hzero⟩ | ⟨e, he, hloses⟩ := h
  · have hreported := hgrows.reported
    exact .inl ⟨by omega, by rw [hgrows.kept hpos, hzero]⟩
  · obtain ⟨more, hmore, -⟩ := hgrows.logged
    exact .inr ⟨e, by simp [hmore, he], hloses⟩

/-- What a node that cannot be built leads to, if it is a set value as foreseen. -/
theorem loses_error {e : NodeError} (he : e.OfSelectedSetType) {s : ParserState} (hzero : s.dropped = 0) :
    ((Action.build (.error e)).perform s).2.Loses := by
  obtain ⟨-, -, hreader⟩ | ⟨hpos, hdropped, hgoes⟩ := Action.perform_error e s
  · refine .inr ⟨.dropped s.reader.filename s.accepted.position.line e, ?_, he⟩
    rw [hreader]
    simp [SymbolReader.log]
  · have hreported := hgoes.reported
    exact .inl ⟨by omega, by rw [hdropped, hzero]⟩

/-- An error that is reported before any loss. -/
theorem loses_report {s : ParserState} {d : Diagnostic} (herror : d.isError = true) (hzero : s.dropped = 0) :
    (s.report d).Loses := .inl ⟨errorCount_report_pos s herror, hzero⟩

end ParserState

/-- Actions yield what the types of nodes say, with nothing lost, or the types need no longer be followed. -/
theorem Action.follows_typing {α : Type} (action : Action α) {s : ParserState} {Q : α → Unit → Prop}
    (hzero : s.dropped = 0) (hQ : typing.act action () Q) :
    (action.perform s).2.Loses ∨ ∃ w, (action.perform s).2.dropped = 0 ∧ Q (action.perform s).1 w := by
  cases action with
  | lookahead | qualifies | accept => exact .inr ⟨(), (goesOn_perform (by rfl) s).2.trans hzero, hQ _⟩
  | enter p =>
    refine .inr ⟨(), ?_, hQ⟩
    rw [(goesOn_perform (by rfl) s).2, hzero]
  | reject expected | rejectClosing closing => exact .inl (ParserState.loses_report rfl hzero)
  | warnNext code | warnAccepted code =>
    refine .inr ⟨(), ?_, hQ⟩
    simp only [perform, ParserState.warn]
    split
    · exact hzero
    · exact hzero
  | skipped n =>
    refine .inr ⟨(), ?_, hQ⟩
    rw [(goesOn_perform (by rfl) s).2, hzero]
  | build node =>
    cases node with
    | ok node => exact .inr ⟨(), hzero, hQ⟩
    | error e => exact .inl (ParserState.loses_error hQ hzero)

/-- A run that starts without losses loses nothing, or the types of nodes need no longer be followed. -/
theorem Script.Advances.loses {ctx : Context} {limit : Nat} {α : Type} {script : Script α} {a : α} {s s' : ParserState}
    (h : Advances (Rule.body ctx) limit script s a s') (hzero : s.dropped = 0) (hyields : script.Yields fun _ => True) :
    s'.Loses ∨ s'.dropped = 0 := by
  have hact : ∀ {γ : Type} (action : Action γ) (s : ParserState) (_ : Unit) (Q : γ → Unit → Prop), s.dropped = 0 →
      typing.act action () Q →
      (action.perform s).2.Loses ∨ ∃ w, (action.perform s).2.dropped = 0 ∧ Q (action.perform s).1 w :=
    fun action s _ Q hs hQ => action.follows_typing hs hQ
  have hcall : ∀ (rule : Rule) (v : Unit) (Q : Node → Unit → Prop), typing.call rule v Q →
      (rule.body ctx).Ensures typing v Q :=
    fun rule _ Q hQ => (yields_body ctx rule).mono fun node hnode => hQ node hnode
  obtain hloses | ⟨-, hzero, -⟩ :=
    Ensures.holds hact (fun action s hs => hs.grows (action.perform_grows s)) hcall h hzero hyields
  · exact .inl hloses
  · exact .inr hzero

/-- A reader of a source has logged no losses. -/
theorem SymbolReader.events_ofSource (o : Options) (s : Source) :
    ∀ e ∈ (ofSource o s).events.toList, e.isDrop = false := by
  obtain ⟨more, hmore, hdrop⟩ := (goesOn_ofSource o s).logged
  rw [hmore]
  simpa [unread] using hdrop

/-- What a parse logs once the script of the unit has run. -/
theorem mem_events_parse {o : Options} {kind : UnitKind} {s : Source} {e : Event} (hdrop : e.isDrop = true) :
    e ∈ (parse o kind s).events ↔ e ∈ (parseSymbols o kind (.ofSource o s)).2.reader.events.toList := by
  have hevents : ∃ refused : List Event, (∀ e ∈ refused, e.isDrop = false) ∧ (parse o kind s).events =
      (parseSymbols o kind (.ofSource o s)).2.reader.events.toList ++ refused ++
        [.finished s.filename (parse o kind s).errorCount (parse o kind s).warningCount (parse o kind s).dropped] := by
    refine ⟨_, ?_, rfl⟩
    split <;> simp [Event.isDrop]
  obtain ⟨refused, hrefused, hevents⟩ := hevents
  have hother : e ∉ refused := fun he => by simp [hrefused e he] at hdrop
  rw [hevents]
  cases e <;> simp_all [Event.isDrop]

/-- In every parse of an accepted text, as a unit of either kind and under all options, a node is lost if and only if
the log says so of a set value whose type is a designator with selectors. No other construct is lost on its own. -/
theorem dropped_eq_zero_iff (o : Options) (kind : UnitKind) (filename text : String) (s : Source)
    (h : Source.ofText filename text = .ok s) :
    (parse o kind s).dropped = 0 ↔ ∀ filename line, ∀ t ∈ NodeType.selected,
      Event.dropped filename line (.misplaced .setValue 1 t) ∉ (parse o kind s).events := by
  have hadvances := (parseSymbols_completes o kind (Source.length_rest_le h)).advances
  obtain ⟨more, hmore, hcount⟩ := hadvances.grows.logged
  constructor
  · intro hzero filename' line t ht hmem
    rw [mem_events_parse rfl, hmore, List.mem_append] at hmem
    obtain hmem | hmem := hmem
    · have hdrop := SymbolReader.events_ofSource _ _ _ hmem
      simp [Event.isDrop] at hdrop
    · have hpos : 0 < more.countP (·.isDrop) := List.countP_pos_iff.mpr ⟨_, hmem, rfl⟩
      have hfinal : (parseSymbols o kind (.ofSource o _)).2.dropped = 0 := hzero
      omega
  · intro hnone
    obtain hloses | hzero := hadvances.loses rfl (yields_unit o.context kind)
    · obtain ⟨-, hzero⟩ | ⟨e, he, hlost⟩ := hloses
      · exact hzero
      · cases e with
        | dropped filename' line error =>
          obtain ⟨ht⟩ := hlost
          exact (hnone filename' line _ ht ((mem_events_parse rfl).mpr he)).elim
        | _ => exact hlost.elim
    · exact hzero

/-- A set value of the type `a^` is recognised without an error, and lost with the assignment that it stands in. -/
theorem dropped_dereferenced_setValue :
    ∃ s, Source.ofText "m" "MODULE M; BEGIN x := a^\x7b1\x7d END M." = .ok s ∧
      (parse .standard .implementation s).errorCount = 0 ∧ (parse .standard .implementation s).dropped = 2 ∧
      ∃ filename line, ∃ t ∈ NodeType.selected,
        Event.dropped filename line (.misplaced .setValue 1 t) ∈ (parse .standard .implementation s).events := by
  have h : Source.ofText "m" "MODULE M; BEGIN x := a^\x7b1\x7d END M." =
      .ok (.ofNormalized "m" "MODULE M; BEGIN x := a^\x7b1\x7d END M.".toList) := by rfl
  have hdropped : (parse .standard .implementation
      (.ofNormalized "m" "MODULE M; BEGIN x := a^\x7b1\x7d END M.".toList)).dropped = 2 := by decide
  refine ⟨_, h, by decide, hdropped, ?_⟩
  by_contra hnone
  push Not at hnone
  rw [(dropped_eq_zero_iff .standard .implementation _ _ _ h).mpr hnone] at hdropped
  cases hdropped

end Modula
