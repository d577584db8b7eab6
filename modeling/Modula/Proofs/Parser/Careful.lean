import Modula.Proofs.Parser.ProductionDiscipline
import Modula.Proofs.Parser.Reports
import Modula.Proofs.Parser.Settled
import Modula.Proofs.Tree.Validity

/-!
# Careful parses

Every parse follows every discipline. What is at hand of a state is what the discipline takes it for
(`ParserState.Sees`), and an action grants what the discipline relies on (`Action.grants`); so whatever the actions keep
that do as they are asked to, a run keeps (`Script.Advances.careful`), and so do two runs side by side
(`Script.Advances.careful_lockstep`).
-/

set_option autoImplicit false

namespace Modula

open SymbolReader ParserState

variable {ctx : Context} {D : Discipline ctx}

/-! ## What is at hand -/

/-- What is at hand of a state before a symbol is accepted. -/
def ParserState.atHand (s : ParserState) : AtHand where
  last := s.accepted.token.wellFormed
  naming := false
  ahead := s.reader.ahead.map (·.token.wellFormed)
  lexeme := s.accepted.lexeme
  fresh := False

/-- A settled state, with what is at hand of it. Ahead are only such symbols as may come. -/
structure ParserState.Sees (D : Discipline ctx) (s : ParserState) (v : AtHand) : Prop where
  ready : s.Ready
  settled : firstToken s.reader.ahead ≠ .pragma
  ahead : v.ahead = s.reader.ahead.map (·.token.wellFormed)
  last : v.last = s.accepted.token.wellFormed
  lexeme : v.lexeme = s.accepted.lexeme
  offered : ∀ u ∈ s.reader.ahead, D.offered u.token.wellFormed
  admitted : ∀ u ∈ s.reader.ahead, u.token = .ident → D.admitted u.lexeme

namespace ParserState.Sees

variable {s s' : ParserState} {v : AtHand}

/-- The next token at hand is the first one ahead. -/
theorem next (hs : s.Sees D v) : v.next = (firstToken s.reader.ahead).wellFormed := by
  rw [AtHand.next, hs.ahead]
  cases s.reader.ahead <;> rfl

/-- The one after it is the second one ahead. -/
theorem second (hs : s.Sees D v) : v.second = (firstToken s.reader.ahead.tail).wellFormed := by
  rw [AtHand.second, hs.ahead, ← List.map_tail]
  cases s.reader.ahead.tail <;> rfl

/-- The next token is one of those that may come. -/
theorem offered_next (hs : s.Sees D v) : D.offered v.next := by
  rw [hs.next]
  cases hahead : s.reader.ahead with
  | nil => exact D.offered_eof
  | cons u others => exact hs.offered u (hahead ▸ List.mem_cons_self)

/-- What is at hand stays so if the symbols do. -/
theorem of_eq {fresh : Prop} (hs : s.Sees D v) (hready : s'.Ready) (hahead : s'.reader.ahead = s.reader.ahead)
    (haccepted : s'.accepted = s.accepted) : s'.Sees D { v with fresh := fresh } where
  ready := hready
  settled := hahead ▸ hs.settled
  ahead := hahead ▸ hs.ahead
  last := haccepted ▸ hs.last
  lexeme := haccepted ▸ hs.lexeme
  offered := hahead ▸ hs.offered
  admitted := hahead ▸ hs.admitted

end ParserState.Sees

/-- In a settled state, what is at hand is taken for what it is. -/
theorem ParserState.Ready.sees {s : ParserState} (hready : s.Ready) (hsettled : firstToken s.reader.ahead ≠ .pragma)
    (hoffered : ∀ u ∈ s.reader.ahead, D.offered u.token.wellFormed)
    (hadmitted : ∀ u ∈ s.reader.ahead, u.token = .ident → D.admitted u.lexeme) : s.Sees D s.atHand :=
  ⟨hready, hsettled, rfl, rfl, rfl, hoffered, hadmitted⟩

/-- So it is at the start of a parse, once pragmas have been passed. -/
theorem ParserState.Ready.sees_settle {s : ParserState} (hready : s.Ready)
    (hoffered : ∀ u ∈ s.reader.ahead, D.offered u.token.wellFormed)
    (hadmitted : ∀ u ∈ s.reader.ahead, u.token = .ident → D.admitted u.lexeme) : s.settle.Sees D s.settle.atHand := by
  obtain ⟨hready, hahead⟩ := hready.settle
  have hsuffix : s.settle.reader.ahead <:+ s.reader.ahead := hahead ▸ withoutPragmas_suffix s.reader.ahead
  refine hready.sees ?_ (fun u hu => hoffered u (hsuffix.subset hu)) fun u hu => hadmitted u (hsuffix.subset hu)
  rw [hahead]
  exact firstToken_withoutPragmas _

namespace Action

variable {α : Type} {s : ParserState} {v : AtHand}

/-- All actions but accepting leave the symbol accepted last. -/
theorem accepted_perform {action : Action α} (h : action.accepts = false) (s : ParserState) :
    (action.perform s).2.accepted = s.accepted := by
  have hwarn : ∀ (code : Code) (p : Position), (s.warn code p).accepted = s.accepted := by
    intro code p
    unfold ParserState.warn
    split <;> rfl
  cases action with
  | accept => cases h
  | lookahead | reject expected | rejectClosing closing => rfl
  | warnNext code | warnAccepted code => exact hwarn _ _
  | qualifies | enter p | skipped n =>
    simp only [perform]
    split <;> rfl
  | build r =>
    cases r with
    | ok node => rfl
    | error e =>
      simp only [perform]
      split
      · rfl
      · split <;> rfl

/-- What is at hand changes with an action as is said. -/
theorem sees_perform (action : Action α) (hs : s.Sees D v) :
    (action.perform s).2.Sees D (v.after action (action.perform s).1) := by
  obtain ⟨hready, hleaves⟩ := action.perform_leaves hs.ready
  have hsame : action.accepts = false → ∀ fresh, (action.perform s).2.Sees D { v with fresh := fresh } :=
    fun h fresh => hs.of_eq hready (ahead_perform h hs.ready hs.settled) (accepted_perform h s)
  cases action with
  | accept =>
    obtain ⟨hahead, -⟩ := hleaves
    have haccepted : (accept.perform s).2.accepted = s.reader.next := current_read s.reader
    have hsuffix : (accept.perform s).2.reader.ahead <:+ s.reader.ahead := by
      rw [hahead]
      exact (withoutPragmas_suffix _).trans (List.tail_suffix _)
    refine ⟨hready, ?_, ?_, ?_, ?_, fun u hu => hs.offered u (hsuffix.subset hu),
      fun u hu => hs.admitted u (hsuffix.subset hu)⟩
    · rw [hahead]
      exact firstToken_withoutPragmas _
    · have hpragma : ((fun t : Token => decide (t = .pragma)) ∘ fun u : Symbol => u.token.wellFormed) =
          fun u => decide (u.token = .pragma) :=
        funext fun u => decide_eq_decide.mpr (wellFormed_eq_iff (by simp))
      rw [hahead, withoutPragmas, ← hpragma, ← List.dropWhile_map, List.map_tail, ← hs.ahead]
      rfl
    · rw [haccepted, hs.ready.ends.next_token, ← hs.next]
      rfl
    · rfl
  | reject expected | warnNext code => exact hsame rfl False
  | lookahead | qualifies | enter p | warnAccepted code | rejectClosing closing | skipped n | build r =>
    exact hsame rfl v.fresh

/-- What a discipline relies on is so, unless it is strict and an error has been reported. -/
theorem grants (action : Action α) (hs : s.Sees D v) (hasks : D.Asks action v) :
    (D.strict ∧ 0 < (action.perform s).2.reader.reporter.errorCount) ∨ D.Grants action v (action.perform s).1 := by
  have hleaves := (action.perform_leaves hs.ready).2
  cases action with
  | lookahead =>
    have hnext : (lookahead.perform s).1 = v.next := (lookahead_of_settled hs.ready hs.settled).trans hs.next.symm
    exact .inr ⟨hnext, hnext ▸ hs.offered_next⟩
  | qualifies =>
    refine .inr fun hb => ?_
    rw [qualifies_of_settled hs.ready hs.settled, decide_eq_true_eq] at hb
    rw [hs.next, hs.second, hb.1, hb.2]
    exact ⟨rfl, rfl⟩
  | accept =>
    refine .inr fun hident => ?_
    rw [hs.next, wellFormed_eq_iff (by simp)] at hident
    cases hahead : s.reader.ahead with
    | nil => simp [hahead] at hident
    | cons u others =>
      rw [hahead] at hident
      rw [hleaves.2 u (by simp [hahead])]
      exact hs.admitted u (hahead ▸ List.mem_cons_self) hident
  | reject expected =>
    by_cases hstrict : D.strict
    · exact .inl ⟨hstrict, errorCount_report_pos s rfl⟩
    · exact .inr hstrict
  | enter p | warnNext code | warnAccepted code | rejectClosing closing | skipped n => exact .inr trivial
  | build r =>
    refine .inr ?_
    show D.good _
    rw [hleaves.2]
    cases r with
    | ok node => exact hasks node rfl
    | error e => exact D.good_empty

end Action

/-! ## Runs -/

namespace Script

variable {limit limit' : Nat} {α : Type} {script : Script α} {a b : α} {s s' t t' : ParserState} {v : AtHand}
  {Q : α → AtHand → Prop}

/-- What is said of a call is so of the body of the rule. -/
theorem ensures_body (rule : Rule) (v : AtHand) (Q : Node → AtHand → Prop) (h : D.care.call rule v Q) :
    (rule.body ctx).Ensures D.care v Q :=
  (D.body rule h.1 v h.2.1 rfl).mono h.2.2

/-- A run of a script that obeys a discipline keeps what the actions keep that do as they are asked to, and comes to what
the script is said to, unless the discipline is strict and an error is reported. -/
theorem Advances.careful {I : ParserState → AtHand → Prop}
    (hact : ∀ {γ : Type} (action : Action γ) (s : ParserState) (v : AtHand), s.Sees D v → I s v → D.Asks action v →
      I (action.perform s).2 (v.after action (action.perform s).1))
    (h : Advances (Rule.body ctx) limit script s a s') (hs : s.Sees D v) (hI : I s v) (hQ : script.Ensures D.care v Q) :
    (D.strict ∧ 0 < s'.reader.reporter.errorCount) ∨ ∃ w, I s' w ∧ Q a w := by
  have hfollows : ∀ {γ : Type} (action : Action γ) (s : ParserState) (v : AtHand) (Q : γ → AtHand → Prop),
      s.Sees D v ∧ I s v → D.care.act action v Q → (D.strict ∧ 0 < (action.perform s).2.reader.reporter.errorCount) ∨
        ∃ w, ((action.perform s).2.Sees D w ∧ I (action.perform s).2 w) ∧ Q (action.perform s).1 w := by
    intro γ action s v Q hv hQ
    refine (action.grants hv.1 hQ.1).imp_right fun hgrants => ?_
    exact ⟨_, ⟨action.sees_perform hv.1, hact action s v hv.1 hv.2 hQ.1⟩, hQ.2 _ hgrants⟩
  have hlost : ∀ {γ : Type} (action : Action γ) (s : ParserState), D.strict ∧ 0 < s.reader.reporter.errorCount →
      D.strict ∧ 0 < (action.perform s).2.reader.reporter.errorCount :=
    fun action s hlost => ⟨hlost.1, hlost.2.trans_le (action.perform_grows s).reported⟩
  refine (Ensures.holds hfollows hlost ensures_body h ⟨hs, hI⟩ hQ).imp_right ?_
  rintro ⟨w, ⟨-, hI⟩, ha⟩
  exact ⟨w, hI, ha⟩

/-- Two runs of a script that obeys a discipline stay related and yield the same, if actions do that do as they are asked
to, unless the discipline is strict and the first run reports an error. -/
theorem Advances.careful_lockstep {R : ParserState → ParserState → AtHand → Prop}
    (hact : ∀ {γ : Type} (action : Action γ) (s t : ParserState) (v : AtHand), s.Sees D v → R s t v →
      D.Asks action v → (action.perform s).1 = (action.perform t).1 ∧
        R (action.perform s).2 (action.perform t).2 (v.after action (action.perform s).1))
    (h : Advances (Rule.body ctx) limit script s a s') (h' : Advances (Rule.body ctx) limit' script t b t')
    (hs : s.Sees D v) (hR : R s t v) (hQ : script.Ensures D.care v Q) :
    (D.strict ∧ 0 < s'.reader.reporter.errorCount) ∨ a = b ∧ ∃ w, R s' t' w := by
  have hfollows : ∀ {γ : Type} (action : Action γ) (s t : ParserState) (v : AtHand) (Q : γ → AtHand → Prop),
      s.Sees D v ∧ R s t v → D.care.act action v Q → (D.strict ∧ 0 < (action.perform s).2.reader.reporter.errorCount) ∨
        (action.perform s).1 = (action.perform t).1 ∧
          ∃ w, ((action.perform s).2.Sees D w ∧ R (action.perform s).2 (action.perform t).2 w) ∧
            Q (action.perform s).1 w := by
    intro γ action s t v Q hv hQ
    refine (action.grants hv.1 hQ.1).imp_right fun hgrants => ?_
    obtain ⟨hyields, hR⟩ := hact action s t v hv.1 hv.2 hQ.1
    exact ⟨hyields, _, ⟨action.sees_perform hv.1, hR⟩, hQ.2 _ hgrants⟩
  have hlost : ∀ {γ : Type} (action : Action γ) (s : ParserState), D.strict ∧ 0 < s.reader.reporter.errorCount →
      D.strict ∧ 0 < (action.perform s).2.reader.reporter.errorCount :=
    fun action s hlost => ⟨hlost.1, hlost.2.trans_le (action.perform_grows s).reported⟩
  refine (Ensures.lockstep hfollows hlost ensures_body h h' ⟨hs, hR⟩ hQ).imp_right ?_
  rintro ⟨heq, w, ⟨-, hR⟩, -⟩
  exact ⟨heq, w, hR⟩

end Script

/-! ## Parses -/

variable {o : Options} {source : Source}

/-- At the start of a parse no point has been accepted, so its unit obeys every discipline. -/
theorem Discipline.ensures_unit (D : Discipline o.context) (kind : UnitKind) (source : Source) :
    (Script.unit o.context kind).Ensures D.care (ParserState.start o (.ofSource o source)).settle.atHand
      fun n _ => D.good n := by
  have hcalm : D.Calm (ParserState.start o (.ofSource o source)).settle.atHand := by
    rintro - hlast
    cases hlast
  exact D.unit kind _ hcalm rfl

/-- A parse comes to a good node, and keeps what the actions keep that do as they are asked to, unless the discipline is
strict and an error is reported. -/
theorem Discipline.parse (D : Discipline o.context) (kind : UnitKind) (hlength : source.rest.length ≤ source.length)
    (hoffered : ∀ u ∈ (ofSource o source).ahead, D.offered u.token.wellFormed)
    (hadmitted : ∀ u ∈ (ofSource o source).ahead, u.token = .ident → D.admitted u.lexeme)
    {I : ParserState → AtHand → Prop}
    (hact : ∀ {γ : Type} (action : Action γ) (s : ParserState) (v : AtHand), s.Sees D v → I s v → D.Asks action v →
      I (action.perform s).2 (v.after action (action.perform s).1))
    (hI : I (ParserState.start o (.ofSource o source)).settle (ParserState.start o (.ofSource o source)).settle.atHand) :
    (D.strict ∧ 0 < (parseSymbols o kind (.ofSource o source)).2.reader.reporter.errorCount) ∨
      D.good (parseSymbols o kind (.ofSource o source)).1 ∧ ∃ w, I (parseSymbols o kind (.ofSource o source)).2 w := by
  have hsees := (ready_start (o := o) hlength).sees_settle hoffered hadmitted
  refine ((parseSymbols_advances_settled o kind hlength).careful hact hsees hI (D.ensures_unit kind source)).imp_right ?_
  rintro ⟨w, hI, hgood⟩
  exact ⟨hgood, w, hI⟩

/-- The discipline in every context of building nodes of valid parts, whatever is reported on the way. -/
def caring (ctx : Context) : Discipline ctx where
  good := Node.Valid
  allowed _ := True
  admitted _ := True
  offered _ := True
  strict := False
  plain _ := trivial
  variants _ _ _ := trivial
  extensions _ _ _ := trivial
  constParameter _ := trivial
  literal _ _ := trivial
  offered_eof := trivial
  good_empty := Node.valid_empty
  good_branch _ hns h := Node.valid_ofBranch h hns
  good_list _ hns h := Node.valid_ofList h hns
  good_value _ _ h := Node.valid_ofValue h
  good_values _ _ h := Node.valid_ofValues h

/-- The same discipline, as far as nothing is rejected. -/
def exacting (ctx : Context) : Discipline ctx := { caring ctx with strict := True }

/-- A parse comes to a valid node, and keeps what the actions keep that do as they are asked to. -/
theorem parse_careful (kind : UnitKind) (hlength : source.rest.length ≤ source.length) {I : ParserState → AtHand → Prop}
    (hact : ∀ {γ : Type} (action : Action γ) (s : ParserState) (v : AtHand), s.Sees (caring o.context) v → I s v →
      (caring o.context).Asks action v → I (action.perform s).2 (v.after action (action.perform s).1))
    (hI : I (ParserState.start o (.ofSource o source)).settle (ParserState.start o (.ofSource o source)).settle.atHand) :
    (parseSymbols o kind (.ofSource o source)).1.Valid ∧ ∃ w, I (parseSymbols o kind (.ofSource o source)).2 w := by
  obtain ⟨hstrict, -⟩ | hparse := (caring o.context).parse kind hlength (fun _ _ => trivial)
    (fun _ _ _ => trivial) hact hI
  · exact hstrict.elim
  · exact hparse

end Modula
